import Mathlib.Logic.Function.Basic
import P2KVS.Foundation.Transition
import P2KVS.Merge.Iterator

/-!
# The write thread of RocksDB

`WriteThread` in `write_thread.cc` lets the threads that write to an instance form groups. A thread
pushes its `Writer` on a lock-free list. The one that finds the list empty leads: it closes a group,
writes the log, and either inserts all batches itself or lets every member insert its own. The last
member to finish hands the leadership to the first writer behind the group, or empties the list, and
then releases the members. Writers live on the stacks of their threads, so a released writer is
gone.

One step is one access to memory that several threads share; `SetState` and a returning `AwaitState`
are one step each, which `AwaitState.Wakeup` justifies. `fault` is set when the code follows a null
pointer, touches a writer whose function has returned, or fails an assertion about links and states.

The runs are those without pipelined writes (`enable_pipelined_write`) and without write stalls: the
stall branch of `LinkOne`, `BeginWriteStall` and `EndWriteStall` are left out, so no writer leaves
the list before it is in a group. Also left out are the assertions about statuses, and the mutex of
the leader that `CompleteParallelMemTableWriter` locks behind a failed insertion.
-/

namespace P2KVS.WriteThread

open Transition

/-- What the write thread and `WriteImpl` read of a `WriteBatch`. -/
structure Batch where
  byteSize : Nat
  count : Nat
  hasMerge : Bool
  deriving DecidableEq, Repr

/-- A `WriteCallback`: `AllowWriteBatching`, and what `Callback` returns. -/
structure Callback where
  allowWriteBatching : Bool
  status : Status
  deriving DecidableEq, Repr

/-- The fields of a `Writer` that its constructor fixes. A writer without a batch comes from
`EnterUnbatched`. -/
structure Request where
  batch : Option Batch
  sync : Bool
  noSlowdown : Bool
  disableWal : Bool
  disableMemtable : Bool
  callback : Option Callback
  deriving DecidableEq, Repr

/-- The requests of the writers, and `max_write_batch_group_size_bytes`. -/
structure Config where
  request : Nat → Request
  maxWriteBatchGroupSizeBytes : Nat

/-- `WriteThread::State`, without the state of pipelined writes and the one that `AwaitState` uses
between its own steps. -/
inductive WriterState where
  | init
  | groupLeader
  | parallelMemtableWriter
  | completed
  deriving DecidableEq, Repr

/-- `WriteThread::WriteGroup`, without what belongs to `WriteImpl`. It lies on the stack of its
leader, and the leader's number stands for it. -/
structure WriteGroup where
  lastWriter : Nat
  size : Nat
  running : Nat
  deriving DecidableEq, Repr

/-- Where the thread of a writer stands, with its local variables. -/
inductive Pc where
  | idle
  -- `LinkOne`: before the load of `newest_writer_`, and before its exchange
  | load
  | link (writers : Option Nat)
  -- `JoinBatchGroup`
  | selfLead
  | await
  -- `EnterUnbatched`, and what its caller does alone
  | awaitAlone
  | alone
  -- `WriteImpl` and `EnterAsBatchGroupLeader`
  | preprocess
  | enter
  | createLinks (head newest : Nat)
  | gather (w newest size : Nat)
  | apply
  | insertGroup
  -- `LaunchParallelMemTableWriters` and `CompleteParallelMemTableWriter`
  | launch (w : Nat)
  | insert
  | report
  | complete
  | awaitCompleted
  -- `ExitAsBatchGroupLeader`, `ExitAsBatchGroupFollower` and `ExitUnbatched`
  | publish
  | exitLoad
  | exitCas (leader last : Nat)
  | exitLinks (leader last head : Nat)
  | handoff (leader last : Nat)
  | drain (leader last : Nat)
  | release (leader : Nat)
  | returned
  deriving DecidableEq, Repr

/-- The shared memory, the place of each thread, and two histories: the writers in the order in
which they were linked, and the groups in the order in which they were closed. -/
structure State where
  newestWriter : Option Nat
  linkOlder : Nat → Option Nat
  linkNewer : Nat → Option Nat
  state : Nat → WriterState
  writeGroup : Nat → Option Nat
  group : Nat → WriteGroup
  pc : Nat → Pc
  fault : Bool
  order : List Nat
  formed : List (List Nat)

/-- What `WriteImpl` does with a closed group: it leaves it after an error, inserts all batches, or
lets the members insert theirs. -/
inductive Path where
  | skip
  | serial
  | parallel
  deriving DecidableEq, Repr

/-- A thread constructs its writer; a `compare_exchange_weak` fails without a reason; a thread takes
its next step, where `path` only matters when a group is applied. -/
inductive Action where
  | start (x : Nat)
  | retry (x : Nat)
  | move (x : Nat) (path : Path)
  deriving DecidableEq, Repr

namespace State

/-- The writer exists: its function has begun and has not returned. -/
def live (s : State) (w : Nat) : Bool :=
  s.pc w != .idle && s.pc w != .returned

/-- Thread `x` goes on at `p`. -/
def goto (s : State) (x : Nat) (p : Pc) : State :=
  { s with pc := Function.update s.pc x p }

/-- A null pointer, a writer that is gone, or a failed assertion. -/
def failed (s : State) : State :=
  { s with fault := true }

/-- Follow a pointer to a writer. -/
def deref (s : State) (p : Option Nat) (k : Nat → State) : State :=
  match p with
  | none => s.failed
  | some w => if s.live w then k w else s.failed

/-- `assert`. -/
def check (s : State) (condition : Prop) [Decidable condition] (k : State) : State :=
  if condition then k else s.failed

/-- `SetState` on a writer that exists, as one step. -/
def setState (s : State) (w : Nat) (new : WriterState) : State :=
  { s with state := Function.update s.state w new }

/-- `LinkOne` stores the older link before it tries the exchange. -/
def storeOlder (s : State) (x : Nat) (writers : Option Nat) : State :=
  { s with linkOlder := Function.update s.linkOlder x writers }

/-- The exchange of `LinkOne` succeeds, with no write stall in effect. -/
def push (s : State) (x : Nat) : State :=
  { s with newestWriter := some x, order := s.order ++ [x] }

/-- `CreateMissingNewerLinks` stores one link. -/
def storeNewer (s : State) (w head : Nat) : State :=
  { s with linkNewer := Function.update s.linkNewer w (some head) }

/-- The write group of `x` with `x` as its only member. -/
def openGroup (s : State) (x : Nat) : State :=
  { s with
    writeGroup := Function.update s.writeGroup x (some x)
    group := Function.update s.group x ⟨x, 1, 0⟩ }

/-- Writer `w` joins the write group of `x`. -/
def addMember (s : State) (x w : Nat) : State :=
  { s with
    writeGroup := Function.update s.writeGroup w (some x)
    group := Function.update s.group x
      { s.group x with lastWriter := w, size := (s.group x).size + 1 } }

/-- The counter of the write group of `x`. -/
def setRunning (s : State) (x running : Nat) : State :=
  { s with group := Function.update s.group x { s.group x with running := running } }

/-- The members that an iteration over the group passes: from `w` along `link_newer` up to the last
writer. -/
def iterate (s : State) (last : Nat) : Nat → Nat → List Nat
  | 0, _ => []
  | fuel + 1, w =>
      if w = last then [w]
      else match s.linkNewer w with
        | none => [w]
        | some next => w :: iterate s last fuel next

/-- The members of the group that `leader` leads. -/
def members (s : State) (leader : Nat) : List Nat :=
  s.iterate (s.group leader).lastWriter (s.group leader).size leader

/-- One round of `CreateMissingNewerLinks` by thread `x`, which goes on at `next` or at `stop`. -/
def createMissingNewerLink (s : State) (x head : Nat) (next : Nat → Pc) (stop : Pc) : State :=
  s.deref (some head) fun head =>
    match s.linkOlder head with
    | none => s.goto x stop
    | some older => s.deref (some older) fun older =>
        match s.linkNewer older with
        | some newer => s.check (newer = head) (s.goto x stop)
        | none => (s.storeNewer older head).goto x (next older)

end State

namespace Config

/-- `ByteSize` of the batch. -/
def byteSize (c : Config) (w : Nat) : Nat :=
  match (c.request w).batch with
  | none => 0
  | some b => b.byteSize

/-- The bytes a group may reach whose leader's batch has `size` bytes. -/
def maxSize (c : Config) (size : Nat) : Nat :=
  if size ≤ c.maxWriteBatchGroupSizeBytes / 8 then size + c.maxWriteBatchGroupSizeBytes / 8
  else c.maxWriteBatchGroupSizeBytes

/-- The conditions under which `EnterAsBatchGroupLeader` adds `w` to a group of `size` bytes. -/
def admits (c : Config) (leader size w : Nat) : Bool :=
  let l := c.request leader
  let r := c.request w
  !(r.sync && !l.sync) && r.noSlowdown == l.noSlowdown && r.disableWal == l.disableWal &&
    r.batch.isSome && r.callback.all Callback.allowWriteBatching &&
    size + c.byteSize w ≤ c.maxSize (c.byteSize leader)

/-- Where a thread goes on that has linked its writer, when the list held `writers` before. -/
def linked (c : Config) (x : Nat) (writers : Option Nat) : Pc :=
  match (c.request x).batch, writers with
  | some _, none => .selfLead
  | some _, some _ => .await
  | none, none => .alone
  | none, some _ => .awaitAlone

end Config

namespace State

variable (c : Config)

/-- `AwaitState` in `JoinBatchGroup`, and the branch that `WriteImpl` takes on the state. -/
def joinBatchGroup (s : State) (x : Nat) : Option State :=
  match s.state x with
  | .init => none
  | .groupLeader => some (s.goto x .preprocess)
  | .parallelMemtableWriter => some (s.goto x .insert)
  | .completed => some (s.goto x .returned)

/-- `EnterAsBatchGroupLeader` up to the load of the newest writer. -/
def enterAsBatchGroupLeader (s : State) (x : Nat) : State :=
  s.check (s.linkOlder x = none ∧ (c.request x).batch ≠ none)
    (match s.newestWriter with
    | none => s.failed
    | some newest => (s.openGroup x).goto x (.createLinks newest newest))

/-- The group of `x` is closed. -/
def close (s : State) (x : Nat) : State :=
  { s with formed := s.formed ++ [s.members x] }.goto x .apply

/-- One round of the loop in `EnterAsBatchGroupLeader` behind `w`, where the group has `size`
bytes. -/
def gather (s : State) (x w newest size : Nat) : State :=
  if w = newest then s.close x
  else s.deref (some w) fun w => s.deref (s.linkNewer w) fun w =>
    if c.admits x size w then (s.addMember x w).goto x (.gather w newest (size + c.byteSize w))
    else s.close x

/-- `WriteImpl` behind `EnterAsBatchGroupLeader`. Only a group of several members is applied in
parallel; `running` is stored before the first member is told. -/
def apply (s : State) (x : Nat) : Path → Option State
  | .skip => some (s.goto x .exitLoad)
  | .serial => some (s.goto x .insertGroup)
  | .parallel =>
      if 1 < (s.group x).size then some ((s.setRunning x (s.group x).size).goto x (.launch x))
      else none

/-- One round of `LaunchParallelMemTableWriters`. -/
def launch (s : State) (x w : Nat) : State :=
  s.deref (some w) fun w =>
    let told := s.setState w .parallelMemtableWriter
    if w = (s.group x).lastWriter then told.goto x .insert
    else match s.linkNewer w with
      | none => s.failed
      | some next => told.goto x (.launch next)

/-- `CompleteParallelMemTableWriter` from `running--` on. -/
def completeParallelMemTableWriter (s : State) (x : Nat) : State :=
  s.deref (s.writeGroup x) fun leader =>
    let running := (s.group leader).running
    (s.setRunning leader (running - 1)).goto x (if 1 < running then .awaitCompleted else .publish)

/-- `ExitAsBatchGroupLeader`, or `ExitAsBatchGroupFollower` around it, up to the load of the newest
writer. -/
def exitAsBatchGroup (s : State) (x : Nat) : State :=
  s.deref (s.writeGroup x) fun leader =>
    let last := (s.group leader).lastWriter
    s.check ((x ≠ leader → s.state x = .parallelMemtableWriter) ∧ s.linkOlder leader = none)
      (match s.newestWriter with
      | none => s.failed
      | some head => s.goto x (if head = last then .exitCas leader last
          else .exitLinks leader last head))

/-- The exchange that empties the list, or finds out that somebody has joined. -/
def emptyList (s : State) (x leader last : Nat) : State :=
  if s.newestWriter = some last then
    { s with newestWriter := none }.goto x (.drain leader last)
  else match s.newestWriter with
    | none => s.failed
    | some head => s.goto x (.exitLinks leader last head)

/-- The leadership goes to the first writer behind the group. `ExitUnbatched` does not look at the
older link of that writer. -/
def handoff (s : State) (x leader last : Nat) : State :=
  s.deref (some last) fun last => s.deref (s.linkNewer last) fun next =>
    s.check ((c.request x).batch = none ∨ s.linkOlder next = some last)
      (((s.storeOlder next none).setState next .groupLeader).goto x (.drain leader last))

/-- One round of the loop that releases the followers, newest first. The older link is read before
`SetState`, since the writer may be gone right after it. -/
def drain (s : State) (x leader last : Nat) : State :=
  if last = leader then
    s.goto x (if x = leader then .returned else .release leader)
  else s.deref (some last) fun last =>
    match s.linkOlder last with
    | none => s.failed
    | some older => (s.setState last .completed).goto x (.drain leader older)

/-- `ExitAsBatchGroupFollower` behind `ExitAsBatchGroupLeader`: the leader is released. -/
def releaseLeader (s : State) (x leader : Nat) : State :=
  s.check (s.state x = .completed)
    (s.deref (some leader) fun leader => (s.setState leader .completed).goto x .returned)

/-- The next step of thread `x`, if it does not wait. -/
def move (s : State) (x : Nat) (path : Path) : Option State :=
  match s.pc x with
  | .idle => none
  | .load => some (s.check (s.state x = .init) (s.goto x (.link s.newestWriter)))
  | .link writers =>
      if s.newestWriter = writers then
        some (((s.storeOlder x writers).push x).goto x (c.linked x writers))
      else some ((s.storeOlder x writers).goto x (.link s.newestWriter))
  | .selfLead => some ((s.setState x .groupLeader).goto x .preprocess)
  | .await => s.joinBatchGroup x
  | .awaitAlone => if s.state x = .groupLeader then some (s.goto x .alone) else none
  | .alone => some ({ s with formed := s.formed ++ [[x]] }.goto x (.exitCas x x))
  | .preprocess => some (s.check (s.state x = .groupLeader) (s.goto x .enter))
  | .enter => some (s.enterAsBatchGroupLeader c x)
  | .createLinks head newest =>
      some (s.createMissingNewerLink x head (.createLinks · newest)
        (.gather x newest (c.byteSize x)))
  | .gather w newest size => some (s.gather c x w newest size)
  | .apply => s.apply x path
  | .insertGroup => some (s.goto x .publish)
  | .launch w => some (s.launch x w)
  | .insert => some (s.goto x .report)
  | .report => some (s.deref (s.writeGroup x) fun _ => s.goto x .complete)
  | .complete => some (s.completeParallelMemTableWriter x)
  | .awaitCompleted => if s.state x = .completed then some (s.goto x .returned) else none
  | .publish => some (s.deref (s.writeGroup x) fun _ => s.goto x .exitLoad)
  | .exitLoad => some (s.exitAsBatchGroup x)
  | .exitCas leader last => some (s.emptyList x leader last)
  | .exitLinks leader last head =>
      some (s.createMissingNewerLink x head (.exitLinks leader last) (.handoff leader last))
  | .handoff leader last => some (s.handoff c x leader last)
  | .drain leader last => some (s.drain x leader last)
  | .release leader => some (s.releaseLeader x leader)
  | .returned => none

end State

/-- One step of one thread. A spurious failure of the exchange re-reads the newest writer. -/
def step (c : Config) (s : State) : Action → Option State
  | .start x => if s.pc x = .idle then some (s.goto x .load) else none
  | .retry x =>
      match s.pc x with
      | .link writers => some ((s.storeOlder x writers).goto x (.link s.newestWriter))
      | _ => none
  | .move x path => s.move c x path

/-- The write thread before the first writer. -/
def system (c : Config) : System State Action where
  init :=
    { newestWriter := none
      linkOlder := fun _ => none
      linkNewer := fun _ => none
      state := fun _ => .init
      writeGroup := fun _ => none
      group := fun _ => ⟨0, 0, 0⟩
      pc := fun _ => .idle
      fault := false
      order := []
      formed := [] }
  step := step c

end P2KVS.WriteThread
