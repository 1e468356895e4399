import P2KVS.RocksDB.GroupCommit
import P2KVS.RocksDB.Queue.Safety

/-!
# Writes to one instance

`DBImpl::WriteImpl` on top of the write thread: what the threads do with the log, the memtable, the
sequence numbers and the statuses at each place of `WriteThread`. The options are those of
`GroupCommit`. What a call returns is an `Outcome` of the step that makes it.
-/

namespace P2KVS.WriteImpl

open Transition WriteThread

/-- What the calls of one step return: the status of `PreprocessWrite`, `WriteToWAL` or
`InsertInto`; how many entries an `InsertInto` that fails has inserted; whether the record of a
`WriteToWAL` that fails has reached the file; and what the field `last_sequence` of a new write
group holds. -/
structure Outcome where
  status : Status
  inserted : Nat
  logged : Bool
  stale : Nat
  deriving DecidableEq, Repr

/-- An instance with its writers. `status`, `sequence` and `result` belong to the writers;
`groupStatus` and `groupSequence` are fields of the write groups; `localStatus`, `localSequence`,
`currentSequence` and `exitStatus` are local variables of `WriteImpl` and `ExitAsBatchGroupLeader`.
The memtable has the writer and the sequence number of each entry, the log the sequence number and
the writers of each record. -/
structure Db where
  thread : State
  status : Nat → Status
  sequence : Nat → Nat
  result : Nat → Option Status
  groupStatus : Nat → Status
  groupSequence : Nat → Nat
  localStatus : Nat → Status
  localSequence : Nat → Nat
  currentSequence : Nat → Nat
  exitStatus : Nat → Status
  lastSequence : Nat
  memtable : List (Nat × Nat)
  log : List (Nat × List Nat)

/-- The actions of the write thread, with outcomes. -/
inductive Action where
  | start (x : Nat)
  | retry (x : Nat)
  | move (x : Nat) (o : Outcome)
  deriving DecidableEq, Repr

/-- `callback_status`. -/
def callbackStatus (c : Config) (w : Nat) : Status :=
  match (c.request w).callback with
  | none => .ok
  | some cb => cb.status

/-- `CallbackFailed`. -/
def callbackFailed (c : Config) (w : Nat) : Bool :=
  callbackStatus c w ≠ .ok

/-- What sequence numbers depend on. A writer whose callback failed takes no sequence number, like
one that does not write to the memtable. -/
def writer (c : Config) (w : Nat) : GroupCommit.Writer where
  count := match (c.request w).batch with
    | none => 0
    | some b => b.count
  hasMerge := match (c.request w).batch with
    | none => false
    | some b => b.hasMerge
  disableMemtable := (c.request w).disableMemtable || callbackFailed c w

/-- The entries of some members with their sequence numbers, from `next` on, as
`InsertInto(write_group)` inserts them. -/
def insertions (c : Config) (next : Nat) : List Nat → List (Nat × Nat)
  | [] => []
  | w :: rest =>
      if callbackFailed c w then insertions c next rest
      else (GroupCommit.numbers (writer c w) next).map (Prod.mk w) ++
        insertions c (next + (writer c w).entries) rest

/-- The loop of `WriteImpl` that sets `writer->sequence`. -/
def setSequences (c : Config) (next : Nat) (sequence : Nat → Nat) : List Nat → Nat → Nat
  | [] => sequence
  | w :: rest =>
      if callbackFailed c w then setSequences c next sequence rest
      else setSequences c (next + (writer c w).entries) (Function.update sequence w next) rest

/-- What reaches the memtable of the entries of an `InsertInto`. -/
def Outcome.inserts (o : Outcome) (entries : List (Nat × Nat)) : List (Nat × Nat) :=
  if o.status = .ok then entries else entries.take o.inserted

/-- `parallel`. -/
def parallel (c : Config) (members : List Nat) : Bool :=
  1 < members.length && members.all fun w => (writer c w).disableMemtable || !(writer c w).hasMerge

namespace Db

variable (c : Config)

/-- The log behind `WriteToWAL`. The record has the batches of the members whose callbacks have not
failed. A call that fails may have written it. -/
def walLog (db : Db) (x : Nat) (o : Outcome) : List (Nat × List Nat) :=
  if o.status = .ok ∨ o.logged then
    db.log ++ [(db.localSequence x + 1, (db.thread.members x).filter fun w => !callbackFailed c w)]
  else db.log

/-- The log and the leader's local variables behind the attempt to write the log. -/
def writeToWAL (db : Db) (x : Nat) (o : Outcome) : Db :=
  let total := GroupCommit.totalCount ((db.thread.members x).map (writer c))
  { db with
    log := if (c.request x).disableWal then db.log else db.walLog c x o
    localStatus := Function.update db.localStatus x
      (if (c.request x).disableWal then .ok else o.status)
    localSequence := Function.update db.localSequence x (db.localSequence x + total)
    currentSequence := Function.update db.currentSequence x (db.localSequence x + 1) }

/-- `WriteImpl` from `EnterAsBatchGroupLeader` to the memtable: the log, the sequence numbers, and
the path. -/
def applyGroup (db : Db) (x : Nat) (o : Outcome) : Db × Path :=
  if db.localStatus x ≠ .ok then (db, .skip)
  else
    let db := db.writeToWAL c x o
    let members := db.thread.members x
    if db.localStatus x ≠ .ok then (db, .skip)
    else ({ db with sequence := setSequences c (db.currentSequence x) db.sequence members },
      if parallel c members then .parallel else .serial)

/-- `ShouldWriteToMemtable`. -/
def shouldWriteToMemtable (db : Db) (x : Nat) : Bool :=
  db.status x = .ok && !callbackFailed c x && !(c.request x).disableMemtable

/-- The places at which a step changes the write thread only. -/
def silent : Pc → Prop
  | .preprocess | .enter | .apply | .insertGroup | .insert | .report | .complete | .publish
  | .exitLoad | .drain .. => False
  | _ => True

/-- What a step of thread `x` does besides the write thread, and the path it takes there. -/
def effect (db : Db) (x : Nat) (o : Outcome) : Db × Path :=
  let leader := (db.thread.writeGroup x).getD x
  match db.thread.pc x with
  | .preprocess => ({ db with
      localStatus := Function.update db.localStatus x o.status
      localSequence := Function.update db.localSequence x db.lastSequence }, .skip)
  | .enter => ({ db with
      groupStatus := Function.update db.groupStatus x .ok
      groupSequence := Function.update db.groupSequence x o.stale }, .skip)
  | .apply => db.applyGroup c x o
  | .insertGroup =>
      let entries := insertions c (db.currentSequence x) (db.thread.members x)
      ({ db with
        status := Function.update db.status x o.status
        memtable := db.memtable ++ o.inserts entries }, .skip)
  | .insert =>
      let entries := (GroupCommit.numbers (writer c x) (db.sequence x)).map (Prod.mk x)
      if db.shouldWriteToMemtable c x then
        ({ db with
          status := Function.update db.status x o.status
          memtable := db.memtable ++ o.inserts entries }, .skip)
      else (db, .skip)
  | .report =>
      (if db.status x = .ok then db
        else { db with groupStatus := Function.update db.groupStatus leader (db.status x) }, .skip)
  | .complete =>
      (if 1 < (db.thread.group leader).running then db
        else { db with status := Function.update db.status x (db.groupStatus leader) }, .skip)
  | .publish =>
      let last := if x ≠ leader then db.groupSequence leader
        else if db.localStatus x = .ok then db.localSequence x else db.lastSequence
      ({ db with lastSequence := last }, .skip)
  | .exitLoad =>
      -- a follower passes the status of the group, which a failed insertion has set
      let passed := if x = leader then db.localStatus x else db.groupStatus leader
      let status := if passed = .ok then db.groupStatus leader else passed
      ({ db with exitStatus := Function.update db.exitStatus x status }, .skip)
  | .drain leader last =>
      (if last = leader then db
        else { db with status := Function.update db.status last (db.exitStatus x) }, .skip)
  | _ => (db, .skip)

section Effects

variable {c} {db : Db} {x g : Nat} {o : Outcome}

/-- At most places a step changes the write thread only. -/
theorem effect_silent (hpc : silent (db.thread.pc x)) : db.effect c x o = (db, .skip) := by
  cases hp : db.thread.pc x <;> simp_all [effect, silent]

/-- `PreprocessWrite` sets the status, and the leader reads the last sequence. -/
theorem effect_preprocess (hpc : db.thread.pc x = .preprocess) : db.effect c x o = ({ db with
    localStatus := Function.update db.localStatus x o.status
    localSequence := Function.update db.localSequence x db.lastSequence }, .skip) := by
  simp only [effect, hpc]

/-- A new write group has no error, and its last sequence is not set. -/
theorem effect_enter (hpc : db.thread.pc x = .enter) : db.effect c x o = ({ db with
    groupStatus := Function.update db.groupStatus x .ok
    groupSequence := Function.update db.groupSequence x o.stale }, .skip) := by
  simp only [effect, hpc]

/-- The leader applies its group. -/
theorem effect_apply (hpc : db.thread.pc x = .apply) : db.effect c x o = db.applyGroup c x o := by
  simp only [effect, hpc]

/-- The leader inserts the batches of all members. -/
theorem effect_insertGroup (hpc : db.thread.pc x = .insertGroup) : db.effect c x o = ({ db with
    status := Function.update db.status x o.status
    memtable := db.memtable ++
      o.inserts (insertions c (db.currentSequence x) (db.thread.members x)) }, .skip) := by
  simp only [effect, hpc]

/-- A member of a parallel group inserts its own batch. -/
theorem effect_insert (hpc : db.thread.pc x = .insert) : db.effect c x o =
    (if db.shouldWriteToMemtable c x then { db with
      status := Function.update db.status x o.status
      memtable := db.memtable ++
        o.inserts ((GroupCommit.numbers (writer c x) (db.sequence x)).map (Prod.mk x)) }
    else db, .skip) := by
  simp only [effect, hpc]
  split_ifs <;> rfl

/-- A member whose insertion failed passes the error to the group. -/
theorem effect_report (hpc : db.thread.pc x = .report) (hg : db.thread.writeGroup x = some g) :
    db.effect c x o = (if db.status x = .ok then db
      else { db with groupStatus := Function.update db.groupStatus g (db.status x) }, .skip) := by
  simp only [effect, hpc, hg, Option.getD_some]

/-- The last member to complete takes the status of the group over. -/
theorem effect_complete (hpc : db.thread.pc x = .complete) (hg : db.thread.writeGroup x = some g) :
    db.effect c x o = (if 1 < (db.thread.group g).running then db
      else { db with status := Function.update db.status x (db.groupStatus g) }, .skip) := by
  simp only [effect, hpc, hg, Option.getD_some]

/-- The member that exits sets the last sequence: a follower takes it from the group. -/
theorem effect_publish (hpc : db.thread.pc x = .publish) (hg : db.thread.writeGroup x = some g) :
    db.effect c x o = ({ db with
      lastSequence := if x ≠ g then db.groupSequence g
        else if db.localStatus x = .ok then db.localSequence x else db.lastSequence }, .skip) := by
  simp only [effect, hpc, hg, Option.getD_some]

/-- The status that `ExitAsBatchGroupLeader` passes on. -/
theorem effect_exitLoad (hpc : db.thread.pc x = .exitLoad) (hg : db.thread.writeGroup x = some g) :
    db.effect c x o = ({ db with
      exitStatus := Function.update db.exitStatus x
        (if (if x = g then db.localStatus x else db.groupStatus g) = .ok then db.groupStatus g
        else if x = g then db.localStatus x else db.groupStatus g) }, .skip) := by
  simp only [effect, hpc, hg, Option.getD_some]

/-- The exit passes the status to one more follower. -/
theorem effect_drain {leader last : Nat} (hpc : db.thread.pc x = .drain leader last) :
    db.effect c x o = (if last = leader then db
      else { db with status := Function.update db.status last (db.exitStatus x) }, .skip) := by
  simp only [effect, hpc]

end Effects

/-- `FinalStatus`. -/
def finalStatus (db : Db) (x : Nat) : Status :=
  if db.status x = .ok then callbackStatus c x else db.status x

/-- What `WriteImpl` returns. Only a leader looks at its local status. -/
def returns (db : Db) (x : Nat) : Status :=
  if db.thread.writeGroup x = some x ∧ db.localStatus x ≠ .ok then db.localStatus x
  else db.finalStatus c x

variable {c} in
/-- What a write returns depends on its group and its statuses only. -/
theorem returns_congr {db db' : Db} {x : Nat}
    (hwrite : db'.thread.writeGroup x = db.thread.writeGroup x)
    (hstatus : db'.status x = db.status x) (hlocal : db'.localStatus x = db.localStatus x) :
    db'.returns c x = db.returns c x := by
  rw [returns, returns, finalStatus, finalStatus, hwrite, hstatus, hlocal]

/-- The write thread is in state `t` behind a step of thread `x`. -/
def settle (db : Db) (t : State) (x : Nat) : Db where
  thread := t
  status := db.status
  sequence := db.sequence
  result := if t.pc x = .returned ∧ (c.request x).batch ≠ none then
      Function.update db.result x (some (returns c { db with thread := t } x))
    else db.result
  groupStatus := db.groupStatus
  groupSequence := db.groupSequence
  localStatus := db.localStatus
  localSequence := db.localSequence
  currentSequence := db.currentSequence
  exitStatus := db.exitStatus
  lastSequence := db.lastSequence
  memtable := db.memtable
  log := db.log

/-- The write thread behind a step. -/
@[simp] theorem settle_thread (db : Db) (t : State) (x : Nat) : (db.settle c t x).thread = t := rfl

end Db

/-- One step of one thread. -/
def step (c : Config) (db : Db) : Action → Option Db
  | .start x => do
      let t ← WriteThread.step c db.thread (.start x)
      some { db with thread := t }
  | .retry x => do
      let t ← WriteThread.step c db.thread (.retry x)
      some { db with thread := t }
  | .move x o => do
      let (db', path) := db.effect c x o
      let t ← WriteThread.step c db.thread (.move x path)
      some (db'.settle c t x)

/-- An instance whose last sequence is `start`, with an empty memtable and log. -/
def system (c : Config) (start : Nat) : System Db Action where
  init :=
    { thread := (WriteThread.system c).init
      status := fun _ => .ok
      sequence := fun _ => 0
      result := fun _ => none
      groupStatus := fun _ => .ok
      groupSequence := fun _ => 0
      localStatus := fun _ => .ok
      localSequence := fun _ => 0
      currentSequence := fun _ => 0
      exitStatus := fun _ => .ok
      lastSequence := start
      memtable := []
      log := [] }
  step := step c

end P2KVS.WriteImpl
