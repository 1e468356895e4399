import P2KVS.Foundation.Channel
import P2KVS.Store.Instance

/-!
# The worker of `ycsb.cpp`

`worker_thread` of `ycsb.cpp` (with `MULTIGET`) as a state machine. Each program point performs at
most one access to the state shared with the dispatcher: a poll of the tail, a read of a slot, or a
store to `busy`. A poll may observe any tail value between the last one the worker saw and the
current one. The environment also decides which calls on the instance fail.

Overflow of an `int` counter is undefined behaviour in the source, so `seq` and `found` are natural
numbers.
-/

namespace P2KVS.Ycsb

open Channel Sorted

/-- `async_requests`: one slot of a queue. -/
structure AsyncRequest where
  key : UInt64
  seq : Int
  scanSize : Int
  write : Bool
  deriving DecidableEq, Repr

/-- The default constructor of `async_requests`, which initialises every slot. -/
def AsyncRequest.blank : AsyncRequest :=
  ⟨0, 0, -1, false⟩

/-- What a worker is started with: `BATCH_SIZE`, `WRITE_BATCH_SIZE`, `key_size_` and the value it
writes from the compile-time configuration, and the contents of the instance it owns. -/
structure Params where
  batchSize : Nat
  writeBatchSize : Nat
  keySize : Nat
  value : Slice
  opened : Instance

/-- A `rocksdb::Slice(key, size)`: a reference to the worker's key buffer. -/
structure KeySlice where
  size : Nat
  deriving DecidableEq, Repr

/-- The bytes the slice denotes while the buffer holds `buffer`. -/
def KeySlice.resolve (buffer : Slice) (s : KeySlice) : Slice :=
  buffer.take s.size

/-- What the environment decides in one step: the tail value a poll observes, the status of a
`db->Write`, and which lookups of a `db->MultiGet` fail. -/
structure Choice where
  tail : Nat
  writeStatus : Status
  lookupFails : Nat → Bool

/-- The local variables of `worker_thread`. `batchReqs`, `reads` and `calls` are history variables:
the queue positions of the requests in `batch` and in `mutligetKeys`, and the calls made so far. -/
structure Locals where
  seq : Nat
  key : Slice
  batch : WriteBatch
  batchSize : Nat
  mutligetKeys : List KeySlice
  found : Nat
  printed : List Status
  calls : List Call
  batchReqs : List Nat
  reads : List Nat

namespace Locals

/-- The variables as `worker_thread` enters its loop. -/
def start (p : Params) : Locals where
  seq := 0
  key := List.replicate p.keySize 0
  batch := []
  batchSize := 0
  mutligetKeys := []
  found := 0
  printed := []
  calls := []
  batchReqs := []
  reads := []

/-- The contents of the worker's instance. -/
def db (p : Params) (v : Locals) : Instance :=
  contents p.opened v.calls

/-- `s = db->Write(writeoptions, &batch)` and the handling of its status. Only two of the four flush
sites print a failure. -/
def dbWrite (c : Choice) (report : Bool) (v : Locals) : Locals :=
  { v with
    calls := v.calls ++ [.write v.batchReqs v.batch c.writeStatus]
    found := if c.writeStatus = .ok then v.found + v.batchSize else v.found
    printed := if c.writeStatus ≠ .ok ∧ report then v.printed ++ [c.writeStatus] else v.printed }

/-- `batch.Clear(); batch_size = 0;` -/
def clearBatch (v : Locals) : Locals :=
  { v with batch := [], batchReqs := [], batchSize := 0 }

/-- `if (batch_size) { ... }` with the batch reset behind the call. -/
def flushWrites (c : Choice) (report : Bool) (v : Locals) : Locals :=
  if v.batchSize ≠ 0 then (v.dbWrite c report).clearBatch else v

/-- `ss = db->MultiGet(readoptions, mutliget_keys, &values)` and the count of its statuses. Only the
flush of a full batch prints failures. -/
def dbMultiGet (p : Params) (c : Choice) (report : Bool) (v : Locals) : Locals :=
  let keys := v.mutligetKeys.map (KeySlice.resolve v.key)
  let ss := multiGetStatuses (v.db p) c.lookupFails keys
  { v with
    calls := v.calls ++ [.multiGet v.reads keys ss]
    found := v.found + ss.count .ok
    printed := if report then v.printed ++ ss.filter (· ≠ .ok) else v.printed }

/-- `mutliget_keys.clear()`. -/
def clearReads (v : Locals) : Locals :=
  { v with mutligetKeys := [], reads := [] }

/-- `if (mutliget_keys.size()) { ... }` with the keys cleared behind the call. -/
def flushReads (p : Params) (c : Choice) (report : Bool) (v : Locals) : Locals :=
  if v.mutligetKeys.length ≠ 0 then (v.dbMultiGet p c report).clearReads else v

/-- The branch of the end marker. It executes both pending batches and leaves without resetting
them. -/
def handleEnd (p : Params) (c : Choice) (v : Locals) : Locals :=
  let v := if v.batchSize ≠ 0 then v.dbWrite c false else v
  if v.mutligetKeys.length ≠ 0 then v.dbMultiGet p c false else v

/-- `GenerateKeyFromInt(request.key, key)`. -/
def generateKey (p : Params) (r : AsyncRequest) (v : Locals) : Locals :=
  { v with key := generateKeyFromInt p.keySize r.key }

/-- `batch.Put(k, value); batch_size++;` for the request at position `pos`. -/
def put (p : Params) (pos : Nat) (v : Locals) : Locals :=
  { v with
    batch := v.batch ++ [((KeySlice.mk p.keySize).resolve v.key, p.value)]
    batchReqs := v.batchReqs ++ [pos]
    batchSize := v.batchSize + 1 }

/-- The branch of a write request. -/
def handleWrite (p : Params) (c : Choice) (pos : Nat) (r : AsyncRequest) (v : Locals) : Locals :=
  let v := (v.generateKey p r).put p pos
  if p.writeBatchSize ≤ v.batchSize then (v.dbWrite c true).clearBatch else v

/-- `mutliget_keys.push_back(rocksdb::Slice(key, key_size_))` for the request at position `pos`. -/
def pushKey (p : Params) (pos : Nat) (v : Locals) : Locals :=
  { v with
    mutligetKeys := v.mutligetKeys ++ [⟨p.keySize⟩]
    reads := v.reads ++ [pos] }

/-- The point query: the key is queued, and a full batch is looked up. -/
def pointQuery (p : Params) (c : Choice) (pos : Nat) (v : Locals) : Locals :=
  let v := v.pushKey p pos
  if v.mutligetKeys.length = p.batchSize then (v.dbMultiGet p c true).clearReads else v

/-- The loop `for (int i = 1; i < request.scan_size && iter->Valid(); i++)`, with `rest` iterations
left; it returns `found`. -/
def scanLoop : Nat → Cursor Slice Slice → Nat → Nat
  | 0, _, found => found
  | rest + 1, iter, found =>
      if Iterator.valid iter then scanLoop rest (Iterator.next iter) (found + 1) else found

/-- The range scan on a new iterator. -/
def scan (p : Params) (pos : Nat) (r : AsyncRequest) (v : Locals) : Locals :=
  let k := (KeySlice.mk p.keySize).resolve v.key
  let iter := Iterator.seek (Cursor.start (v.db p)) k
  { v with
    calls := v.calls ++ [.newIterator pos k r.scanSize]
    found := scanLoop (r.scanSize - 1).toNat iter (v.found + 1) }

/-- The branch of a read request: pending writes are flushed first. -/
def handleRead (p : Params) (c : Choice) (pos : Nat) (r : AsyncRequest) (v : Locals) : Locals :=
  let v := (v.generateKey p r).flushWrites c true
  if r.scanSize = -1 then v.pointQuery p c pos else v.scan p pos r

/-- What follows the read of a slot, up to the next loop test. -/
def handle (p : Params) (c : Choice) (r : AsyncRequest) (v : Locals) : Locals :=
  if r.seq = -1 then v.handleEnd p c
  else
    let pos := v.seq
    let v := { v with seq := v.seq + 1 }
    if r.write then v.handleWrite p c pos r else v.handleRead p c pos r

end Locals

/-- The program points of `worker_thread`. -/
inductive Pc where
  | loopHead
  | idleWrite
  | idleRead
  | idle
  | wait
  | wake
  | fetch
  | handle (request : AsyncRequest)
  | exited
  deriving DecidableEq, Repr

/-- The program points whose step leaves the local variables alone. -/
def Pc.quiet : Pc → Bool
  | .loopHead | .idle | .wait | .wake | .fetch => true
  | .idleWrite | .idleRead | .handle _ | .exited => false

/-- A worker: its program point, the last tail value it observed, its `busy` flag and its local
variables. -/
structure Worker where
  pc : Pc
  seen : Nat
  busy : Bool
  vars : Locals

namespace Worker

/-- A worker that has not started. -/
def start (p : Params) : Worker where
  pc := .loopHead
  seen := 0
  busy := false
  vars := .start p

/-- A poll `seq >= tail[queue_seq]` that observes `t`: it leads to `behind` if there is no new
request and to `ahead` otherwise. -/
def poll (tail t : Nat) (behind ahead : Pc) (w : Worker) : Option Worker :=
  if w.seen ≤ t ∧ t ≤ tail then
    some { w with seen := t, pc := if t ≤ w.vars.seq then behind else ahead }
  else none

/-- One step of the worker over its row of slots and its tail. -/
def step (p : Params) (slots : Nat → AsyncRequest) (tail : Nat) (c : Choice) (w : Worker) :
    Option Worker :=
  match w.pc with
  | .loopHead => w.poll tail c.tail .idleWrite .fetch
  | .idleWrite => some { w with pc := .idleRead, vars := w.vars.flushWrites c false }
  | .idleRead => some { w with pc := .idle, vars := w.vars.flushReads p c false }
  | .idle => some { w with pc := .wait, busy := false }
  | .wait => w.poll tail c.tail .wait .wake
  | .wake => some { w with pc := .fetch, busy := true }
  | .fetch => some { w with pc := .handle (slots w.vars.seq) }
  | .handle r =>
      some { w with
        pc := if r.seq = -1 then .exited else .loopHead
        vars := w.vars.handle p c r }
  | .exited => none

/-- The worker relies on a tail value only if it has observed it, and it observed the slot it is
about to read. -/
def Synced (tail : Nat) (w : Worker) : Prop :=
  w.seen ≤ tail ∧ (w.pc = .wake ∨ w.pc = .fetch → w.vars.seq < w.seen)

/-- What a poll can do. -/
theorem poll_eq_some {tail t : Nat} {behind ahead : Pc} {w w' : Worker} :
    w.poll tail t behind ahead = some w' ↔ w.seen ≤ t ∧ t ≤ tail ∧
      w' = { w with seen := t, pc := if t ≤ w.vars.seq then behind else ahead } :=
  observe_eq_some

/-- What one step can do: poll, move on without touching the local variables, flush while idle, or
handle the request that was fetched. -/
theorem step_cases {p : Params} {slots : Nat → AsyncRequest} {tail : Nat} {c : Choice}
    {w w' : Worker} (h : step p slots tail c w = some w') :
    (w.pc.quiet = true ∧ w'.vars = w.vars ∧ w'.pc ≠ .exited ∧ w'.pc ≠ .idleRead ∧
      ∀ r, w'.pc = .handle r → r = slots w.vars.seq) ∨
    (w.pc = .idleWrite ∧ w' = { w with pc := .idleRead, vars := w.vars.flushWrites c false }) ∨
    (w.pc = .idleRead ∧ w' = { w with pc := .idle, vars := w.vars.flushReads p c false }) ∨
    (∃ r, w.pc = .handle r ∧ w' = { w with
      pc := if r.seq = -1 then .exited else .loopHead
      vars := w.vars.handle p c r }) := by
  unfold step at h
  cases hpc : w.pc with
  | loopHead =>
      rw [hpc] at h
      obtain ⟨_, _, rfl⟩ := poll_eq_some.mp h
      refine .inl ⟨rfl, rfl, ?_⟩
      dsimp only
      split <;> simp
  | wait =>
      rw [hpc] at h
      obtain ⟨_, _, rfl⟩ := poll_eq_some.mp h
      refine .inl ⟨rfl, rfl, ?_⟩
      dsimp only
      split <;> simp
  | idleWrite =>
      rw [hpc] at h
      cases h
      exact .inr (.inl ⟨rfl, rfl⟩)
  | idleRead =>
      rw [hpc] at h
      cases h
      exact .inr (.inr (.inl ⟨rfl, rfl⟩))
  | idle | wake =>
      rw [hpc] at h
      cases h
      exact .inl (by simp [Pc.quiet])
  | fetch =>
      rw [hpc] at h
      cases h
      refine .inl ⟨rfl, rfl, by simp, by simp, ?_⟩
      intro r hr
      cases hr
      rfl
  | handle r =>
      rw [hpc] at h
      cases h
      exact .inr (.inr (.inr ⟨r, rfl, rfl⟩))
  | exited =>
      rw [hpc] at h
      cases h

/-- The worker as a consumer of its queue. -/
def consumer (p : Params) : Consumer AsyncRequest Worker Choice where
  step := step p
  Synced := Synced
  synced_mono := fun hle h => ⟨h.1.trans hle, h.2⟩
  synced_step := by
    intro slots tail c w w' hsync h
    unfold step at h
    split at h
    -- the two polls
    case h_1 | h_5 =>
      obtain ⟨_, hle, rfl⟩ := poll_eq_some.mp h
      refine ⟨hle, ?_⟩
      dsimp only
      split
      · simp
      · intro _
        omega
    case h_6 hpc =>
      cases h
      exact ⟨hsync.1, fun _ => hsync.2 (.inl hpc)⟩
    case h_8 =>
      cases h
      refine ⟨hsync.1, ?_⟩
      dsimp only
      split <;> simp
    case h_9 => cases h
    all_goals
      cases h
      exact ⟨hsync.1, by simp⟩
  step_later := by
    intro slots slots' tail later c w w' hsync hslots hle h
    unfold step at h ⊢
    split at h
    case h_1 | h_5 => exact observe_later hle h
    case h_7 hpc =>
      -- the slot was published before the worker observed its tail, so it has not changed since
      have hread : w.vars.seq < tail := (hsync.2 (.inr hpc)).trans_le hsync.1
      rw [← hslots _ hread]
      exact h
    all_goals exact h

end Worker

end P2KVS.Ycsb
