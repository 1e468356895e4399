import P2KVS.ReadTest.Worker

/-!
# The worker of `read_test_leveldb.cpp`

`worker_thread` of `read_test_leveldb.cpp` as a state machine. It collects references to its key
buffer in the inner loop of `write_test.cpp` and then looks all of them up with `db->Get`, in
parallel. The lookups change nothing, so one batch of them is recorded as one call. `num++` is not
synchronised between the parallel iterations, so the environment may lose increments.
-/

namespace P2KVS.ReadTestLevelDB

open Channel Transition
open Ycsb (KeySlice)

/-- `async_requests`: one slot of a queue. Both fields are `int`. -/
structure AsyncRequest where
  seq : Int
  key : Int
  deriving DecidableEq, Repr

/-- The default constructor of `async_requests`, which initialises every slot. -/
def AsyncRequest.blank : AsyncRequest :=
  ⟨-1, -1⟩

/-- `BATCH_SIZE`. -/
def batchSizeLimit : Nat := 32

/-- `key_size_`. -/
def keySize : Nat := 28

/-- The bytes that `GenerateKeyFromInt` produces for a request, whose `int` key is converted to
`uint64_t`. -/
def AsyncRequest.bytes (r : AsyncRequest) : Slice :=
  generateKeyFromInt keySize (UInt64.ofInt r.key)

/-- What the environment decides in one step: the tail value a poll observes, which lookups of a
batch fail, and how many increments of `num` are lost. -/
structure Choice where
  tail : Nat
  lookupFails : Nat → Bool
  lost : Nat

/-- A step that observes the tail `t`, with no failing lookup and no lost increment. -/
def Choice.sees (t : Nat) : Choice :=
  ⟨t, fun _ => false, 0⟩

/-- The program points of `worker_thread`: the head of the outer loop, the test of the inner loop,
the lookups behind it, and the exit. -/
inductive Pc where
  | loopHead
  | inner
  | lookups
  | exited
  deriving DecidableEq, Repr

/-- A worker. `reads` and `calls` are history variables: the queue positions of the requests in
`keys` and the batches looked up so far. -/
structure Worker where
  pc : Pc
  seq : Nat
  t : Nat
  endflag : Bool
  key : Slice
  keys : List KeySlice
  batchSize : Nat
  num : Nat
  reads : List Nat
  calls : List Call

namespace Worker

/-- A worker that has not started. -/
def start : Worker :=
  ⟨.loopHead, 0, 0, false, List.replicate keySize 0, [], 0, 0, [], []⟩

/-- `t = tail[queue_seq]` observes `t`. The yield of an empty queue is not followed by a `continue`,
so the inner loop starts in any case. -/
def poll (tail t : Nat) (w : Worker) : Option Worker :=
  if w.t ≤ t ∧ t ≤ tail then some { w with t := t, pc := .inner, batchSize := 0 } else none

/-- One iteration of the inner loop, for the request `r` in slot `seq`. -/
def take (r : AsyncRequest) (w : Worker) : Worker :=
  if r.seq = -1 then { w with endflag := true, pc := .lookups }
  else { w with
    key := r.bytes
    keys := w.keys ++ [⟨keySize⟩]
    reads := w.reads ++ [w.seq]
    seq := w.seq + 1
    batchSize := w.batchSize + 1 }

/-- The loop of `db->Get(ReadOptions(), keys[i], &getvalue)` and `keys.clear()`. -/
def getAll (db : Instance) (c : Choice) (w : Worker) : Worker :=
  let keys := (w.keys.take w.batchSize).map (KeySlice.resolve w.key)
  let ss := multiGetStatuses db c.lookupFails keys
  { w with
    calls := w.calls ++ [.multiGet (w.reads.take w.batchSize) keys ss]
    num := w.num + (ss.count .ok - c.lost)
    keys := []
    reads := [] }

/-- What follows the inner loop. -/
def lookups (db : Instance) (c : Choice) (w : Worker) : Worker :=
  let w := if w.batchSize ≠ 0 then w.getAll db c else w
  { w with pc := if w.endflag then .exited else .loopHead }

/-- One step of the worker over its instance, its row of slots and its tail. -/
def step (db : Instance) (slots : Nat → AsyncRequest) (tail : Nat) (c : Choice) (w : Worker) :
    Option Worker :=
  match w.pc with
  | .loopHead => w.poll tail c.tail
  | .inner =>
      if w.seq < w.t ∧ w.batchSize < batchSizeLimit then some (w.take (slots w.seq))
      else some { w with pc := .lookups }
  | .lookups => some (w.lookups db c)
  | .exited => none

/-- The worker reads only slots in front of the tail it has observed. -/
def Synced (tail : Nat) (w : Worker) : Prop :=
  w.t ≤ tail

/-- What one step can do. -/
theorem step_cases {db : Instance} {slots : Nat → AsyncRequest} {tail : Nat} {c : Choice}
    {w w' : Worker} (h : step db slots tail c w = some w') :
    (w.pc = .loopHead ∧ w.t ≤ c.tail ∧ c.tail ≤ tail ∧
      w' = { w with t := c.tail, pc := .inner, batchSize := 0 }) ∨
    (w.pc = .inner ∧ (w.seq < w.t ∧ w.batchSize < batchSizeLimit) ∧
      w' = w.take (slots w.seq)) ∨
    (w.pc = .inner ∧ w' = { w with pc := .lookups }) ∨
    (w.pc = .lookups ∧ w' = w.lookups db c) := by
  unfold step at h
  cases hpc : w.pc with
  | loopHead =>
      rw [hpc] at h
      exact .inl ⟨rfl, observe_eq_some.mp h⟩
  | inner =>
      simp only [hpc] at h
      split_ifs at h with htest
      · cases h
        exact .inr (.inl ⟨rfl, htest, rfl⟩)
      · cases h
        exact .inr (.inr (.inl ⟨rfl, rfl⟩))
  | lookups =>
      simp only [hpc, Option.some.injEq] at h
      exact .inr (.inr (.inr ⟨rfl, h.symm⟩))
  | exited =>
      simp only [hpc] at h
      cases h

/-- The worker as a consumer of its queue. -/
def consumer (db : Instance) : Consumer AsyncRequest Worker Choice where
  step := step db
  Synced := Synced
  synced_mono := fun hle h => Nat.le_trans h hle
  synced_step := by
    intro slots tail c w w' hsync h
    obtain ⟨_, _, htail, rfl⟩ | ⟨_, _, rfl⟩ | ⟨_, rfl⟩ | ⟨_, rfl⟩ := step_cases h
    · exact htail
    · unfold take
      split_ifs <;> exact hsync
    · exact hsync
    · unfold lookups
      split_ifs <;> exact hsync
  step_later := by
    intro slots slots' tail later c w w' hsync hslots hle h
    unfold step at h ⊢
    split at h
    case h_1 => exact observe_later hle h
    case h_2 =>
      split_ifs at h ⊢ with htest
      · -- the slot lies in front of the observed tail
        rw [← hslots w.seq (Nat.lt_of_lt_of_le htest.1 hsync)]
        exact h
      · exact h
    all_goals exact h

/-- A worker alone on a queue whose slots and tail do not change any more. -/
def alone (db : Instance) (slots : Nat → AsyncRequest) (tail : Nat) : System Worker Choice where
  init := start
  step := fun w c => (consumer db).step slots tail c w

/-- The account of the requests a worker has taken from its queue, and what its buffer holds. -/
structure Inv (slots : Nat → AsyncRequest) (w : Worker) : Prop where
  taken : w.calls.flatMap Call.readReqs ++ w.reads = List.range w.seq
  keys : w.keys = List.replicate w.reads.length ⟨keySize⟩
  buffer : 0 < w.seq → w.key = (slots (w.seq - 1)).bytes
  size : w.pc = .inner ∨ w.pc = .lookups → w.batchSize = w.reads.length
  flushed : w.pc = .loopHead → w.reads = []

section Steps

variable {db : Instance} {slots : Nat → AsyncRequest} {w : Worker}

/-- A worker that has not started has taken nothing. -/
theorem inv_start (slots : Nat → AsyncRequest) : Inv slots start := by
  constructor <;> simp [start]

/-- The inner loop queues a reference to the key it has just generated, or stops at the end
marker. -/
theorem Inv.take (h : Inv slots w) (hpc : w.pc = .inner) : Inv slots (w.take (slots w.seq)) := by
  have hsize := h.size (.inl hpc)
  unfold Worker.take
  split_ifs with hseq
  · exact ⟨h.taken, h.keys, h.buffer, fun _ => hsize, by simp⟩
  · refine ⟨?_, ?_, fun _ => rfl, ?_, by simp [hpc]⟩
    · rw [← List.append_assoc, h.taken, List.range_succ]
    · show w.keys ++ [⟨keySize⟩] = List.replicate (w.reads ++ [w.seq]).length ⟨keySize⟩
      rw [h.keys, List.length_append, List.length_singleton, List.replicate_succ']
    · intro _
      show w.batchSize + 1 = (w.reads ++ [w.seq]).length
      rw [hsize, List.length_append, List.length_singleton]

/-- Behind the inner loop every queued key is looked up. -/
theorem Inv.lookups (h : Inv slots w) (hpc : w.pc = .lookups) (c : Choice) :
    Inv slots (w.lookups db c) := by
  have hsize := h.size (.inr hpc)
  have hpoint : ∀ {b : Bool}, (if b then Pc.exited else Pc.loopHead) ≠ .inner ∧
      (if b then Pc.exited else Pc.loopHead) ≠ .lookups := by
    intro b
    cases b <;> simp
  unfold Worker.lookups
  split_ifs with hempty
  · refine ⟨?_, rfl, h.buffer, fun hloop => ?_, fun _ => rfl⟩
    · simpa [getAll, Call.readReqs, hsize] using h.taken
    · exact absurd hloop (not_or.mpr hpoint)
  · have hnone : w.reads = [] := by
      rw [hsize, ne_eq, not_not] at hempty
      exact List.length_eq_zero_iff.mp hempty
    exact ⟨h.taken, h.keys, h.buffer, fun hloop => absurd hloop (not_or.mpr hpoint),
      fun _ => hnone⟩

/-- Every step keeps the account. -/
theorem Inv.step (h : Inv slots w) {tail : Nat} {c : Choice} {w' : Worker}
    (hstep : Worker.step db slots tail c w = some w') : Inv slots w' := by
  obtain ⟨hpc, _, _, rfl⟩ | ⟨hpc, _, rfl⟩ | ⟨hpc, rfl⟩ | ⟨hpc, rfl⟩ := step_cases hstep
  · have hnone := h.flushed hpc
    exact ⟨h.taken, h.keys, h.buffer, fun _ => by simp [hnone], by simp⟩
  · exact h.take hpc
  · exact ⟨h.taken, h.keys, h.buffer, fun _ => h.size (.inl hpc), by simp⟩
  · exact h.lookups hpc c

/-- The account holds in every state that the worker reaches. -/
theorem inv_reachable {tail : Nat} {allowed : Worker → Choice → Prop}
    (h : (alone db slots tail).Reachable allowed w) : Inv slots w :=
  h.invariant (I := Inv slots) (inv_start slots) fun _ hold _ hstep => hold.step hstep

end Steps

end Worker

end P2KVS.ReadTestLevelDB
