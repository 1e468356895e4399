import P2KVS.Foundation.Channel
import P2KVS.Foundation.History
import P2KVS.Store.Instance

/-!
# The worker of `write_test.cpp`

`worker_thread` of `write_test.cpp` as a state machine. The worker takes a snapshot `t` of its tail,
moves at most `BATCH_SIZE` requests in front of `t` into a fresh batch, and writes the batch. The
end marker leaves the inner loop early; the batch in front of it is still written. `Inv` accounts
for the requests: each one in front of `seq` is in a call or in the batch, once and in queue order.
-/

namespace P2KVS.WriteTest

open Channel Transition

/-- `async_requests`: one slot of a queue. Both fields are `int`. -/
structure AsyncRequest where
  seq : Int
  key : Int
  deriving DecidableEq, Repr

/-- The default constructor of `async_requests`, which initialises every slot. -/
def AsyncRequest.blank : AsyncRequest :=
  ⟨-1, -1⟩

/-- `BATCH_SIZE`. -/
def batchSizeLimit : Nat := 32

/-- `key_size_`. -/
def keySize : Nat := 28

/-- The value that every worker writes. -/
def value : Slice :=
  List.replicate 100 charZero

/-- The record of a request: its `int` key is converted to `uint64_t` and encoded. -/
def record (r : AsyncRequest) : Slice × Slice :=
  (generateKeyFromInt keySize (UInt64.ofInt r.key), value)

/-- What the environment decides in one step: the tail value a poll observes and the status of a
`db->Write`. -/
structure Choice where
  tail : Nat
  writeStatus : Status
  deriving DecidableEq, Repr

/-- The program points of `worker_thread`: the head of the outer loop, the test of the inner loop,
the write behind it, and the exit. -/
inductive Pc where
  | loopHead
  | inner
  | write
  | exited
  deriving DecidableEq, Repr

/-- A worker. `batchReqs` and `calls` are history variables: the queue positions of the requests in
`batch` and the calls made so far. -/
structure Worker where
  pc : Pc
  seq : Nat
  t : Nat
  endflag : Bool
  batch : WriteBatch
  batchSize : Nat
  batchReqs : List Nat
  calls : List Call
  deriving DecidableEq, Repr

namespace Worker

/-- A worker that has not started. -/
def start : Worker :=
  ⟨.loopHead, 0, 0, false, [], 0, [], []⟩

/-- `t = tail[queue_seq]` observes `t`; the inner loop starts on a fresh batch if there is a new
request. -/
def poll (tail t : Nat) (w : Worker) : Option Worker :=
  if w.t ≤ t ∧ t ≤ tail then
    some (if t ≤ w.seq then { w with t := t }
      else { w with t := t, pc := .inner, batch := [], batchReqs := [], batchSize := 0 })
  else none

/-- One iteration of the inner loop, for the request `r` in slot `seq`. -/
def take (r : AsyncRequest) (w : Worker) : Worker :=
  if r.seq = -1 then { w with endflag := true, pc := .write }
  else { w with
    batch := w.batch ++ [record r]
    batchReqs := w.batchReqs ++ [w.seq]
    seq := w.seq + 1
    batchSize := w.batchSize + 1 }

/-- `if (batch_size) db->Write(writeoptions, &batch)`, behind which the batch goes out of scope. -/
def flush (c : Choice) (w : Worker) : Worker :=
  { w with
    pc := if w.endflag then .exited else .loopHead
    calls := if w.batchSize ≠ 0 then w.calls ++ [.write w.batchReqs w.batch c.writeStatus]
      else w.calls
    batch := []
    batchReqs := [] }

/-- One step of the worker over its row of slots and its tail. -/
def step (slots : Nat → AsyncRequest) (tail : Nat) (c : Choice) (w : Worker) : Option Worker :=
  match w.pc with
  | .loopHead => w.poll tail c.tail
  | .inner =>
      if w.seq < w.t ∧ w.batchSize < batchSizeLimit then some (w.take (slots w.seq))
      else some { w with pc := .write }
  | .write => some (w.flush c)
  | .exited => none

/-- The worker reads only slots in front of the tail it has observed. -/
def Synced (tail : Nat) (w : Worker) : Prop :=
  w.t ≤ tail

/-- What one step can do. -/
theorem step_cases {slots : Nat → AsyncRequest} {tail : Nat} {c : Choice} {w w' : Worker}
    (h : step slots tail c w = some w') :
    (w.pc = .loopHead ∧ w.t ≤ c.tail ∧ c.tail ≤ tail ∧
      (w' = { w with t := c.tail } ∨
        w' = { w with t := c.tail, pc := .inner, batch := [], batchReqs := [], batchSize := 0 })) ∨
    (w.pc = .inner ∧ w.seq < w.t ∧ w.batchSize < batchSizeLimit ∧
      w' = w.take (slots w.seq)) ∨
    (w.pc = .inner ∧ w' = { w with pc := .write }) ∨
    (w.pc = .write ∧ w' = w.flush c) := by
  unfold step at h
  cases hpc : w.pc with
  | loopHead =>
      rw [hpc] at h
      obtain ⟨hseen, htail, rfl⟩ := observe_eq_some.mp h
      refine .inl ⟨rfl, hseen, htail, ?_⟩
      split_ifs
      · exact .inl (by rw [hpc])
      · exact .inr rfl
  | inner =>
      simp only [hpc] at h
      split_ifs at h with htest
      · cases h
        exact .inr (.inl ⟨rfl, htest.1, htest.2, rfl⟩)
      · cases h
        exact .inr (.inr (.inl ⟨rfl, rfl⟩))
  | write =>
      simp only [hpc, Option.some.injEq] at h
      exact .inr (.inr (.inr ⟨rfl, h.symm⟩))
  | exited =>
      simp only [hpc] at h
      cases h

/-- Taking a request does not touch the observed tail. -/
theorem take_t (r : AsyncRequest) (w : Worker) : (w.take r).t = w.t := by
  unfold take
  split_ifs <;> rfl

/-- The worker as a consumer of its queue. -/
def consumer : Consumer AsyncRequest Worker Choice where
  step := step
  Synced := Synced
  synced_mono := fun hle h => Nat.le_trans h hle
  synced_step := by
    intro slots tail c w w' hsync h
    obtain ⟨_, _, htail, rfl | rfl⟩ | ⟨_, _, _, rfl⟩ | ⟨_, rfl⟩ | ⟨_, rfl⟩ := step_cases h
    · exact htail
    · exact htail
    · rw [Synced, take_t]
      exact hsync
    · exact hsync
    · exact hsync
  step_later := by
    intro slots slots' tail later c w w' hsync hslots hle h
    unfold step at h ⊢
    split at h
    case h_1 => exact observe_later hle h
    case h_2 =>
      split_ifs at h ⊢ with htest
      · -- the slot lies in front of the observed tail
        rw [← hslots w.seq (Nat.lt_of_lt_of_le htest.1 hsync)]
        exact h
      · exact h
    all_goals exact h

/-- The account of the requests a worker has taken from its queue, when every `db->Write`
succeeds. -/
structure Inv (slots : Nat → AsyncRequest) (w : Worker) : Prop where
  taken : w.calls.flatMap Call.writeReqs ++ w.batchReqs = List.range w.seq
  batch : w.batch = w.batchReqs.map fun i => record (slots i)
  records : ∀ call ∈ w.calls, call.records = call.writeReqs.map fun i => record (slots i)
  applied : ∀ call ∈ w.calls, call.appliedReqs = call.writeReqs
  real : ∀ i < w.seq, (slots i).seq ≠ -1
  point : match w.pc with
    | .loopHead => w.batchReqs = [] ∧ w.endflag = false
    | .inner => w.batchSize = w.batchReqs.length ∧ w.endflag = false
    | .write => w.batchSize = w.batchReqs.length ∧ (w.endflag = true → (slots w.seq).seq = -1)
    | .exited => w.batchReqs = [] ∧ (slots w.seq).seq = -1

section Steps

variable {slots : Nat → AsyncRequest} {w : Worker}

/-- A worker that has not started has taken nothing. -/
theorem inv_start (slots : Nat → AsyncRequest) : Inv slots start := by
  constructor <;> simp [start]

/-- A poll that finds a new request starts a fresh batch. -/
theorem Inv.fresh (h : Inv slots w) (hpc : w.pc = .loopHead) (t : Nat) :
    Inv slots { w with t := t, pc := .inner, batch := [], batchReqs := [], batchSize := 0 } := by
  have hpoint := h.point
  rw [hpc] at hpoint
  have htaken := h.taken
  rw [hpoint.1] at htaken
  exact ⟨htaken, rfl, h.records, h.applied, h.real, rfl, hpoint.2⟩

/-- The inner loop moves a request into the batch, or stops at the end marker. -/
theorem Inv.take (h : Inv slots w) (hpc : w.pc = .inner) : Inv slots (w.take (slots w.seq)) := by
  have hpoint := h.point
  rw [hpc] at hpoint
  unfold Worker.take
  split_ifs with hseq
  · exact ⟨h.taken, h.batch, h.records, h.applied, h.real, hpoint.1, fun _ => hseq⟩
  · refine ⟨?_, ?_, h.records, h.applied, ?_, ?_⟩
    · rw [← List.append_assoc, h.taken, List.range_succ]
    · rw [h.batch, List.map_append, List.map_singleton]
    · intro i hi
      rcases Nat.lt_succ_iff_lt_or_eq.mp hi with hlt | rfl
      · exact h.real i hlt
      · exact hseq
    · simp [hpc, hpoint]

/-- Behind the inner loop the batch is written and forgotten. -/
theorem Inv.flush (h : Inv slots w) (hpc : w.pc = .write) {c : Choice} (hok : c.writeStatus = .ok) :
    Inv slots (w.flush c) := by
  have hpoint := h.point
  rw [hpc] at hpoint
  have hcall : ∀ {P : Call → Prop}, (∀ call ∈ w.calls, P call) →
      P (.write w.batchReqs w.batch c.writeStatus) → ∀ call ∈ (w.flush c).calls, P call := by
    intro P hold hnew call hmem
    simp only [Worker.flush] at hmem
    split_ifs at hmem
    · rcases List.mem_append.mp hmem with hmem | hmem
      · exact hold call hmem
      · exact List.mem_singleton.mp hmem ▸ hnew
    · exact hold call hmem
  refine ⟨?_, rfl, hcall h.records h.batch, hcall h.applied (by rw [hok]; rfl), h.real, ?_⟩
  · simp only [Worker.flush]
    split_ifs with hsize
    · simpa [Call.writeReqs] using h.taken
    · rw [hpoint.1, ne_eq, not_not] at hsize
      rw [← h.taken, List.length_eq_zero_iff.mp hsize]
  · simp only [Worker.flush]
    cases hend : w.endflag with
    | true => exact ⟨trivial, hpoint.2 hend⟩
    | false => exact ⟨trivial, rfl⟩

/-- Every step keeps the account. -/
theorem Inv.step (h : Inv slots w) {tail : Nat} {c : Choice} {w' : Worker}
    (hok : c.writeStatus = .ok) (hstep : Worker.step slots tail c w = some w') : Inv slots w' := by
  obtain ⟨hpc, _, _, rfl | rfl⟩ | ⟨hpc, _, _, rfl⟩ | ⟨hpc, rfl⟩ | ⟨hpc, rfl⟩ := step_cases hstep
  · exact ⟨h.taken, h.batch, h.records, h.applied, h.real, h.point⟩
  · exact h.fresh hpc c.tail
  · exact h.take hpc
  · have hpoint := h.point
    rw [hpc] at hpoint
    exact ⟨h.taken, h.batch, h.records, h.applied, h.real, hpoint.1, by simp [hpoint.2]⟩
  · exact h.flush hpc hok

/-- At the exit the instance holds the keys of the requests in front of the end marker. -/
theorem Inv.mem_keys_exited (h : Inv slots w) (hexit : w.pc = .exited) (init : Instance)
    (k : Slice) :
    k ∈ (contents init w.calls).keys ↔
      (∃ i < w.seq, (record (slots i)).1 = k) ∨ k ∈ init.keys := by
  have hpoint := h.point
  rw [hexit] at hpoint
  have happlied : w.calls.flatMap Call.appliedReqs = List.range w.seq := by
    rw [← h.taken, hpoint.1, List.append_nil]
    exact List.flatMap_congr fun call hcall => h.applied call hcall
  rw [mem_keys_of_applied h.records, happlied]
  simp only [List.mem_range]

end Steps

end Worker

end P2KVS.WriteTest
