import P2KVS.Foundation.History
import P2KVS.Ycsb.Worker

/-!
# The worker of `read_test.cpp`

`worker_thread` of `read_test.cpp` as a state machine. The worker queues a reference to its key
buffer for each request and looks a batch up when it holds `BATCH_SIZE` keys. That is the only place
where it looks anything up: the end marker leaves the loop with whatever is pending.

`Inv` accounts for the requests and for the buffer: every request in front of `seq` is in a call or
pending, every call carries `BATCH_SIZE` requests, and the buffer holds the key of the request taken
last.
-/

namespace P2KVS

/-- The keys that a call passes to `db->MultiGet`. -/
def Call.lookedUp : Call → List Slice
  | .multiGet _ keys _ => keys
  | _ => []

namespace ReadTest

open Channel Transition
open Ycsb (KeySlice)

/-- `async_requests::REQUEST_TYPE`. -/
inductive RequestType where
  | write
  | read
  | scan
  deriving DecidableEq, Repr

/-- `async_requests`: one slot of a queue. -/
structure AsyncRequest where
  seq : Int
  key : Int
  type : RequestType
  deriving DecidableEq, Repr

/-- The default constructor of `async_requests`. It leaves `type` as the static storage has it. -/
def AsyncRequest.blank : AsyncRequest :=
  ⟨0, 0, .write⟩

/-- `BATCH_SIZE`. -/
def batchSizeLimit : Nat := 32

/-- `key_size_`. -/
def keySize : Nat := 28

/-- The bytes that `GenerateKeyFromInt` produces for a request, whose `int` key is converted to
`uint64_t`. -/
def AsyncRequest.bytes (r : AsyncRequest) : Slice :=
  generateKeyFromInt keySize (UInt64.ofInt r.key)

/-- What the environment decides in one step: the tail value a poll observes, and which lookups of a
`db->MultiGet` fail. -/
structure Choice where
  tail : Nat
  lookupFails : Nat → Bool

/-- A step that observes the tail `t`, with no failing lookup. -/
def Choice.sees (t : Nat) : Choice :=
  ⟨t, fun _ => false⟩

/-- The program points of `worker_thread`: the wait for a request, the body of the loop, and the
exit. -/
inductive Pc where
  | wait
  | body
  | exited
  deriving DecidableEq, Repr

/-- A worker. The local `t` is assigned and never read. `reads` and `calls` are history variables:
the queue positions of the requests in `keys` and the calls made so far. -/
structure Worker where
  pc : Pc
  seen : Nat
  seq : Nat
  key : Slice
  keys : List KeySlice
  found : Nat
  reads : List Nat
  calls : List Call

namespace Worker

/-- A worker that has not started. -/
def start : Worker :=
  ⟨.wait, 0, 0, List.replicate keySize 0, [], 0, [], []⟩

/-- `while (seq >= tail[queue_seq])` observes `t`. -/
def poll (tail t : Nat) (w : Worker) : Option Worker :=
  if w.seen ≤ t ∧ t ≤ tail then
    some { w with seen := t, pc := if t ≤ w.seq then .wait else .body }
  else none

/-- `GenerateKeyFromInt`, `keys.push_back(rocksdb::Slice(key, key_size_))` and `seq++`. -/
def push (r : AsyncRequest) (w : Worker) : Worker :=
  { w with
    pc := .wait
    seq := w.seq + 1
    key := r.bytes
    keys := w.keys ++ [⟨keySize⟩]
    reads := w.reads ++ [w.seq] }

/-- `db->MultiGet(readoptions, keys, &values)`, the count of its statuses and `keys.clear()`. -/
def multiGet (db : Instance) (c : Choice) (w : Worker) : Worker :=
  let keys := w.keys.map (KeySlice.resolve w.key)
  let ss := multiGetStatuses db c.lookupFails keys
  { w with
    calls := w.calls ++ [.multiGet w.reads keys ss]
    found := w.found + ss.count .ok
    keys := []
    reads := [] }

/-- The body of the loop for the request `r` in slot `seq`. -/
def handle (db : Instance) (c : Choice) (r : AsyncRequest) (w : Worker) : Worker :=
  if r.seq = -1 then { w with pc := .exited }
  else
    let w := w.push r
    if w.keys.length = batchSizeLimit then w.multiGet db c else w

/-- One step of the worker over its instance, its row of slots and its tail. -/
def step (db : Instance) (slots : Nat → AsyncRequest) (tail : Nat) (c : Choice) (w : Worker) :
    Option Worker :=
  match w.pc with
  | .wait => w.poll tail c.tail
  | .body => some (w.handle db c (slots w.seq))
  | .exited => none

/-- The worker relies on a tail value only if it has observed it, and it observed the slot it is
about to read. -/
def Synced (tail : Nat) (w : Worker) : Prop :=
  w.seen ≤ tail ∧ (w.pc = .body → w.seq < w.seen)

/-- What one step can do. -/
theorem step_cases {db : Instance} {slots : Nat → AsyncRequest} {tail : Nat} {c : Choice}
    {w w' : Worker} (h : step db slots tail c w = some w') :
    (w.pc = .wait ∧ w.seen ≤ c.tail ∧ c.tail ≤ tail ∧
      w' = { w with seen := c.tail, pc := if c.tail ≤ w.seq then .wait else .body }) ∨
    (w.pc = .body ∧ (slots w.seq).seq = -1 ∧ w' = { w with pc := .exited }) ∨
    (w.pc = .body ∧ (slots w.seq).seq ≠ -1 ∧ (w.push (slots w.seq)).keys.length ≠ batchSizeLimit ∧
      w' = w.push (slots w.seq)) ∨
    (w.pc = .body ∧ (slots w.seq).seq ≠ -1 ∧ (w.push (slots w.seq)).keys.length = batchSizeLimit ∧
      w' = (w.push (slots w.seq)).multiGet db c) := by
  unfold step at h
  cases hpc : w.pc with
  | wait =>
      rw [hpc] at h
      exact .inl ⟨rfl, observe_eq_some.mp h⟩
  | body =>
      simp only [hpc, handle, Option.some.injEq] at h
      split_ifs at h with hseq hfull
      · exact .inr (.inl ⟨rfl, hseq, h.symm⟩)
      · exact .inr (.inr (.inr ⟨rfl, hseq, hfull, h.symm⟩))
      · exact .inr (.inr (.inl ⟨rfl, hseq, hfull, h.symm⟩))
  | exited =>
      simp only [hpc] at h
      cases h

/-- The worker as a consumer of its queue. -/
def consumer (db : Instance) : Consumer AsyncRequest Worker Choice where
  step := step db
  Synced := Synced
  synced_mono := fun hle h => ⟨h.1.trans hle, h.2⟩
  synced_step := by
    intro slots tail c w w' hsync h
    obtain ⟨_, _, htail, rfl⟩ | ⟨_, _, rfl⟩ | ⟨_, _, _, rfl⟩ | ⟨_, _, _, rfl⟩ := step_cases h
    · refine ⟨htail, ?_⟩
      dsimp only
      split_ifs with hle
      · simp
      · intro _
        omega
    all_goals exact ⟨hsync.1, by simp [push, multiGet]⟩
  step_later := by
    intro slots slots' tail later c w w' hsync hslots hle h
    unfold step at h ⊢
    split at h
    case h_1 => exact observe_later hle h
    case h_2 hpc =>
      -- the slot was published before the worker observed its tail, so it has not changed since
      rw [← hslots _ ((hsync.2 hpc).trans_le hsync.1)]
      exact h
    case h_3 => exact h

/-- A worker alone on a queue whose slots and tail do not change any more. -/
def alone (db : Instance) (slots : Nat → AsyncRequest) (tail : Nat) : System Worker Choice where
  init := start
  step := fun w c => step db slots tail c w

/-- The account of the requests a worker has taken from its queue, and what its buffer holds. -/
structure Inv (slots : Nat → AsyncRequest) (w : Worker) : Prop where
  taken : w.calls.flatMap Call.readReqs ++ w.reads = List.range w.seq
  keys : w.keys = List.replicate w.reads.length ⟨keySize⟩
  room : w.reads.length < batchSizeLimit
  buffer : 0 < w.seq → w.key = (slots (w.seq - 1)).bytes
  sizes : ∀ call ∈ w.calls,
    call.readReqs.length = batchSizeLimit ∧ call.lookedUp.length = batchSizeLimit
  real : ∀ i < w.seq, (slots i).seq ≠ -1
  marker : w.pc = .exited → (slots w.seq).seq = -1

section Steps

variable {db : Instance} {slots : Nat → AsyncRequest} {w : Worker}

/-- A worker that has not started has taken nothing. -/
theorem inv_start (slots : Nat → AsyncRequest) : Inv slots start := by
  constructor <;> simp [start, batchSizeLimit]

/-- A pushed request is pending, and the buffer holds its key. The batch may now be full. -/
theorem Inv.push (h : Inv slots w) (hseq : (slots w.seq).seq ≠ -1) :
    let w' := w.push (slots w.seq)
    w'.calls.flatMap Call.readReqs ++ w'.reads = List.range w'.seq ∧
      w'.keys = List.replicate w'.reads.length ⟨keySize⟩ ∧
      (0 < w'.seq → w'.key = (slots (w'.seq - 1)).bytes) ∧ ∀ i < w'.seq, (slots i).seq ≠ -1 := by
  refine ⟨?_, ?_, fun _ => rfl, ?_⟩
  · show w.calls.flatMap Call.readReqs ++ (w.reads ++ [w.seq]) = List.range (w.seq + 1)
    rw [← List.append_assoc, h.taken, List.range_succ]
  · show w.keys ++ [⟨keySize⟩] = List.replicate (w.reads ++ [w.seq]).length ⟨keySize⟩
    rw [h.keys, List.length_append, List.length_singleton, List.replicate_succ']
  · intro i hi
    rcases Nat.lt_succ_iff_lt_or_eq.mp hi with hlt | rfl
    · exact h.real i hlt
    · exact hseq

/-- Every step keeps the account. -/
theorem Inv.step (h : Inv slots w) {tail : Nat} {c : Choice} {w' : Worker}
    (hstep : Worker.step db slots tail c w = some w') : Inv slots w' := by
  obtain ⟨_, _, _, rfl⟩ | ⟨_, hend, rfl⟩ | ⟨_, hseq, hroom, rfl⟩ | ⟨_, hseq, hfull, rfl⟩ :=
    step_cases hstep
  · refine ⟨h.taken, h.keys, h.room, h.buffer, h.sizes, h.real, ?_⟩
    dsimp only
    split_ifs <;> simp
  · exact ⟨h.taken, h.keys, h.room, h.buffer, h.sizes, h.real, fun _ => hend⟩
  · obtain ⟨htaken, hkeys, hbuffer, hreal⟩ := h.push hseq
    have hlength : w.reads.length + 1 ≠ batchSizeLimit := by
      rw [hkeys, List.length_replicate] at hroom
      simpa [Worker.push] using hroom
    have hold := h.room
    refine ⟨htaken, hkeys, ?_, hbuffer, h.sizes, hreal, by simp [Worker.push]⟩
    show (w.reads ++ [w.seq]).length < batchSizeLimit
    rw [List.length_append, List.length_singleton]
    omega
  · obtain ⟨htaken, hkeys, hbuffer, hreal⟩ := h.push hseq
    have hlength : (w.push (slots w.seq)).reads.length = batchSizeLimit := by
      rw [← hfull, hkeys, List.length_replicate]
    refine ⟨?_, rfl, by simp [multiGet, batchSizeLimit], hbuffer, ?_, hreal,
      by simp [multiGet, Worker.push]⟩
    · simpa [multiGet, Call.readReqs] using htaken
    · refine List.forall_mem_append.mpr ⟨h.sizes, List.forall_mem_singleton.mpr ⟨hlength, ?_⟩⟩
      simpa [Call.lookedUp] using hfull

/-- The account holds in every state that the worker reaches. -/
theorem inv_reachable {tail : Nat} {allowed : Worker → Choice → Prop}
    (h : (alone db slots tail).Reachable allowed w) : Inv slots w :=
  h.invariant (I := Inv slots) (inv_start slots) fun _ hold _ hstep => hold.step hstep

/-- The calls carry whole batches, and what is pending is the remainder. -/
theorem Inv.lengths (h : Inv slots w) :
    (w.calls.map fun call => call.lookedUp.length).sum = batchSizeLimit * (w.seq / batchSizeLimit) ∧
      w.reads.length = w.seq % batchSizeLimit := by
  have hsum : (w.calls.map fun call => call.lookedUp.length).sum =
      w.calls.length * batchSizeLimit := by
    rw [List.map_congr_left fun call hcall => (h.sizes call hcall).2, List.map_const',
      List.sum_replicate_nat]
  have hreads : (w.calls.flatMap Call.readReqs).length = w.calls.length * batchSizeLimit := by
    rw [List.length_flatMap, List.map_congr_left fun call hcall => (h.sizes call hcall).1,
      List.map_const', List.sum_replicate_nat]
  have htotal := congrArg List.length h.taken
  rw [List.length_append, List.length_range, hreads] at htotal
  have hroom := h.room
  rw [batchSizeLimit] at *
  rw [hsum]
  omega

end Steps

end Worker

end ReadTest

end P2KVS
