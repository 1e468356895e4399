import P2KVS.Foundation.History
import P2KVS.Ycsb.Worker

/-!
# The ledger of a `ycsb.cpp` worker

The worker splits the requests of its queue into two pending batches and empties them at several
places. `Ledger` accounts for every request it has taken: a write is in a call or in the pending
batch, a point read is in a call or in the pending keys, a scan has its iterator, each once and in
queue order.

`Stable` is the rule that the ordering laws use. It asks for a property of the local variables to
survive the five things that happen to the batches (a batch is written, a batch is looked up, a
write is queued, a read is queued, a scan runs) and concludes that it holds in every reachable
state.
-/

namespace P2KVS.Ycsb

open History Transition

section Requests

variable (p : Params) (slots : Nat → AsyncRequest)

/-- Position `i` holds a write request. -/
def isWrite (i : Nat) : Bool :=
  (slots i).write

/-- Position `i` holds a point read. -/
def isPoint (i : Nat) : Bool :=
  !(slots i).write && (slots i).scanSize == -1

/-- Position `i` holds a range scan. -/
def isScan (i : Nat) : Bool :=
  !(slots i).write && (slots i).scanSize != -1

/-- The record that the write request at position `i` stands for. -/
def record (i : Nat) : Slice × Slice :=
  (generateKeyFromInt p.keySize (slots i).key, p.value)

end Requests

namespace Locals

/-- The variables in which both request branches start: `seq` has passed the request and the key
buffer holds its key. -/
def advance (p : Params) (r : AsyncRequest) (v : Locals) : Locals :=
  { v with seq := v.seq + 1, key := generateKeyFromInt p.keySize r.key }

/-- The flush of the pending writes does not move `seq`. -/
theorem flushWrites_seq (c : Choice) (v : Locals) (report : Bool) :
    (v.flushWrites c report).seq = v.seq := by
  unfold flushWrites
  split_ifs <;> rfl

/-- The flush of the pending writes leaves the pending reads alone. -/
theorem flushWrites_reads (c : Choice) (v : Locals) (report : Bool) :
    (v.flushWrites c report).reads = v.reads := by
  unfold flushWrites
  split_ifs <;> rfl

/-- The flush of the pending reads leaves `seq` and the pending writes alone. -/
theorem flushReads_seq_batch (p : Params) (c : Choice) (v : Locals) (report : Bool) :
    (v.flushReads p c report).seq = v.seq ∧
      (v.flushReads p c report).batchReqs = v.batchReqs := by
  unfold flushReads
  split_ifs <;> exact ⟨rfl, rfl⟩

/-- The end marker moves neither `seq` nor the pending reads. -/
theorem handleEnd_seq_reads (p : Params) (c : Choice) (v : Locals) :
    (v.handleEnd p c).seq = v.seq ∧ (v.handleEnd p c).reads = v.reads := by
  simp only [handleEnd]
  split_ifs <;> exact ⟨rfl, rfl⟩

/-- The end marker executes both batches. -/
theorem handle_end {r : AsyncRequest} (hseq : r.seq = -1) (p : Params) (c : Choice) (v : Locals) :
    v.handle p c r = v.handleEnd p c :=
  if_pos hseq

/-- A write request queues its record and may write the batch out. -/
theorem handle_write {p : Params} {c : Choice} {r : AsyncRequest} {v : Locals} (hseq : r.seq ≠ -1)
    (hwrite : r.write = true) :
    let queued := (v.advance p r).put p v.seq
    v.handle p c r =
      if p.writeBatchSize ≤ queued.batchSize then (queued.dbWrite c true).clearBatch
      else queued := by
  simp only [handle, if_neg hseq, if_pos hwrite]
  rfl

/-- A read request flushes the pending writes, which it may as well do before taking the request. -/
theorem handle_read {p : Params} {c : Choice} {r : AsyncRequest} {v : Locals} (hseq : r.seq ≠ -1)
    (hwrite : r.write = false) :
    let flushed := (v.flushWrites c true).advance p r
    v.handle p c r =
      if r.scanSize = -1 then flushed.pointQuery p c v.seq else flushed.scan p v.seq r := by
  have hflush : (generateKey p r { v with seq := v.seq + 1 }).flushWrites c true =
      (v.flushWrites c true).advance p r := by
    unfold flushWrites
    split <;> split <;> first | rfl | contradiction
  simp only [handle, if_neg hseq, hwrite, Bool.false_eq_true, if_false, handleRead, hflush]

/-- A point query queues its key and may look the batch up. -/
theorem pointQuery_eq (p : Params) (c : Choice) (pos : Nat) (v : Locals) :
    let queued := v.pushKey p pos
    v.pointQuery p c pos =
      if queued.mutligetKeys.length = p.batchSize then (queued.dbMultiGet p c true).clearReads
      else queued :=
  rfl

/-- A request moves `seq` by one, the end marker not at all. -/
theorem handle_seq (p : Params) (c : Choice) (v : Locals) (r : AsyncRequest) :
    (v.handle p c r).seq = if r.seq = -1 then v.seq else v.seq + 1 := by
  by_cases hseq : r.seq = -1
  · rw [handle_end hseq, if_pos hseq, (handleEnd_seq_reads p c v).1]
  rw [if_neg hseq]
  cases hwrite : r.write with
  | true =>
      rw [handle_write hseq hwrite]
      split_ifs <;> rfl
  | false =>
      have hflush : ((v.flushWrites c true).advance p r).seq = v.seq + 1 :=
        congrArg (· + 1) (flushWrites_seq c v true)
      rw [handle_read hseq hwrite]
      split_ifs
      · rw [pointQuery_eq]
        split_ifs <;> exact hflush
      · exact hflush

end Locals

/-- The account of the requests a worker has taken from its queue. -/
structure Ledger (p : Params) (slots : Nat → AsyncRequest) (v : Locals) : Prop where
  writes : v.calls.flatMap Call.writeReqs ++ v.batchReqs = positions (isWrite slots) v.seq
  reads : v.calls.flatMap Call.readReqs ++ v.reads = positions (isPoint slots) v.seq
  scans : v.calls.flatMap Call.scanReqs = positions (isScan slots) v.seq
  batch : v.batch = v.batchReqs.map (record p slots)
  size : v.batchSize = v.batchReqs.length
  keys : v.mutligetKeys.length = v.reads.length
  records : ∀ call ∈ v.calls, call.records = call.writeReqs.map (record p slots)
  real : ∀ i < v.seq, (slots i).seq ≠ -1

section Ledger

variable {p : Params} {slots : Nat → AsyncRequest} {v : Locals}

/-- Nothing has been taken at the start. -/
theorem ledger_start (p : Params) (slots : Nat → AsyncRequest) : Ledger p slots (.start p) := by
  constructor <;> simp [Locals.start]

/-- The counter of the batch is the number of its records. -/
theorem Ledger.size_eq (h : Ledger p slots v) : v.batchSize = v.batch.length := by
  rw [h.size, h.batch, List.length_map]

/-- Writing the batch out moves its requests into a call. -/
theorem Ledger.writeOut (h : Ledger p slots v) (c : Choice) (report : Bool) :
    Ledger p slots (v.dbWrite c report).clearBatch where
  writes := by simpa [Locals.dbWrite, Locals.clearBatch, Call.writeReqs] using h.writes
  reads := by simpa [Locals.dbWrite, Locals.clearBatch, Call.readReqs] using h.reads
  scans := by simpa [Locals.dbWrite, Locals.clearBatch, Call.scanReqs] using h.scans
  batch := rfl
  size := rfl
  keys := h.keys
  records := List.forall_mem_append.mpr ⟨h.records, List.forall_mem_singleton.mpr h.batch⟩
  real := h.real

/-- Looking the pending keys up moves their requests into a call. -/
theorem Ledger.readOut (h : Ledger p slots v) (c : Choice) (report : Bool) :
    Ledger p slots (v.dbMultiGet p c report).clearReads where
  writes := by simpa [Locals.dbMultiGet, Locals.clearReads, Call.writeReqs] using h.writes
  reads := by simpa [Locals.dbMultiGet, Locals.clearReads, Call.readReqs] using h.reads
  scans := by simpa [Locals.dbMultiGet, Locals.clearReads, Call.scanReqs] using h.scans
  batch := h.batch
  size := h.size
  keys := rfl
  records := List.forall_mem_append.mpr ⟨h.records, List.forall_mem_singleton.mpr rfl⟩
  real := h.real

/-- Passing a real request extends the range without end markers. -/
theorem Ledger.real_succ (h : Ledger p slots v) (hseq : (slots v.seq).seq ≠ -1) :
    ∀ i < v.seq + 1, (slots i).seq ≠ -1 := by
  intro i hi
  rcases Nat.lt_succ_iff_lt_or_eq.mp hi with hlt | rfl
  · exact h.real i hlt
  · exact hseq

/-- Queueing a write request. -/
theorem Ledger.put (h : Ledger p slots v) (hseq : (slots v.seq).seq ≠ -1)
    (hwrite : isWrite slots v.seq = true) :
    Ledger p slots ((v.advance p (slots v.seq)).put p v.seq) := by
  have hpoint : isPoint slots v.seq = false := by
    rw [isWrite] at hwrite
    simp [isPoint, hwrite]
  have hscan : isScan slots v.seq = false := by
    rw [isWrite] at hwrite
    simp [isScan, hwrite]
  constructor
  case writes =>
    simp only [Locals.put, Locals.advance, positions_succ, hwrite, if_true, ← h.writes,
      List.append_assoc]
  case reads => simpa [Locals.put, Locals.advance, positions_succ, hpoint] using h.reads
  case scans => simpa [Locals.put, Locals.advance, positions_succ, hscan] using h.scans
  case batch =>
    have hkey : (KeySlice.mk p.keySize).resolve (generateKeyFromInt p.keySize (slots v.seq).key) =
        generateKeyFromInt p.keySize (slots v.seq).key :=
      List.take_of_length_le (length_generateKeyFromInt _ _).le
    simp [Locals.put, Locals.advance, h.batch, hkey, record]
  case size => simp [Locals.put, Locals.advance, h.size]
  case keys => exact h.keys
  case records => exact h.records
  case real => exact h.real_succ hseq

/-- Queueing a point read. -/
theorem Ledger.pushKey (h : Ledger p slots v) (hseq : (slots v.seq).seq ≠ -1)
    (hpoint : isPoint slots v.seq = true) :
    Ledger p slots ((v.advance p (slots v.seq)).pushKey p v.seq) := by
  have hkind := hpoint
  simp only [isPoint, Bool.and_eq_true, Bool.not_eq_true', beq_iff_eq] at hkind
  have hwrite : isWrite slots v.seq = false := hkind.1
  have hscan : isScan slots v.seq = false := by simp [isScan, hkind.2]
  constructor
  case writes => simpa [Locals.pushKey, Locals.advance, positions_succ, hwrite] using h.writes
  case reads =>
    simp only [Locals.pushKey, Locals.advance, positions_succ, hpoint, if_true, ← h.reads,
      List.append_assoc]
  case scans => simpa [Locals.pushKey, Locals.advance, positions_succ, hscan] using h.scans
  case batch => exact h.batch
  case size => exact h.size
  case keys => simp [Locals.pushKey, Locals.advance, h.keys]
  case records => exact h.records
  case real => exact h.real_succ hseq

/-- Running a scan. -/
theorem Ledger.scan (h : Ledger p slots v) (hseq : (slots v.seq).seq ≠ -1)
    (hscan : isScan slots v.seq = true) :
    Ledger p slots ((v.advance p (slots v.seq)).scan p v.seq (slots v.seq)) := by
  have hkind := hscan
  simp only [isScan, Bool.and_eq_true, Bool.not_eq_true', bne_iff_ne] at hkind
  have hwrite : isWrite slots v.seq = false := hkind.1
  have hpoint : isPoint slots v.seq = false := by simp [isPoint, hkind.2]
  constructor
  case writes =>
    simpa [Locals.scan, Locals.advance, positions_succ, hwrite, Call.writeReqs] using h.writes
  case reads =>
    simpa [Locals.scan, Locals.advance, positions_succ, hpoint, Call.readReqs] using h.reads
  case scans =>
    simp [Locals.scan, Locals.advance, positions_succ, hscan, Call.scanReqs, ← h.scans]
  case batch => exact h.batch
  case size => exact h.size
  case keys => exact h.keys
  case records => exact List.forall_mem_append.mpr ⟨h.records, List.forall_mem_singleton.mpr rfl⟩
  case real => exact h.real_succ hseq

/-- All records passed to `db->Write` are those of the write requests in the calls. -/
theorem Ledger.written_eq (h : Ledger p slots v) :
    written v.calls = (v.calls.flatMap Call.writeReqs).map (record p slots) := by
  rw [written, List.map_flatMap]
  exact List.flatMap_congr fun call hcall => h.records call hcall

/-- After the flush of the pending writes the batch is empty. -/
theorem Ledger.flushed (h : Ledger p slots v) (c : Choice) (report : Bool) :
    (v.flushWrites c report).batchReqs = [] := by
  unfold Locals.flushWrites
  split_ifs with hsize
  · rfl
  · rw [h.size, ne_eq, not_not] at hsize
    exact List.length_eq_zero_iff.mp hsize

/-- The end marker makes the calls of an idle flush; it only leaves the batches in place. -/
theorem Ledger.handleEnd_eq (h : Ledger p slots v) (c : Choice) :
    (v.handleEnd p c).clearBatch.clearReads = (v.flushWrites c false).flushReads p c false := by
  have hbatch : v.batchSize = 0 → v.clearBatch = v := by
    intro hsize
    have hreqs : v.batchReqs = [] := List.length_eq_zero_iff.mp (h.size ▸ hsize)
    have hrecords : v.batch = [] := by rw [h.batch, hreqs, List.map_nil]
    simp only [Locals.clearBatch, ← hreqs, ← hrecords, ← hsize]
  have hkeys : v.mutligetKeys.length = 0 → v.clearReads = v := by
    intro hlength
    have hreads : v.reads = [] := List.length_eq_zero_iff.mp (h.keys ▸ hlength)
    have hnone : v.mutligetKeys = [] := List.length_eq_zero_iff.mp hlength
    simp only [Locals.clearReads, ← hreads, ← hnone]
  unfold Locals.handleEnd Locals.flushWrites Locals.flushReads
  -- clearing a batch commutes with the call on the other one
  by_cases hsize : v.batchSize = 0 <;> by_cases hlength : v.mutligetKeys.length = 0
  · simp only [hsize, hlength, ne_eq, not_true_eq_false, if_false, hbatch hsize, hkeys hlength]
  · have hcomm : (v.dbMultiGet p c false).clearBatch = v.clearBatch.dbMultiGet p c false := rfl
    simp only [hsize, hlength, ne_eq, not_true_eq_false, not_false_eq_true, if_true, if_false,
      hcomm, hbatch hsize]
  · have hcomm : (v.dbWrite c false).clearBatch.clearReads =
        (v.clearReads.dbWrite c false).clearBatch := rfl
    have hcleared : (v.dbWrite c false).clearBatch.mutligetKeys = v.mutligetKeys := rfl
    have hkept : (v.dbWrite c false).mutligetKeys = v.mutligetKeys := rfl
    simp only [hsize, hcleared, hkept, hlength, ne_eq, not_true_eq_false, not_false_eq_true,
      if_true, if_false, hcomm, hkeys hlength]
  · have hcleared : (v.dbWrite c false).clearBatch.mutligetKeys = v.mutligetKeys := rfl
    have hkept : (v.dbWrite c false).mutligetKeys = v.mutligetKeys := rfl
    simp only [hsize, hcleared, hkept, hlength, ne_eq, not_false_eq_true, if_true]
    rfl

/-- The batch that the end marker leaves in place has been written. -/
theorem Ledger.handleEnd_carried (h : Ledger p slots v) (c : Choice) :
    ∀ i ∈ (v.handleEnd p c).batchReqs, i ∈ (v.handleEnd p c).calls.flatMap Call.writeReqs := by
  intro i hi
  have hmem : i ∈ v.batchReqs := by
    simp only [Locals.handleEnd] at hi
    split_ifs at hi <;> exact hi
  have hsize : v.batchSize ≠ 0 := by
    rw [h.size]
    exact (List.length_pos_of_mem hmem).ne'
  simp only [Locals.handleEnd, if_pos hsize]
  split_ifs <;> simp [Locals.dbMultiGet, Locals.dbWrite, Call.writeReqs, hmem]

end Ledger

/-- A property of the local variables that survives what happens to the batches. `good` restricts
the environment, and `room` is what is known of the variables when a write request is taken. -/
structure Stable (p : Params) (slots : Nat → AsyncRequest) (good : Choice → Prop)
    (room J : Locals → Prop) : Prop where
  writeOut : ∀ {v c report}, Ledger p slots v → J v → good c → J (v.dbWrite c report).clearBatch
  readOut : ∀ {v c report}, Ledger p slots v → J v → J (v.dbMultiGet p c report).clearReads
  put : ∀ {v}, Ledger p slots v → J v → room v → isWrite slots v.seq = true →
    J ((v.advance p (slots v.seq)).put p v.seq)
  pushKey : ∀ {v}, Ledger p slots v → J v → v.batchReqs = [] → isPoint slots v.seq = true →
    J ((v.advance p (slots v.seq)).pushKey p v.seq)
  scan : ∀ {v}, Ledger p slots v → J v → v.batchReqs = [] → isScan slots v.seq = true →
    J ((v.advance p (slots v.seq)).scan p v.seq (slots v.seq))

namespace Stable

variable {p : Params} {slots : Nat → AsyncRequest} {good : Choice → Prop} {room J : Locals → Prop}
  {v : Locals} {c : Choice}

/-- The flush of the pending writes keeps the ledger and the property. -/
theorem flushWrites (hJ : Stable p slots good room J) (h : Ledger p slots v ∧ J v) (hc : good c)
    (report : Bool) :
    Ledger p slots (v.flushWrites c report) ∧ J (v.flushWrites c report) := by
  unfold Locals.flushWrites
  split_ifs
  · exact ⟨h.1.writeOut c report, hJ.writeOut h.1 h.2 hc⟩
  · exact h

/-- The flush of the pending reads keeps the ledger and the property. -/
theorem flushReads (hJ : Stable p slots good room J) (h : Ledger p slots v ∧ J v) (report : Bool) :
    Ledger p slots (v.flushReads p c report) ∧ J (v.flushReads p c report) := by
  unfold Locals.flushReads
  split_ifs
  · exact ⟨h.1.readOut c report, hJ.readOut h.1 h.2⟩
  · exact h

/-- Handling a real request keeps the ledger and the property. -/
theorem handle (hJ : Stable p slots good room J) (h : Ledger p slots v ∧ J v) (hc : good c)
    (hseq : (slots v.seq).seq ≠ -1) (hroom : (slots v.seq).write = true → room v) :
    Ledger p slots (v.handle p c (slots v.seq)) ∧ J (v.handle p c (slots v.seq)) := by
  cases hwrite : (slots v.seq).write with
  | true =>
      have hput := h.1.put hseq hwrite
      have hlaw := hJ.put h.1 h.2 (hroom hwrite) hwrite
      rw [Locals.handle_write hseq hwrite]
      split_ifs
      · exact ⟨hput.writeOut c true, hJ.writeOut hput hlaw hc⟩
      · exact ⟨hput, hlaw⟩
  | false =>
      have hflush := hJ.flushWrites h hc true
      have hempty := h.1.flushed c true
      have hsame := Locals.flushWrites_seq c v true
      rw [Locals.handle_read hseq hwrite]
      -- from here on only the flushed variables matter
      generalize v.flushWrites c true = u at hflush hempty hsame ⊢
      rw [← hsame] at hseq hwrite ⊢
      split_ifs with hsize
      · have hpoint : isPoint slots u.seq = true := by simp [isPoint, hwrite, hsize]
        have hpush := hflush.1.pushKey hseq hpoint
        have hlaw := hJ.pushKey hflush.1 hflush.2 hempty hpoint
        rw [Locals.pointQuery_eq]
        split_ifs
        · exact ⟨hpush.readOut c true, hJ.readOut hpush hlaw⟩
        · exact ⟨hpush, hlaw⟩
      · have hscan : isScan slots u.seq = true := by simp [isScan, hwrite, hsize]
        exact ⟨hflush.1.scan hseq hscan, hJ.scan hflush.1 hflush.2 hempty hscan⟩

end Stable

namespace Worker

/-- A worker alone on a queue whose slots and tail do not change any more. -/
def alone (p : Params) (slots : Nat → AsyncRequest) (tail : Nat) : System Worker Choice where
  init := start p
  step := fun w c => step p slots tail c w

/-- The local variables, with the batches that the end marker has executed taken as empty. -/
def settled (w : Worker) : Locals :=
  if w.pc = .exited then w.vars.clearBatch.clearReads else w.vars

/-- The step about to be made takes a write request. -/
def takesWrite (w : Worker) : Bool :=
  match w.pc with
  | .handle r => r.seq ≠ -1 && r.write
  | _ => false

/-- The invariant of a worker, for a stable property `J`. -/
structure Inv (p : Params) (slots : Nat → AsyncRequest) (J : Locals → Prop) (w : Worker) :
    Prop where
  ledger : Ledger p slots w.settled
  law : J w.settled
  request : ∀ r, w.pc = .handle r → r = slots w.vars.seq
  marker : w.pc = .exited → (slots w.vars.seq).seq = -1
  carried : w.pc = .exited → ∀ i ∈ w.vars.batchReqs, i ∈ w.vars.calls.flatMap Call.writeReqs

/-- Before the exit nothing is taken as empty. -/
theorem settled_of_ne {w : Worker} (h : w.pc ≠ .exited) : w.settled = w.vars :=
  if_neg h

/-- Taking batches as empty forgets no call. -/
@[simp] theorem settled_calls (w : Worker) : w.settled.calls = w.vars.calls := by
  unfold settled
  split <;> rfl

/-- Taking batches as empty does not move `seq`. -/
@[simp] theorem settled_seq (w : Worker) : w.settled.seq = w.vars.seq := by
  unfold settled
  split <;> rfl

/-- An invariant state before the exit, from the ledger and the property of its variables. -/
theorem inv_of_ne {p : Params} {slots : Nat → AsyncRequest} {J : Locals → Prop} {w : Worker}
    (hne : w.pc ≠ .exited) (h : Ledger p slots w.vars ∧ J w.vars)
    (hreq : ∀ r, w.pc = .handle r → r = slots w.vars.seq) : Inv p slots J w where
  ledger := settled_of_ne hne ▸ h.1
  law := settled_of_ne hne ▸ h.2
  request := hreq
  marker := fun hexit => absurd hexit hne
  carried := fun hexit => absurd hexit hne

/-- Every step keeps the invariant. -/
theorem Inv.step {p : Params} {slots : Nat → AsyncRequest} {good : Choice → Prop}
    {room J : Locals → Prop} (hJ : Stable p slots good room J) {tail : Nat} {c : Choice}
    {w w' : Worker} (h : Inv p slots J w) (hc : good c) (hroom : w.takesWrite → room w.vars)
    (hstep : Worker.step p slots tail c w = some w') : Inv p slots J w' := by
  have hvars : w.pc ≠ .exited → Ledger p slots w.vars ∧ J w.vars := fun hne =>
    settled_of_ne hne ▸ ⟨h.ledger, h.law⟩
  obtain ⟨hquiet, hsame, hne, _, hreq⟩ | ⟨hpc, rfl⟩ | ⟨hpc, rfl⟩ | ⟨r, hpc, rfl⟩ := step_cases hstep
  · have hold := hvars fun hpc => by simp [hpc, Pc.quiet] at hquiet
    exact inv_of_ne hne (hsame ▸ hold) (hsame ▸ hreq)
  · exact inv_of_ne (by simp) (hJ.flushWrites (hvars (by simp [hpc])) hc false) (by simp)
  · exact inv_of_ne (by simp) (hJ.flushReads (hvars (by simp [hpc])) false) (by simp)
  · obtain rfl := h.request r hpc
    have hold := hvars (by simp [hpc])
    by_cases hseq : (slots w.vars.seq).seq = -1
    · -- the end marker makes the calls of an idle flush
      have hflush := hJ.flushReads (c := c) (hJ.flushWrites hold hc false) false
      rw [← hold.1.handleEnd_eq c] at hflush
      simp only [if_pos hseq, Locals.handle_end hseq]
      exact {
        ledger := hflush.1
        law := hflush.2
        request := by simp
        marker := fun _ => by simpa [(Locals.handleEnd_seq_reads p c _).1] using hseq
        carried := fun _ => hold.1.handleEnd_carried c }
    · refine inv_of_ne (by simp [hseq]) ?_ (by simp [hseq])
      exact hJ.handle hold hc hseq fun hwrite => hroom (by simp [takesWrite, hpc, hseq, hwrite])

/-- A stable property holds in every state that a worker reaches. -/
theorem inv_reachable {p : Params} {slots : Nat → AsyncRequest} {good : Choice → Prop}
    {room J : Locals → Prop} (hJ : Stable p slots good room J) (tail : Nat)
    (hstart : J (.start p)) {w : Worker}
    (h : (alone p slots tail).Reachable (fun w c => good c ∧ (w.takesWrite → room w.vars)) w) :
    Inv p slots J w := by
  refine h.invariant (I := Inv p slots J) ?_ ?_
  · exact inv_of_ne (by simp [alone, start]) ⟨ledger_start p slots, hstart⟩
      (by simp [alone, start])
  · intro w c w' _ hinv hallowed hstep
    exact hinv.step hJ hallowed.1 hallowed.2 hstep

section Consequences

variable {p : Params} {slots : Nat → AsyncRequest} {J : Locals → Prop} {w : Worker}

/-- The calls carry the records of their requests. -/
theorem Inv.records (h : Inv p slots J w) :
    ∀ call ∈ w.vars.calls, call.records = call.writeReqs.map (record p slots) :=
  settled_calls w ▸ h.ledger.records

/-- No end marker stands in front of `seq`. -/
theorem Inv.real (h : Inv p slots J w) : ∀ i < w.vars.seq, (slots i).seq ≠ -1 :=
  settled_seq w ▸ h.ledger.real

/-- The calls carry only write requests in front of `seq`. -/
theorem Inv.carried_write (h : Inv p slots J w) {i : Nat}
    (hi : i ∈ w.vars.calls.flatMap Call.writeReqs) :
    i < w.vars.seq ∧ isWrite slots i = true := by
  have hwrites := h.ledger.writes
  rw [settled_calls, settled_seq] at hwrites
  exact mem_positions.mp (hwrites ▸ List.mem_append_left _ hi)

/-- At the exit the calls carry every write request, each once and in queue order. -/
theorem Inv.writes_exited (h : Inv p slots J w) (hexit : w.pc = .exited) :
    w.vars.calls.flatMap Call.writeReqs = positions (isWrite slots) w.vars.seq := by
  have hwrites := h.ledger.writes
  rw [settled, if_pos hexit] at hwrites
  simpa [Locals.clearReads, Locals.clearBatch] using hwrites

/-- At the exit the calls carry every point read, each once and in queue order. -/
theorem Inv.reads_exited (h : Inv p slots J w) (hexit : w.pc = .exited) :
    w.vars.calls.flatMap Call.readReqs = positions (isPoint slots) w.vars.seq := by
  have hreads := h.ledger.reads
  rw [settled, if_pos hexit] at hreads
  simpa [Locals.clearReads, Locals.clearBatch] using hreads

end Consequences

end Worker

end P2KVS.Ycsb
