import P2KVS.Ycsb.Ledger

/-!
# Ordering laws of a `ycsb.cpp` worker

Two stable properties of the worker's batches. `Ordered` holds when every `db->Write` succeeds: a
lookup runs behind all the writes that its reads follow, and an iterator sees exactly the writes in
front of its scan. `Unovertaken` holds when every write request is taken while no read is pending:
no read is looked up behind a write that follows it.
-/

namespace P2KVS.Ycsb

open History

/-- A call that comes late enough: a lookup behind all writes in front of its reads, an iterator
exactly behind the writes in front of its scan. -/
def Fresh (slots : Nat → AsyncRequest) (before : List Call) : Call → Prop
  | .multiGet reqs _ _ =>
      ∀ r ∈ reqs, ∀ i < r, isWrite slots i = true → i ∈ before.flatMap Call.appliedReqs
  | .newIterator req _ _ => before.flatMap Call.appliedReqs = positions (isWrite slots) req
  | .write _ _ _ => True

/-- A call that comes early enough: a lookup in front of all writes behind its reads. -/
def Early (before : List Call) : Call → Prop
  | .multiGet reqs _ _ => ∀ r ∈ reqs, ∀ i ∈ before.flatMap Call.appliedReqs, i < r
  | _ => True

/-- The state of the batches when every `db->Write` succeeds. -/
structure Ordered (slots : Nat → AsyncRequest) (v : Locals) : Prop where
  applied : ∀ call ∈ v.calls, call.appliedReqs = call.writeReqs
  behind : ∀ r ∈ v.reads, ∀ i ∈ v.batchReqs, r < i
  fresh : Every (Fresh slots) v.calls

/-- The state of the batches when no write is taken behind a pending read. -/
structure Unovertaken (v : Locals) : Prop where
  inFront : ∀ r ∈ v.reads, ∀ i ∈ v.calls.flatMap Call.writeReqs ++ v.batchReqs, i < r
  early : Every Early v.calls

section Positions

variable {p : Params} {slots : Nat → AsyncRequest} {v : Locals}

/-- Writes that were taken stand in front of `seq`. -/
theorem Ledger.write_lt (h : Ledger p slots v) {i : Nat}
    (hi : i ∈ v.calls.flatMap Call.writeReqs ++ v.batchReqs) : i < v.seq := by
  rw [h.writes] at hi
  exact (mem_positions.mp hi).1

/-- Pending reads stand in front of `seq`. -/
theorem Ledger.read_lt (h : Ledger p slots v) {r : Nat} (hr : r ∈ v.reads) : r < v.seq := by
  have hmem : r ∈ positions (isPoint slots) v.seq := h.reads ▸ List.mem_append_right _ hr
  exact (mem_positions.mp hmem).1

/-- When every write succeeds, the writes in the calls are the applied ones. -/
theorem Ordered.applied_eq (h : Ordered slots v) :
    v.calls.flatMap Call.appliedReqs = v.calls.flatMap Call.writeReqs :=
  List.flatMap_congr fun call hcall => h.applied call hcall

end Positions

/-- The applied requests of a call are among those it carries. -/
theorem mem_writeReqs_of_applied {calls : List Call} {i : Nat}
    (h : i ∈ calls.flatMap Call.appliedReqs) : i ∈ calls.flatMap Call.writeReqs := by
  obtain ⟨call, hcall, hi⟩ := List.mem_flatMap.mp h
  refine List.mem_flatMap.mpr ⟨call, hcall, ?_⟩
  cases call with
  | write reqs batch status =>
      cases status with
      | ok => exact hi
      | notFound => cases hi
      | ioError => cases hi
  | multiGet reqs keys statuses => cases hi
  | newIterator req start size => cases hi

/-- When every `db->Write` succeeds, reads and scans see the writes in front of them. -/
theorem ordered_stable (p : Params) (slots : Nat → AsyncRequest) :
    Stable p slots (fun c => c.writeStatus = .ok) (fun _ => True) (Ordered slots) where
  writeOut := by
    intro v c report _ h hc
    have hlast : (Call.write v.batchReqs v.batch c.writeStatus).appliedReqs = v.batchReqs := by
      rw [hc]
      rfl
    exact ⟨List.forall_mem_append.mpr ⟨h.applied, List.forall_mem_singleton.mpr hlast⟩,
      by simp [Locals.clearBatch], (every_append_singleton _ _ _).mpr ⟨h.fresh, trivial⟩⟩
  readOut := by
    intro v c report hledger h
    refine ⟨List.forall_mem_append.mpr ⟨h.applied, List.forall_mem_singleton.mpr rfl⟩,
      by simp [Locals.clearReads], ?_⟩
    refine (every_append_singleton _ _ _).mpr ⟨h.fresh, ?_⟩
    intro r hr i hi hwrite
    -- a write in front of a pending read is not pending itself
    have htaken : i ∈ v.calls.flatMap Call.writeReqs ++ v.batchReqs := by
      rw [hledger.writes]
      exact mem_positions.mpr ⟨hi.trans (hledger.read_lt hr), hwrite⟩
    rcases List.mem_append.mp htaken with hdone | hpending
    · rwa [h.applied_eq]
    · exact absurd (h.behind r hr i hpending) (by omega)
  put := by
    intro v hledger h _ _
    refine ⟨h.applied, ?_, h.fresh⟩
    intro r hr
    have hlast := List.forall_mem_singleton.mpr (hledger.read_lt hr)
    exact List.forall_mem_append.mpr ⟨h.behind r hr, hlast⟩
  pushKey := by
    intro v _ h hempty _
    refine ⟨h.applied, ?_, h.fresh⟩
    simp [Locals.pushKey, Locals.advance, hempty]
  scan := by
    intro v hledger h hempty _
    have hwrites := hledger.writes
    rw [hempty, List.append_nil, ← h.applied_eq] at hwrites
    exact ⟨List.forall_mem_append.mpr ⟨h.applied, List.forall_mem_singleton.mpr rfl⟩, h.behind,
      (every_append_singleton _ _ _).mpr ⟨h.fresh, hwrites⟩⟩

/-- When no write is taken behind a pending read, no read is looked up behind a later write. -/
theorem unovertaken_stable (p : Params) (slots : Nat → AsyncRequest) :
    Stable p slots (fun _ => True) (fun v => v.mutligetKeys = []) Unovertaken where
  writeOut := by
    intro v c report _ h _
    refine ⟨?_, (every_append_singleton _ _ _).mpr ⟨h.early, trivial⟩⟩
    simpa [Locals.dbWrite, Locals.clearBatch, Call.writeReqs] using h.inFront
  readOut := by
    intro v c report _ h
    refine ⟨by simp [Locals.clearReads], (every_append_singleton _ _ _).mpr ⟨h.early, ?_⟩⟩
    intro r hr i hi
    exact h.inFront r hr i (List.mem_append_left _ (mem_writeReqs_of_applied hi))
  put := by
    intro v hledger h hroom _
    have hnone : v.reads = [] := List.length_eq_zero_iff.mp (by rw [← hledger.keys, hroom]; rfl)
    refine ⟨?_, h.early⟩
    simp [Locals.put, Locals.advance, hnone]
  pushKey := by
    intro v hledger h _ _
    refine ⟨?_, h.early⟩
    simp only [Locals.pushKey, Locals.advance]
    intro r hr i hi
    rcases List.mem_append.mp hr with hr | hr
    · exact h.inFront r hr i hi
    · obtain rfl := List.mem_singleton.mp hr
      exact hledger.write_lt hi
  scan := by
    intro v _ h _ _
    refine ⟨?_, (every_append_singleton _ _ _).mpr ⟨h.early, trivial⟩⟩
    simpa [Locals.scan, Locals.advance, Call.writeReqs] using h.inFront

section Laws

variable {p : Params} {slots : Nat → AsyncRequest} {w : Worker} {before after : List Call}

/-- A lookup runs behind every write in front of its reads. -/
theorem Worker.Inv.lookup_fresh (h : Worker.Inv p slots (Ordered slots) w) {reqs : List Nat}
    {keys : List Slice} {statuses : List Status}
    (hcalls : w.vars.calls = before ++ .multiGet reqs keys statuses :: after) :
    ∀ r ∈ reqs, ∀ i < r, isWrite slots i = true → i ∈ before.flatMap Call.appliedReqs := by
  have hfresh := h.law.fresh
  rw [Worker.settled_calls] at hfresh
  exact hfresh before _ after hcalls

/-- An iterator is created exactly behind the writes in front of its scan. -/
theorem Worker.Inv.scan_fresh (h : Worker.Inv p slots (Ordered slots) w) {req : Nat} {start : Slice}
    {size : Int} (hcalls : w.vars.calls = before ++ .newIterator req start size :: after) :
    before.flatMap Call.appliedReqs = positions (isWrite slots) req := by
  have hfresh := h.law.fresh
  rw [Worker.settled_calls] at hfresh
  exact hfresh before _ after hcalls

/-- The calls in front of any call carry the records of their requests. -/
theorem Worker.Inv.records_front {J : Locals → Prop} (h : Worker.Inv p slots J w) {call : Call}
    (hcalls : w.vars.calls = before ++ call :: after) :
    ∀ call ∈ before, call.records = call.writeReqs.map (record p slots) :=
  fun call hcall => h.records call (hcalls ▸ List.mem_append_left _ hcall)

end Laws

/-- Nothing is ordered wrongly at the start. -/
theorem ordered_start (p : Params) (slots : Nat → AsyncRequest) : Ordered slots (.start p) :=
  ⟨by simp [Locals.start], by simp [Locals.start], every_nil _⟩

/-- Nothing has been overtaken at the start. -/
theorem unovertaken_start (p : Params) : Unovertaken (.start p) :=
  ⟨by simp [Locals.start], every_nil _⟩

end P2KVS.Ycsb
