import P2KVS.Ycsb.Dispatch
import P2KVS.Ycsb.Idle

/-!
# The batch sizes of `ycsb.cpp`

`BATCH_SIZE` limits the pending point reads of a worker, `WRITE_BATCH_SIZE` its pending writes. The
second limit comes from a budget of 4096 bytes and does not depend on the first, except that both
are 1 together. `Limited` holds both bounds through every flush site; `batch_size_respected` says
for which configurations no batch has more than `BATCH_SIZE` requests.
-/

namespace P2KVS

/-- The number of requests in the `WriteBatch` or in the key vector of a call. -/
def Call.batched : Call → Nat
  | .write _ batch _ => batch.length
  | .multiGet _ keys _ => keys.length
  | .newIterator _ _ _ => 0

/-- The requests that a call serves. -/
def Call.reqs : Call → List Nat
  | .write reqs _ _ => reqs
  | .multiGet reqs _ _ => reqs
  | .newIterator req _ _ => [req]

namespace Ycsb

open Channel Transition

/-- A call within the two limits. A batch is written when a record has been added, so one record may
exceed the limit for writes. -/
def Within (p : Params) : Call → Prop
  | .write _ batch _ => batch.length ≤ max 1 p.writeBatchSize
  | .multiGet _ keys _ => keys.length ≤ p.batchSize
  | .newIterator _ _ _ => True

/-- The pending batches are not full, and the calls are within the limits. -/
structure Limited (p : Params) (v : Locals) : Prop where
  writes : v.batch.length < max 1 p.writeBatchSize
  reads : v.mutligetKeys.length < p.batchSize
  calls : ∀ call ∈ v.calls, Within p call

section Limits

variable {p : Params} {slots : Nat → AsyncRequest} {v : Locals}

/-- Nothing is pending at the start. -/
theorem limited_start (hbatch : 1 ≤ p.batchSize) : Limited p (.start p) where
  writes := by simp [Locals.start]
  reads := hbatch
  calls := by simp [Locals.start]

/-- Appending a call within the limits. -/
theorem within_append {calls : List Call} {last : Call} (h : ∀ call ∈ calls, Within p call)
    (hlast : Within p last) : ∀ call ∈ calls ++ [last], Within p call :=
  List.forall_mem_append.mpr ⟨h, List.forall_mem_singleton.mpr hlast⟩

/-- A batch that has just become full may still be written. -/
theorem limited_writeOut (hwrites : v.batch.length ≤ max 1 p.writeBatchSize)
    (hreads : v.mutligetKeys.length < p.batchSize) (hcalls : ∀ call ∈ v.calls, Within p call)
    (c : Choice) (report : Bool) : Limited p (v.dbWrite c report).clearBatch where
  writes := by simp [Locals.clearBatch]
  reads := hreads
  calls := within_append hcalls hwrites

/-- A key vector that has just become full may still be looked up. -/
theorem limited_readOut (hwrites : v.batch.length < max 1 p.writeBatchSize)
    (hreads : v.mutligetKeys.length ≤ p.batchSize) (hpos : 1 ≤ p.batchSize)
    (hcalls : ∀ call ∈ v.calls, Within p call) (c : Choice) (report : Bool) :
    Limited p (v.dbMultiGet p c report).clearReads where
  writes := hwrites
  reads := hpos
  calls := within_append hcalls ((List.length_map _).trans_le hreads)

/-- There is room for a read. -/
theorem Limited.batchSize_pos (h : Limited p v) : 1 ≤ p.batchSize := by
  have hreads := h.reads
  omega

/-- The flush of the pending writes keeps the limits. -/
theorem Limited.flushWrites (h : Limited p v) (c : Choice) (report : Bool) :
    Limited p (v.flushWrites c report) := by
  unfold Locals.flushWrites
  split_ifs
  · exact limited_writeOut h.writes.le h.reads h.calls c report
  · exact h

/-- The flush of the pending reads keeps the limits. -/
theorem Limited.flushReads (h : Limited p v) (c : Choice) (report : Bool) :
    Limited p (v.flushReads p c report) := by
  unfold Locals.flushReads
  split_ifs
  · exact limited_readOut h.writes h.reads.le h.batchSize_pos h.calls c report
  · exact h

/-- The end marker leaves the batches in place and keeps the limits. -/
theorem Limited.handleEnd (h : Limited p v) (c : Choice) : Limited p (v.handleEnd p c) := by
  have hwrite : Limited p (if v.batchSize ≠ 0 then v.dbWrite c false else v) := by
    split_ifs
    · exact ⟨h.writes, h.reads, within_append h.calls h.writes.le⟩
    · exact h
  unfold Locals.handleEnd
  dsimp only
  generalize (if v.batchSize ≠ 0 then v.dbWrite c false else v) = u at hwrite ⊢
  split_ifs
  · have hkeys := (List.length_map (KeySlice.resolve u.key)).trans_le hwrite.reads.le
    exact ⟨hwrite.writes, hwrite.reads, within_append hwrite.calls hkeys⟩
  · exact hwrite

/-- Handling a request keeps the limits: a batch that becomes full is executed at once. -/
theorem Limited.handle (h : Limited p v) (hledger : Ledger p slots v) (c : Choice)
    (r : AsyncRequest) : Limited p (v.handle p c r) := by
  by_cases hseq : r.seq = -1
  · rw [Locals.handle_end hseq]
    exact h.handleEnd c
  cases hwrite : r.write with
  | true =>
      have hwrites := h.writes
      have hlength : ((v.advance p r).put p v.seq).batch.length = v.batch.length + 1 := by
        simp [Locals.put, Locals.advance]
      have hsize : ((v.advance p r).put p v.seq).batchSize = v.batch.length + 1 :=
        congrArg (· + 1) hledger.size_eq
      rw [Locals.handle_write hseq hwrite]
      split_ifs with hfull
      · exact limited_writeOut (v := (v.advance p r).put p v.seq) (by omega) h.reads h.calls c true
      · exact ⟨by omega, h.reads, h.calls⟩
  | false =>
      have hflush := h.flushWrites c true
      rw [Locals.handle_read hseq hwrite]
      generalize v.flushWrites c true = u at hflush ⊢
      split_ifs
      · have hreads := hflush.reads
        have hlength : ((u.advance p r).pushKey p v.seq).mutligetKeys.length =
            u.mutligetKeys.length + 1 := by
          simp [Locals.pushKey, Locals.advance]
        rw [Locals.pointQuery_eq]
        split_ifs with hfull
        · exact limited_readOut (v := (u.advance p r).pushKey p v.seq) hflush.writes hfull.le
            hflush.batchSize_pos hflush.calls c true
        · exact ⟨hflush.writes, by omega, hflush.calls⟩
      · exact ⟨hflush.writes, hflush.reads, within_append hflush.calls trivial⟩

/-- With limits of 1 nothing is pending. -/
theorem Limited.nothing_pending (h : Limited p v) (hledger : Ledger p slots v)
    (hbatch : p.batchSize = 1) (hwriteBatch : p.writeBatchSize = 1) :
    v.batchReqs = [] ∧ v.batchSize = 0 ∧ v.reads = [] ∧ v.mutligetKeys = [] := by
  have hwrites := h.writes
  have hreads := h.reads
  have hsize := hledger.size_eq
  have hreqs := hledger.size
  have hkeys := hledger.keys
  rw [hwriteBatch, Nat.max_self] at hwrites
  refine ⟨List.length_eq_zero_iff.mp ?_, ?_, List.length_eq_zero_iff.mp ?_,
    List.length_eq_zero_iff.mp ?_⟩ <;> omega

/-- With limits of 1 a request is executed by one call of its own. -/
theorem Limited.handle_alone (h : Limited p v) (hledger : Ledger p slots v)
    (hbatch : p.batchSize = 1) (hwriteBatch : p.writeBatchSize = 1) (c : Choice)
    {r : AsyncRequest} (hseq : r.seq ≠ -1) :
    ∃ call, (v.handle p c r).calls = v.calls ++ [call] ∧ call.reqs = [v.seq] := by
  obtain ⟨hreqs, hsize, hreads, hkeys⟩ := h.nothing_pending hledger hbatch hwriteBatch
  cases hwrite : r.write with
  | true =>
      rw [Locals.handle_write hseq hwrite]
      have hfull : p.writeBatchSize ≤ ((v.advance p r).put p v.seq).batchSize := by
        simp [Locals.put, Locals.advance, hwriteBatch]
      simp only [if_pos hfull]
      refine ⟨_, rfl, ?_⟩
      simp [Call.reqs, Locals.put, Locals.advance, hreqs]
  | false =>
      have hflush : v.flushWrites c true = v := if_neg (not_not.mpr hsize)
      rw [Locals.handle_read hseq hwrite, hflush]
      split_ifs
      · have hfull : ((v.advance p r).pushKey p v.seq).mutligetKeys.length = p.batchSize := by
          simp [Locals.pushKey, Locals.advance, hkeys, hbatch]
        rw [Locals.pointQuery_eq, if_pos hfull]
        refine ⟨_, rfl, ?_⟩
        simp [Call.reqs, Locals.pushKey, Locals.advance, hreads]
      · exact ⟨_, rfl, rfl⟩

end Limits

namespace Worker

section Runs

variable {p : Params} {slots : Nat → AsyncRequest} {tail : Nat} {w w' : Worker} {c : Choice}

/-- A step keeps the limits. -/
theorem limited_step (h : Limited p w.vars) (hrunning : Running p slots tail w)
    (hstep : step p slots tail c w = some w') : Limited p w'.vars := by
  obtain ⟨_, hsame, _⟩ | ⟨_, rfl⟩ | ⟨_, rfl⟩ | ⟨r, hpc, rfl⟩ := step_cases hstep
  · rw [hsame]
    exact h
  · exact h.flushWrites c false
  · exact h.flushReads c false
  · exact h.handle (hrunning.ledger (by simp [hpc])) c r

/-- Every run keeps the limits. -/
theorem limited_reachable (hbatch : 1 ≤ p.batchSize)
    (h : (alone p slots tail).Reachable (fun _ _ => True) w) : Limited p w.vars :=
  h.invariant (I := fun w => Limited p w.vars) (limited_start hbatch)
    fun hs hold _ hstep => limited_step hold (running_of_reachable hs) hstep

/-- With limits of 1 the worker makes one call per request, in queue order, before it takes the next
one. -/
theorem alone_reachable (hbatch : p.batchSize = 1) (hwriteBatch : p.writeBatchSize = 1)
    (h : (alone p slots tail).Reachable (fun _ _ => True) w) :
    w.vars.calls.map Call.reqs = (List.range w.vars.seq).map fun i => [i] := by
  refine h.invariant
    (I := fun w => w.vars.calls.map Call.reqs = (List.range w.vars.seq).map fun i => [i]) rfl ?_
  intro w c w' hs hold _ hstep
  have hlimited := limited_reachable hbatch.ge hs
  have hrunning := running_of_reachable hs
  have hnothing : w.pc ≠ .exited →
      w.vars.batchReqs = [] ∧ w.vars.batchSize = 0 ∧ w.vars.reads = [] ∧ w.vars.mutligetKeys = [] :=
    fun hne => hlimited.nothing_pending (hrunning.ledger hne) hbatch hwriteBatch
  obtain ⟨_, hsame, _⟩ | ⟨hpc, rfl⟩ | ⟨hpc, rfl⟩ | ⟨r, hpc, rfl⟩ := step_cases hstep
  · rw [hsame]
    exact hold
  · obtain ⟨_, hsize, _, _⟩ := hnothing (by simp [hpc])
    have hidle : w.vars.flushWrites c false = w.vars := if_neg (not_not.mpr hsize)
    rw [hidle]
    exact hold
  · obtain ⟨_, _, _, hkeys⟩ := hnothing (by simp [hpc])
    have hnone : w.vars.mutligetKeys.length = 0 := by rw [hkeys, List.length_nil]
    have hidle : w.vars.flushReads p c false = w.vars := if_neg (not_not.mpr hnone)
    rw [hidle]
    exact hold
  · have hmoved := Locals.handle_seq p c w.vars r
    dsimp only
    by_cases hseq : r.seq = -1
    · -- the end marker finds nothing to execute
      obtain ⟨_, hsize, _, hkeys⟩ := hnothing (by simp [hpc])
      rw [if_pos hseq] at hmoved
      rw [hmoved, Locals.handle_end hseq]
      simpa [Locals.handleEnd, hsize, hkeys] using hold
    · have hledger := hrunning.ledger (by simp [hpc])
      obtain ⟨call, hcalls, hreqs⟩ := hlimited.handle_alone hledger hbatch hwriteBatch c hseq
      rw [if_neg hseq] at hmoved
      rw [hmoved, hcalls, List.map_append, hold, List.range_succ, List.map_append,
        List.map_singleton, List.map_singleton, hreqs]

/-- A worker at its loop test that is behind its tail can take the next request. -/
theorem reachable_take (h : (alone p slots tail).Reachable (fun _ _ => True) w)
    (hpc : w.pc = .loopHead) (hseq : w.vars.seq < tail) :
    (alone p slots tail).Reachable (fun _ _ => True)
      { w with
        pc := if (slots w.vars.seq).seq = -1 then .exited else .loopHead
        seen := tail
        vars := w.vars.handle p ⟨tail, .ok, fun _ => false⟩ (slots w.vars.seq) } := by
  have hseen := (running_of_reachable h).seen
  have hpoll : (alone p slots tail).step w ⟨tail, .ok, fun _ => false⟩ =
      some { w with pc := .fetch, seen := tail } := by
    show step p slots tail _ w = _
    simp only [step, hpc]
    refine poll_eq_some.mpr ⟨hseen, Nat.le_refl _, ?_⟩
    rw [if_neg (Nat.not_le.mpr hseq)]
  have hfetch : (alone p slots tail).step { w with pc := .fetch, seen := tail }
      ⟨tail, .ok, fun _ => false⟩ =
        some { w with pc := .handle (slots w.vars.seq), seen := tail } := rfl
  exact .step (.step (.step h trivial hpoll) trivial hfetch) trivial rfl

end Runs

/-- A queue of write requests. -/
def writesOnly : Nat → AsyncRequest :=
  fun _ => ⟨0, 0, -1, true⟩

/-- No request of this queue is an end marker. -/
theorem seq_writesOnly (i : Nat) : (writesOnly i).seq ≠ -1 := by
  show (0 : Int) ≠ -1
  omega

/-- A worker that finds enough write requests fills its batch one by one. -/
theorem exists_partial_batch (p : Params) {n : Nat} (hn : n < p.writeBatchSize) :
    ∃ w, (alone p writesOnly p.writeBatchSize).Reachable (fun _ _ => True) w ∧
      w.pc = .loopHead ∧ w.vars.seq = n ∧ w.vars.batch.length = n := by
  induction n with
  | zero => exact ⟨start p, .init, rfl, rfl, rfl⟩
  | succ n ih =>
      obtain ⟨w, hreach, hpc, hseq, hlength⟩ := ih (by omega)
      have hledger := (running_of_reachable hreach).ledger (by simp [hpc])
      have htake := reachable_take hreach hpc (by omega)
      have hqueued : w.vars.handle p ⟨p.writeBatchSize, .ok, fun _ => false⟩
          (writesOnly w.vars.seq) =
            (w.vars.advance p (writesOnly w.vars.seq)).put p w.vars.seq := by
        rw [Locals.handle_write (seq_writesOnly _) rfl]
        refine if_neg ?_
        show ¬ p.writeBatchSize ≤ w.vars.batchSize + 1
        rw [hledger.size_eq]
        omega
      rw [hqueued] at htake
      refine ⟨_, htake, rfl, congrArg (· + 1) hseq, ?_⟩
      simp [Locals.put, Locals.advance, hlength]

/-- So it writes a batch of `WRITE_BATCH_SIZE` records. -/
theorem exists_full_batch (p : Params) (hpos : 1 ≤ p.writeBatchSize) :
    ∃ w, (alone p writesOnly p.writeBatchSize).Reachable (fun _ _ => True) w ∧
      ∃ call ∈ w.vars.calls, call.batched = p.writeBatchSize := by
  obtain ⟨w, hreach, hpc, hseq, hlength⟩ :=
    exists_partial_batch p (Nat.sub_lt hpos Nat.one_pos)
  have hledger := (running_of_reachable hreach).ledger (by simp [hpc])
  have htake := reachable_take hreach hpc (by omega)
  have hfull : p.writeBatchSize ≤
      ((w.vars.advance p (writesOnly w.vars.seq)).put p w.vars.seq).batchSize := by
    show p.writeBatchSize ≤ w.vars.batchSize + 1
    rw [hledger.size_eq]
    omega
  rw [Locals.handle_write (seq_writesOnly _) rfl, if_pos hfull] at htake
  refine ⟨_, htake, _, List.mem_append_right _ (List.mem_singleton_self _), ?_⟩
  show (w.vars.batch ++ [_]).length = p.writeBatchSize
  rw [List.length_append, List.length_singleton]
  omega

end Worker

/-- No key vector has more than `BATCH_SIZE` requests, and no `WriteBatch` more than
`WRITE_BATCH_SIZE`, or one if that is zero. So no batch of any run has more than `BATCH_SIZE`
requests exactly if `BATCH_SIZE` is 1 or the budget of 4096 bytes holds at most `BATCH_SIZE`
records. With a `BATCH_SIZE` of 1 there is one call per request, in queue order, and nothing is
pending when the next request is taken. -/
theorem batch_size_respected {cfg : Config} (hbatch : 1 ≤ cfg.batchSize) :
    (∀ (opened : Instance) (slots : Nat → AsyncRequest) (tail : Nat) (w : Worker),
      (Worker.alone (cfg.params opened) slots tail).Reachable (fun _ _ => True) w →
      ∀ call ∈ w.vars.calls, Within (cfg.params opened) call) ∧
    ((∀ (opened : Instance) (slots : Nat → AsyncRequest) (tail : Nat) (w : Worker),
        (Worker.alone (cfg.params opened) slots tail).Reachable (fun _ _ => True) w →
        ∀ call ∈ w.vars.calls, call.batched ≤ cfg.batchSize) ↔
      cfg.batchSize = 1 ∨ 4096 / (cfg.keySize + cfg.valueSize) ≤ cfg.batchSize) ∧
    (cfg.batchSize = 1 →
      ∀ (opened : Instance) (slots : Nat → AsyncRequest) (tail : Nat) (w : Worker),
        (Worker.alone (cfg.params opened) slots tail).Reachable (fun _ _ => True) w →
        w.vars.calls.map Call.reqs = (List.range w.vars.seq).map (fun i => [i]) ∧
          w.vars.batch = [] ∧ w.vars.mutligetKeys = []) := by
  have hlimit : cfg.writeBatchSize ≤ cfg.batchSize ↔
      cfg.batchSize = 1 ∨ 4096 / (cfg.keySize + cfg.valueSize) ≤ cfg.batchSize := by
    unfold Config.writeBatchSize
    split_ifs with hone
    · simp [hone]
    · simp [hone]
  refine ⟨?_, ?_, ?_⟩
  · intro opened slots tail w h
    exact (Worker.limited_reachable hbatch h).calls
  · rw [← hlimit]
    constructor
    · intro hall
      refine Nat.le_of_not_lt fun hlt => ?_
      obtain ⟨w, hreach, call, hcall, hlength⟩ :=
        Worker.exists_full_batch (cfg.params .empty) (Nat.le_trans hbatch hlt.le)
      have hbound := hall .empty _ _ w hreach call hcall
      rw [hlength] at hbound
      exact Nat.not_lt.mpr hbound hlt
    · intro hle opened slots tail w h call hcall
      have hwithin := (Worker.limited_reachable hbatch h).calls call hcall
      cases call with
      | write reqs batch status =>
          exact Nat.le_trans hwithin (Nat.max_le.mpr ⟨hbatch, hle⟩)
      | multiGet reqs keys statuses => exact hwithin
      | newIterator req start size => exact Nat.zero_le _
  · intro hone opened slots tail w h
    have hwriteBatch : (cfg.params opened).writeBatchSize = 1 := if_pos hone
    have hlimited := Worker.limited_reachable hbatch h
    have hwrites := hlimited.writes
    have hreads : w.vars.mutligetKeys.length < cfg.batchSize := hlimited.reads
    rw [hwriteBatch, Nat.max_self] at hwrites
    refine ⟨Worker.alone_reachable hone hwriteBatch h, List.length_eq_zero_iff.mp ?_,
      List.length_eq_zero_iff.mp ?_⟩ <;> omega

/-- `Q8B32` with `VALUE_128`: the budget holds exactly 32 records. Two of them are pending when the
worker finds its queue empty. -/
theorem batch_size_respected_thirty_two :
    let cfg : Config := ⟨8, 32, 28, 100, 1000000, 100001, by decide⟩
    let w := (Worker.alone (cfg.params .empty) Worker.writesOnly 2).after
      (List.replicate 8 (.sees 2))
    w.vars.calls.map Call.reqs = [[0, 1]] ∧ ∀ call ∈ w.vars.calls, call.batched ≤ 32 := by
  intro cfg w
  have hbatch : 1 ≤ cfg.batchSize := by decide
  have hlimit : 4096 / (cfg.keySize + cfg.valueSize) ≤ cfg.batchSize := by decide
  have hreach : (Worker.alone (cfg.params .empty) Worker.writesOnly 2).Reachable
      (fun _ _ => True) w := System.reachable_after_free (by decide)
  exact ⟨by decide, (batch_size_respected hbatch).2.1.mpr (.inr hlimit) _ _ _ w hreach⟩

/-- `Q8B32` with `VALUE_64`: a worker that finds 64 writes in its queue writes them at once. -/
theorem batch_size_respected_small_values :
    let cfg : Config := ⟨8, 32, 28, 36, 1000000, 100001, by decide⟩
    ∃ w, (Worker.alone (cfg.params .empty) Worker.writesOnly 64).Reachable (fun _ _ => True) w ∧
      ∃ call ∈ w.vars.calls, call.batched = 64 ∧ cfg.batchSize < call.batched := by
  intro cfg
  have hlimit : (cfg.params .empty).writeBatchSize = 64 := by decide
  obtain ⟨w, hreach, call, hcall, hlength⟩ :=
    Worker.exists_full_batch (cfg.params .empty) (by decide)
  rw [hlimit] at hreach hlength
  refine ⟨w, hreach, call, hcall, hlength, ?_⟩
  rw [hlength]
  decide

end Ycsb

end P2KVS
