import P2KVS.Ycsb.Coverage
import P2KVS.Ycsb.Idle

/-!
# What a `ycsb.cpp` worker counts and prints

`found` is updated at nine places and a failure is printed at three of them. The calls that the
worker has made say what both should be: `processed` counts the requests that they completed, and
`failures` lists the statuses that were not OK. `found_eq_processed` and `printed_eq_failures` say
for which runs the worker gets them right, for every queue, every schedule and every outcome.
-/

namespace P2KVS

/-- The requests that a call completes on an instance with contents `db`: the records of a write
that succeeded, the lookups that succeeded, and the keys of a scan, at most as many as it asks
for. -/
def Call.processed (db : Instance) : Call → Nat
  | .write _ batch .ok => batch.length
  | .write _ _ _ => 0
  | .multiGet _ _ statuses => statuses.count .ok
  | .newIterator _ start size =>
      if 1 ≤ size then min size.toNat (db.keysFrom start).length else 0

/-- The requests that the calls complete on an instance that starts with the contents `db`. -/
def processed : Instance → List Call → Nat
  | _, [] => 0
  | db, call :: rest => call.processed db + processed (call.effect db) rest

/-- The last call finds the contents that the others have left. -/
theorem processed_append_singleton (db : Instance) (calls : List Call) (call : Call) :
    processed db (calls ++ [call]) = processed db calls + call.processed (contents db calls) := by
  induction calls generalizing db with
  | nil => simp [processed, contents]
  | cons first rest ih =>
      rw [List.cons_append, processed, ih, processed, Nat.add_assoc]
      rfl

/-- The statuses of a call that are not OK. -/
def Call.failures : Call → List Status
  | .write _ _ status => [status].filter (· ≠ .ok)
  | .multiGet _ _ statuses => statuses.filter (· ≠ .ok)
  | .newIterator _ _ _ => []

/-- The failures of the calls, in order. -/
def failures (calls : List Call) : List Status :=
  calls.flatMap Call.failures

/-- The failures of the last call come last. -/
theorem failures_append_singleton (calls : List Call) (call : Call) :
    failures (calls ++ [call]) = failures calls ++ call.failures := by
  simp [failures]

namespace Ycsb

open History Transition

namespace Locals

section Counting

variable (p : Params) {v : Locals}

/-- By how much `found` exceeds what has been processed. -/
def surplus (v : Locals) : Int :=
  v.found - processed p.opened v.calls

/-- A write is counted right. -/
theorem surplus_dbWrite (hsize : v.batchSize = v.batch.length) (c : Choice) (report : Bool) :
    (v.dbWrite c report).surplus p = v.surplus p := by
  simp only [surplus, dbWrite, processed_append_singleton]
  cases c.writeStatus with
  | ok =>
      show ((v.found + v.batchSize : Nat) : Int) -
        (processed p.opened v.calls + v.batch.length : Nat) = _
      omega
  | notFound => rfl
  | ioError => rfl

/-- Lookups are counted right. -/
theorem surplus_dbMultiGet (v : Locals) (c : Choice) (report : Bool) :
    (v.dbMultiGet p c report).surplus p = v.surplus p := by
  simp only [surplus, dbMultiGet, processed_append_singleton, Call.processed]
  omega

/-- The scan asks for at least one key and for no more than there are. -/
def Covers (db : Instance) (start : Slice) (size : Int) : Prop :=
  1 ≤ size ∧ size ≤ (db.keysFrom start).length

/-- Whether a scan is covered can be computed. -/
instance (db : Instance) (start : Slice) (size : Int) : Decidable (Covers db start size) :=
  inferInstanceAs (Decidable (_ ∧ _))

/-- A scan counts one key too many unless it finds as many keys as it asks for. -/
theorem surplus_scan (v : Locals) (pos : Nat) (r : AsyncRequest) :
    (Covers (v.db p) ((KeySlice.mk p.keySize).resolve v.key) r.scanSize →
      (v.scan p pos r).surplus p = v.surplus p) ∧
    (¬ Covers (v.db p) ((KeySlice.mk p.keySize).resolve v.key) r.scanSize →
      (v.scan p pos r).surplus p = v.surplus p + 1) := by
  have hfound := found_scan p pos r v
  rw [length_scanSteps] at hfound
  simp only [surplus, hfound]
  simp only [scan, processed_append_singleton, Call.processed, Covers]
  rw [show contents p.opened v.calls = v.db p from rfl]
  generalize ((v.db p).keysFrom _).length = m
  split_ifs with hpos
  · constructor <;> intro h <;> omega
  · constructor <;> intro h <;> omega

variable {p} {slots : Nat → AsyncRequest}

/-- Flushed writes are counted right. -/
theorem surplus_flushWrites (h : Ledger p slots v) (c : Choice) (report : Bool) :
    (v.flushWrites c report).surplus p = v.surplus p := by
  unfold flushWrites
  split_ifs
  · exact surplus_dbWrite p h.size_eq c report
  · rfl

/-- Flushed reads are counted right. -/
theorem surplus_flushReads (v : Locals) (c : Choice) (report : Bool) :
    (v.flushReads p c report).surplus p = v.surplus p := by
  unfold flushReads
  split_ifs
  · exact surplus_dbMultiGet p v c report
  · rfl

/-- The request, if it is a scan, asks for as many keys as its start key has in the instance behind
the flush of the pending writes. -/
def ScanCovered (p : Params) (c : Choice) (r : AsyncRequest) (v : Locals) : Prop :=
  r.seq ≠ -1 → r.write = false → r.scanSize ≠ -1 →
    Covers ((v.flushWrites c true).db p) (generateKeyFromInt p.keySize r.key) r.scanSize

/-- Whether a request is covered can be computed. -/
instance (p : Params) (c : Choice) (r : AsyncRequest) (v : Locals) :
    Decidable (v.ScanCovered p c r) :=
  inferInstanceAs (Decidable (_ → _))

/-- Only a scan that is not covered is counted wrong, by one. -/
theorem surplus_handle (h : Ledger p slots v) (c : Choice) (r : AsyncRequest) :
    (ScanCovered p c r v → (v.handle p c r).surplus p = v.surplus p) ∧
      (¬ ScanCovered p c r v → (v.handle p c r).surplus p = v.surplus p + 1) := by
  by_cases hseq : r.seq = -1
  · have hend : (v.handle p c r).surplus p = v.surplus p := by
      rw [handle_end hseq]
      have hflush := (surplus_flushReads (v.flushWrites c false) c false).trans
        (surplus_flushWrites h c false)
      rw [← h.handleEnd_eq c] at hflush
      exact hflush
    exact ⟨fun _ => hend, fun hnot => absurd (fun hne => absurd hseq hne) hnot⟩
  cases hwrite : r.write with
  | true =>
      have hput : (v.handle p c r).surplus p = v.surplus p := by
        have hsize : ((v.advance p r).put p v.seq).batchSize =
            ((v.advance p r).put p v.seq).batch.length := by
          simp [put, advance, h.size_eq]
        rw [handle_write hseq hwrite]
        split_ifs
        · exact surplus_dbWrite p hsize c true
        · rfl
      exact ⟨fun _ => hput, fun hnot => absurd (fun _ hread => by simp [hwrite] at hread) hnot⟩
  | false =>
      have hflush := surplus_flushWrites h c true
      rw [handle_read hseq hwrite]
      split_ifs with hsize
      · have hquery : (((v.flushWrites c true).advance p r).pointQuery p c v.seq).surplus p =
            v.surplus p := by
          rw [← hflush, pointQuery_eq]
          split_ifs
          · exact surplus_dbMultiGet p _ c true
          · rfl
        exact ⟨fun _ => hquery, fun hnot => absurd (fun _ _ hscan => absurd hsize hscan) hnot⟩
      · have hscan := surplus_scan p ((v.flushWrites c true).advance p r) v.seq r
        have hkey : (KeySlice.mk p.keySize).resolve ((v.flushWrites c true).advance p r).key =
            generateKeyFromInt p.keySize r.key :=
          List.take_of_length_le (length_generateKeyFromInt _ _).le
        rw [hkey] at hscan
        rw [← hflush]
        exact ⟨fun hcovered => hscan.1 (hcovered hseq hwrite hsize),
          fun hnot => hscan.2 fun hcovered => hnot fun _ _ _ => hcovered⟩

end Counting

section Printing

variable {p : Params} {v u : Locals}

/-- The failures of the calls on the way from `v` to `u` are printed. -/
def Reports (v u : Locals) : Prop :=
  ∃ made, u.printed = v.printed ++ made ∧ failures u.calls = failures v.calls ++ made

/-- The failures of the calls on the way from `v` to `u` are `lost` and nothing is printed. -/
def Loses (lost : List Status) (v u : Locals) : Prop :=
  u.printed = v.printed ∧ failures u.calls = failures v.calls ++ lost

/-- Without a call there is nothing to print. -/
theorem reports_refl (v : Locals) : Reports v v :=
  ⟨[], (List.append_nil _).symm, (List.append_nil _).symm⟩

/-- Without a call there is nothing to lose. -/
theorem loses_nil (v : Locals) : Loses [] v v :=
  ⟨rfl, (List.append_nil _).symm⟩

/-- One report after another. -/
theorem Reports.trans {t : Locals} (h : Reports v u) (h' : Reports u t) : Reports v t := by
  obtain ⟨made, hprinted, hfailures⟩ := h
  obtain ⟨made', hprinted', hfailures'⟩ := h'
  refine ⟨made ++ made', ?_, ?_⟩
  · rw [hprinted', hprinted, List.append_assoc]
  · rw [hfailures', hfailures, List.append_assoc]

/-- One loss after another. -/
theorem Loses.trans {t : Locals} {lost lost' : List Status} (h : Loses lost v u)
    (h' : Loses lost' u t) : Loses (lost ++ lost') v t := by
  refine ⟨h'.1.trans h.1, ?_⟩
  rw [h'.2, h.2, List.append_assoc]

/-- The failure of the pending writes, if there are any. -/
def writeFailures (c : Choice) (v : Locals) : List Status :=
  if v.batchSize ≠ 0 then [c.writeStatus].filter (· ≠ .ok) else []

/-- The failures of the pending lookups. -/
def lookupFailures (p : Params) (c : Choice) (v : Locals) : List Status :=
  (multiGetStatuses (v.db p) c.lookupFails (v.mutligetKeys.map (KeySlice.resolve v.key))).filter
    (· ≠ .ok)

/-- A write with a report prints its failure. -/
theorem reports_dbWrite (v : Locals) (c : Choice) : Reports v (v.dbWrite c true) := by
  refine ⟨[c.writeStatus].filter (· ≠ .ok), ?_, failures_append_singleton _ _⟩
  by_cases hok : c.writeStatus = .ok <;> simp [dbWrite, hok]

/-- A write without a report loses its failure. -/
theorem loses_dbWrite (v : Locals) (c : Choice) :
    Loses ([c.writeStatus].filter (· ≠ .ok)) v (v.dbWrite c false) :=
  ⟨by simp [dbWrite], failures_append_singleton _ _⟩

/-- Lookups with a report print their failures. -/
theorem reports_dbMultiGet (p : Params) (v : Locals) (c : Choice) :
    Reports v (v.dbMultiGet p c true) :=
  ⟨v.lookupFailures p c, rfl, failures_append_singleton _ _⟩

/-- Lookups without a report lose their failures. -/
theorem loses_dbMultiGet (p : Params) (v : Locals) (c : Choice) :
    Loses (v.lookupFailures p c) v (v.dbMultiGet p c false) :=
  ⟨by simp [dbMultiGet], failures_append_singleton _ _⟩

/-- The flush before a read prints the failure of the pending writes. -/
theorem reports_flushWrites (v : Locals) (c : Choice) : Reports v (v.flushWrites c true) := by
  unfold flushWrites
  split_ifs
  · exact reports_dbWrite v c
  · exact reports_refl v

/-- The idle flush loses the failure of the pending writes. -/
theorem loses_flushWrites (v : Locals) (c : Choice) :
    Loses (v.writeFailures c) v (v.flushWrites c false) := by
  unfold flushWrites writeFailures
  split_ifs
  · exact loses_dbWrite v c
  · exact loses_nil v

/-- The idle flush loses the failures of the pending lookups. -/
theorem loses_flushReads (p : Params) (v : Locals) (c : Choice) :
    Loses (v.lookupFailures p c) v (v.flushReads p c false) := by
  unfold flushReads
  split_ifs with hkeys
  · exact loses_dbMultiGet p v c
  · have hnone : v.lookupFailures p c = [] := by
      rw [lookupFailures, List.length_eq_zero_iff.mp (not_not.mp hkeys)]
      rfl
    rw [hnone]
    exact loses_nil v

/-- The end marker loses the failures of both batches. -/
theorem loses_handleEnd {slots : Nat → AsyncRequest} (h : Ledger p slots v) (c : Choice) :
    Loses (v.writeFailures c ++ (v.flushWrites c false).lookupFailures p c) v
      (v.handleEnd p c) := by
  have hflush := (loses_flushWrites v c).trans (loses_flushReads p (v.flushWrites c false) c)
  rw [← h.handleEnd_eq c] at hflush
  exact hflush

/-- A request that is not the end marker is handled with a report of every failure. -/
theorem reports_handle {r : AsyncRequest} (hseq : r.seq ≠ -1) (v : Locals) (c : Choice) :
    Reports v (v.handle p c r) := by
  cases hwrite : r.write with
  | true =>
      rw [handle_write hseq hwrite]
      split_ifs
      · exact reports_dbWrite ((v.advance p r).put p v.seq) c
      · exact reports_refl v
  | false =>
      have hflush := reports_flushWrites v c
      rw [handle_read hseq hwrite]
      split_ifs
      · refine hflush.trans ?_
        rw [pointQuery_eq]
        split_ifs
        · exact reports_dbMultiGet p (((v.flushWrites c true).advance p r).pushKey p v.seq) c
        · exact reports_refl _
      · -- a scan has no status
        exact hflush.trans ⟨[], (List.append_nil _).symm, failures_append_singleton _ _⟩

end Printing

end Locals

namespace Worker

/-- The step about to be made is not a scan that asks for less than one key or for more than there
are. -/
def Covered (p : Params) (w : Worker) (c : Choice) : Prop :=
  match w.pc with
  | .handle r => w.vars.ScanCovered p c r
  | _ => True

/-- Whether a step is covered can be computed. -/
instance decidableCovered (p : Params) : (w : Worker) → (c : Choice) → Decidable (Covered p w c)
  | ⟨.handle r, _, _, vars⟩, c => inferInstanceAs (Decidable (vars.ScanCovered p c r))
  | ⟨.loopHead, _, _, _⟩, _ | ⟨.idleWrite, _, _, _⟩, _ | ⟨.idleRead, _, _, _⟩, _
  | ⟨.idle, _, _, _⟩, _ | ⟨.wait, _, _, _⟩, _ | ⟨.wake, _, _, _⟩, _ | ⟨.fetch, _, _, _⟩, _
  | ⟨.exited, _, _, _⟩, _ => .isTrue trivial

section Steps

variable {p : Params} {slots : Nat → AsyncRequest} {tail : Nat} {c : Choice} {w w' : Worker}

/-- A step changes the surplus only by a scan that is not covered. -/
theorem surplus_step (h : Running p slots tail w) (hstep : step p slots tail c w = some w') :
    (Covered p w c → w'.vars.surplus p = w.vars.surplus p) ∧
      (¬ Covered p w c → w.vars.surplus p < w'.vars.surplus p) := by
  obtain ⟨hquiet, hsame, _⟩ | ⟨hpc, rfl⟩ | ⟨hpc, rfl⟩ | ⟨r, hpc, rfl⟩ := step_cases hstep
  · have hcovered : Covered p w c := by
      unfold Covered
      split
      case h_1 hpc => simp [hpc, Pc.quiet] at hquiet
      case h_2 => trivial
    rw [hsame]
    exact ⟨fun _ => rfl, fun hnot => absurd hcovered hnot⟩
  · have hcovered : Covered p w c := by simp only [Covered, hpc]
    have hflush := Locals.surplus_flushWrites (h.ledger (by simp [hpc])) c false
    exact ⟨fun _ => hflush, fun hnot => absurd hcovered hnot⟩
  · have hcovered : Covered p w c := by simp only [Covered, hpc]
    exact ⟨fun _ => Locals.surplus_flushReads w.vars c false, fun hnot => absurd hcovered hnot⟩
  · have hcovered : Covered p w c ↔ w.vars.ScanCovered p c r := by simp only [Covered, hpc]
    have hhandle := Locals.surplus_handle (h.ledger (by simp [hpc])) c r
    rw [hcovered]
    refine ⟨hhandle.1, fun hnot => ?_⟩
    rw [hhandle.2 hnot]
    omega

/-- The failures of the calls of the next step that the code does not print: those of the idle
flushes and those of the end marker. -/
def unprinted (p : Params) (w : Worker) (c : Choice) : List Status :=
  match w.pc with
  | .idleWrite => w.vars.writeFailures c
  | .idleRead => w.vars.lookupFailures p c
  | .handle r =>
      if r.seq = -1 then
        w.vars.writeFailures c ++ (w.vars.flushWrites c false).lookupFailures p c
      else []
  | _ => []

/-- A step prints the failures of its calls, or it prints nothing and loses `unprinted`. -/
theorem printed_step (h : Running p slots tail w) (hstep : step p slots tail c w = some w') :
    unprinted p w c = [] ∧ w.vars.Reports w'.vars ∨
      Locals.Loses (unprinted p w c) w.vars w'.vars := by
  obtain ⟨hquiet, hsame, _⟩ | ⟨hpc, rfl⟩ | ⟨hpc, rfl⟩ | ⟨r, hpc, rfl⟩ := step_cases hstep
  · have hnone : unprinted p w c = [] := by
      unfold unprinted
      split <;> simp_all [Pc.quiet]
    rw [hnone, hsame]
    exact .inr (Locals.loses_nil _)
  · simp only [unprinted, hpc]
    exact .inr (Locals.loses_flushWrites w.vars c)
  · simp only [unprinted, hpc]
    exact .inr (Locals.loses_flushReads p w.vars c)
  · by_cases hseq : r.seq = -1
    · have hend := Locals.loses_handleEnd (h.ledger (by simp [hpc])) c
      rw [← Locals.handle_end hseq] at hend
      simp only [unprinted, hpc, if_pos hseq]
      exact .inr hend
    · simp only [unprinted, hpc, if_neg hseq]
      exact .inl ⟨trivial, Locals.reports_handle hseq w.vars c⟩

/-- The number of failures that have not been printed. -/
def loss (w : Worker) : Int :=
  (failures w.vars.calls).length - w.vars.printed.length

/-- A step adds the failures it does not print to the loss. -/
theorem loss_step (h : Running p slots tail w) (hstep : step p slots tail c w = some w') :
    w'.loss = w.loss + (unprinted p w c).length := by
  unfold loss
  obtain ⟨hnone, made, hprinted, hfailures⟩ | ⟨hprinted, hfailures⟩ := printed_step h hstep
  · rw [hnone, hprinted, hfailures, List.length_append, List.length_append, List.length_nil]
    omega
  · rw [hprinted, hfailures, List.length_append]
    omega

end Steps

end Worker

/-- In every run of a worker, `found` equals the number of requests processed exactly if the run
consists of covered steps: every scan, when it is executed, asks for at least one key and for no
more keys than the instance holds at or past its start. -/
theorem found_eq_processed {p : Params} {slots : Nat → AsyncRequest} {tail : Nat} {w : Worker}
    (h : (Worker.alone p slots tail).Reachable (fun _ _ => True) w) :
    w.vars.found = processed p.opened w.vars.calls ↔
      (Worker.alone p slots tail).Reachable (Worker.Covered p) w := by
  have hdebt : w.vars.surplus p = 0 ↔
      (Worker.alone p slots tail).Reachable (Worker.Covered p) w :=
    h.debt_eq_zero_iff (fun w => w.vars.surplus p) rfl
      (fun hs ha ht => (Worker.surplus_step (Worker.running_of_reachable hs) ht).1 ha)
      (fun hs ha ht => (Worker.surplus_step (Worker.running_of_reachable hs) ht).2 ha)
  rw [← hdebt, Locals.surplus]
  omega

/-- A worker of an instance with one key. -/
def oneKey : Params where
  batchSize := 32
  writeBatchSize := 32
  keySize := 28
  value := []
  opened := ⟨[(generateKeyFromInt 28 0, [])], List.pairwise_singleton _ _⟩

/-- A queue with a scan from the only key. -/
def scanQueue (size : Int) : Nat → AsyncRequest :=
  fun i => [⟨0, 0, size, false⟩, ⟨0, -1, -1, false⟩].getD i .blank

/-- The steps of a worker that finds the whole queue. -/
def scanRun : List Choice :=
  List.replicate 6 ⟨2, .ok, fun _ => false⟩

/-- A queue with an insert of a second key, a read of the first one, and a scan over both. -/
def mixedQueue : Nat → AsyncRequest :=
  fun i => [⟨1, 0, -1, true⟩, ⟨0, 1, -1, false⟩, ⟨0, 2, 2, false⟩, ⟨0, -1, -1, false⟩].getD i .blank

/-- The steps of a worker that finds all of it. -/
def mixedQueueRun : List Choice :=
  List.replicate 12 ⟨4, .ok, fun _ => false⟩

/-- The worker counts the insert, the read and the two keys of the scan. -/
theorem found_eq_processed_mixed :
    let w := (Worker.alone oneKey mixedQueue 4).after mixedQueueRun
    w.pc = .exited ∧ w.vars.found = 4 ∧ w.vars.found = processed oneKey.opened w.vars.calls := by
  intro w
  have hcovered : (Worker.alone oneKey mixedQueue 4).Reachable (Worker.Covered oneKey) w :=
    System.reachable_after (by decide) (by decide)
  exact ⟨by decide, by decide,
    (found_eq_processed (System.reachable_after_free (by decide))).mpr hcovered⟩

/-- A scan of two keys where there is one: the end of the instance is counted as a key. -/
theorem found_eq_processed_past_end :
    let w := (Worker.alone oneKey (scanQueue 2) 2).after scanRun
    (Worker.alone oneKey (scanQueue 2) 2).Reachable (fun _ _ => True) w ∧ w.pc = .exited ∧
      w.vars.found = 2 ∧ processed oneKey.opened w.vars.calls = 1 := by
  intro w
  exact ⟨System.reachable_after_free (by decide), by decide, by decide, by decide⟩

/-- In every run of a worker, the failures of its calls are printed, each once and in order, exactly
if the run consists of steps that leave no failure unprinted: every idle flush and the calls of the
end marker succeed. -/
theorem printed_eq_failures {p : Params} {slots : Nat → AsyncRequest} {tail : Nat} {w : Worker}
    (h : (Worker.alone p slots tail).Reachable (fun _ _ => True) w) :
    w.vars.printed = failures w.vars.calls ↔
      (Worker.alone p slots tail).Reachable (fun w c => Worker.unprinted p w c = []) w := by
  constructor
  · intro hprinted
    refine (h.debt_eq_zero_iff Worker.loss rfl ?_ ?_).mp ?_
    · intro s c t hs hnone hstep
      rw [Worker.loss_step (Worker.running_of_reachable hs) hstep, hnone]
      exact Int.add_zero _
    · intro s c t hs hsome hstep
      have hpos := List.length_pos_iff.mpr hsome
      rw [Worker.loss_step (Worker.running_of_reachable hs) hstep]
      omega
    · rw [Worker.loss, hprinted]
      omega
  · intro hreported
    refine hreported.invariant (I := fun w => w.vars.printed = failures w.vars.calls) rfl ?_
    intro w c w' hs hprinted hnone hstep
    have hrunning := Worker.running_of_reachable (hs.mono fun _ _ _ => trivial)
    obtain ⟨_, made, hmade, hfailures⟩ | ⟨hsame, hfailures⟩ := Worker.printed_step hrunning hstep
    · rw [hmade, hfailures, hprinted]
    · rw [hsame, hfailures, hnone, hprinted, List.append_nil]

/-- A queue with an update and a read of one key. -/
def updateQueue : Nat → AsyncRequest :=
  fun i => [⟨0, 0, -1, true⟩, ⟨0, 1, -1, false⟩, ⟨0, -1, -1, false⟩].getD i .blank

/-- The worker finds the whole queue; the write fails when the read flushes it. -/
def eagerRun : List Choice :=
  List.replicate 9 ⟨3, .ioError, fun _ => false⟩

/-- The worker finds the update alone; the write fails when the worker becomes idle. -/
def idleRun : List Choice :=
  List.replicate 7 ⟨1, .ioError, fun _ => false⟩ ++
    List.replicate 7 ⟨3, .ioError, fun _ => false⟩

/-- A failed write that is flushed by a read is printed. -/
theorem printed_eq_failures_eager :
    let w := (Worker.alone oneKey updateQueue 3).after eagerRun
    w.pc = .exited ∧ failures w.vars.calls = [.ioError] ∧
      w.vars.printed = failures w.vars.calls := by
  intro w
  have hreported : (Worker.alone oneKey updateQueue 3).Reachable
      (fun w c => Worker.unprinted oneKey w c = []) w :=
    System.reachable_after (by decide) (by decide)
  have hreach : (Worker.alone oneKey updateQueue 3).Reachable (fun _ _ => True) w :=
    System.reachable_after_free (by decide)
  exact ⟨by decide, by decide, (printed_eq_failures hreach).mpr hreported⟩

/-- The same queue with the same outcomes of its calls: one schedule prints the failed write, the
other one prints nothing. -/
theorem printed_eq_failures_idle :
    let eager := (Worker.alone oneKey updateQueue 3).after eagerRun
    let idle := (Worker.alone oneKey updateQueue 3).after idleRun
    ((Worker.alone oneKey updateQueue 3).Reachable (fun _ _ => True) eager ∧
      (Worker.alone oneKey updateQueue 3).Reachable (fun _ _ => True) idle) ∧
    (eager.pc = .exited ∧ idle.pc = .exited ∧ idle.vars.calls = eager.vars.calls) ∧
      failures idle.vars.calls = [.ioError] ∧ eager.vars.printed = [.ioError] ∧
      idle.vars.printed = [] := by
  intro eager idle
  have heager : (Worker.alone oneKey updateQueue 3).Reachable (fun _ _ => True)
      ((Worker.alone oneKey updateQueue 3).after eagerRun) :=
    System.reachable_after_free (by decide)
  have hidle : (Worker.alone oneKey updateQueue 3).Reachable (fun _ _ => True)
      ((Worker.alone oneKey updateQueue 3).after idleRun) :=
    System.reachable_after_free (by decide)
  exact ⟨⟨heager, hidle⟩, ⟨by decide, by decide, by decide +kernel⟩, by decide, by decide,
    by decide⟩

end Ycsb

end P2KVS
