import P2KVS.Ycsb.Writes

/-!
# Parallel scans of `ycsb.cpp`: one consistent cut

With `MULTISCAN` a scan command goes to every queue, and each worker runs its part on its own
instance at its own time. The parts still read one cut of the trace: the iterator of each worker
sees exactly the writes of the commands in front of the scan.
-/

namespace P2KVS.Ycsb

open Channel History Sorted Transition

section Worker

variable {cfg : Config} {earlier later : List Command} {scan : Command} {init : Nat → Instance}
  {s : State AsyncRequest Worker} {q : Nat}

/-- A scan command puts its request into every queue. -/
theorem request_scan (hscan : scan.cmd = 'S') (ops : Nat) :
    request cfg q ops scan = some (fillScan ops scan.key scan.scanSize.toInt .blank) := by
  simp [request, Command.isPut, hscan]

/-- A scan command of positive size puts a scan request into every queue. -/
theorem isScan_position (hq : q < cfg.queueNum) (hscan : scan.cmd = 'S')
    (hsize : 1 ≤ scan.scanSize.toInt) :
    isScan ((pipeline cfg (earlier ++ scan :: later) init).view q) (position cfg q earlier) =
      true := by
  have hne : scan.scanSize.toInt ≠ -1 := by omega
  rw [isScan, view_position hq (request_scan hscan _)]
  simpa [fillScan] using hne

/-- The instance of worker `q`, when the worker creates the iterator for a scan, holds its initial
keys and those that the commands in front of the scan have put into its residue class. -/
theorem mem_keys_at_scan
    (hfit : (pipeline cfg (earlier ++ scan :: later) init).Fits)
    (h : (pipeline cfg (earlier ++ scan :: later) init).system.Reachable WritesSucceed s)
    (hq : q < cfg.queueNum) {before after : List Call} {start : Slice} {size : Int}
    (hcalls : (s.workers q).vars.calls =
      before ++ .newIterator (position cfg q earlier) start size :: after) (k : Slice) :
    k ∈ (contents (init q) before).keys ↔ k ∈ (init q).keys ∨
      ∃ c ∈ earlier.filter (putTo cfg q), generateKeyFromInt cfg.keySize c.key = k := by
  have hinv := worker_ordered hfit h hq
  rw [mem_keys_of_applied (hinv.records_front hcalls), hinv.scan_fresh hcalls, or_comm]
  refine or_congr_right ⟨?_, ?_⟩
  · intro hkey
    obtain ⟨i, hi, rfl⟩ := hkey
    obtain ⟨hlt, hwrite⟩ := mem_positions.mp hi
    exact command_of_write hq hlt hwrite
  · intro hkey
    obtain ⟨c, hc, rfl⟩ := hkey
    obtain ⟨i, hlt, hwrite, hrecord⟩ := write_of_command (scan :: later) init hq hc
    exact ⟨i, mem_positions.mpr ⟨hlt, hwrite⟩, hrecord⟩

end Worker

/-- The parts of a parallel scan read one consistent cut. Let `cut q` be the calls of worker `q` in
front of the iterator that serves the scan command. Then each instance holds there its initial keys
and those of the updates and inserts of its residue class in front of the scan, and the union over
all instances holds the initial keys and those of all updates and inserts in front of the scan. A
worker that has exited has created exactly one iterator for the command. -/
theorem scan_reads_consistent_cut {cfg : Config} {earlier later : List Command} {scan : Command}
    {init : Nat → Instance} {s : State AsyncRequest Worker} (hscan : scan.cmd = 'S')
    (hsize : 1 ≤ scan.scanSize.toInt)
    (hfit : (pipeline cfg (earlier ++ scan :: later) init).Fits)
    (h : (pipeline cfg (earlier ++ scan :: later) init).system.Reachable WritesSucceed s) :
    (∀ cut : Nat → List Call,
      (∀ q < cfg.queueNum, ∃ start size after, (s.workers q).vars.calls =
        cut q ++ .newIterator (position cfg q earlier) start size :: after) →
      (∀ q < cfg.queueNum, ∀ k, k ∈ (contents (init q) (cut q)).keys ↔ k ∈ (init q).keys ∨
        ∃ c ∈ earlier, c.isPut ∧ c.key.toNat % cfg.queueNum = q ∧
          generateKeyFromInt cfg.keySize c.key = k) ∧
      ∀ k, (∃ q < cfg.queueNum, k ∈ (contents (init q) (cut q)).keys) ↔
        (∃ q < cfg.queueNum, k ∈ (init q).keys) ∨
          ∃ c ∈ earlier, c.isPut ∧ generateKeyFromInt cfg.keySize c.key = k) ∧
    ∀ q < cfg.queueNum, (s.workers q).pc = .exited →
      ((s.workers q).vars.calls.flatMap Call.scanReqs).count (position cfg q earlier) = 1 := by
  refine ⟨fun cut hcut => ?_, fun q hq hexit => ?_⟩
  · have hinstance : ∀ q < cfg.queueNum, ∀ k, k ∈ (contents (init q) (cut q)).keys ↔
        k ∈ (init q).keys ∨ ∃ c ∈ earlier, c.isPut ∧ c.key.toNat % cfg.queueNum = q ∧
          generateKeyFromInt cfg.keySize c.key = k := by
      intro q hq k
      obtain ⟨start, size, after, hcalls⟩ := hcut q hq
      rw [mem_keys_at_scan hfit h hq hcalls]
      simp only [List.mem_filter, putTo_iff, and_assoc]
    refine ⟨hinstance, fun k => ⟨?_, ?_⟩⟩
    · intro hkey
      obtain ⟨q, hq, hk⟩ := hkey
      rcases (hinstance q hq k).mp hk with hold | ⟨c, hc, hput, _, hkey⟩
      · exact .inl ⟨q, hq, hold⟩
      · exact .inr ⟨c, hc, hput, hkey⟩
    · intro hk
      obtain ⟨q, hq, hold⟩ | ⟨c, hc, hput, hkey⟩ := hk
      · exact ⟨q, hq, (hinstance q hq k).mpr (.inl hold)⟩
      · -- the instance that holds the key is the one of its residue class
        have hq := cfg.queueOf_lt c.key
        exact ⟨_, hq, (hinstance _ hq k).mpr (.inr ⟨c, hc, hput, rfl, hkey⟩)⟩
  · have hinv := worker_ordered hfit h hq
    have hseq := eq_position hq hinv.real (hinv.marker hexit)
    have hscans := hinv.ledger.scans
    rw [Worker.settled_calls, Worker.settled_seq] at hscans
    rw [hscans]
    refine List.count_eq_one_of_mem (positions_nodup _ _) (mem_positions.mpr ⟨?_, ?_⟩)
    · rw [hseq, position, position, requests_append, requests, request_scan hscan]
      simp
    · exact isScan_position hq hscan hsize

/-- The program on a trace that inserts key 3, scans from key 0 and inserts key 2. -/
def insertThenScan : Pipeline AsyncRequest Worker Choice :=
  pipeline smallConfig ([⟨3, 0, 'I'⟩] ++ ⟨0, 10, 'S'⟩ :: [⟨2, 0, 'I'⟩]) (fun _ => .empty)

/-- Worker 0 takes its three requests before worker 1 takes its own. -/
def insertThenScanRun : List (Action Choice) :=
  List.replicate 12 .dispatch ++ taking [(0, 3), (0, 3), (0, 3), (1, 3), (1, 3), (1, 3)]

/-- Both workers scan behind the insert of key 3 and before the insert of key 2. -/
theorem scan_reads_consistent_cut_insert :
    let final := insertThenScan.system.after insertThenScanRun
    let cut := fun q =>
      if q = 1 then [Call.write [0] [(generateKeyFromInt 28 3, smallConfig.value)] .ok] else []
    (∀ q < 2, ∃ start size after, (final.workers q).vars.calls =
      cut q ++ .newIterator (position smallConfig q [⟨3, 0, 'I'⟩]) start size :: after) ∧
    ∀ k, (∃ q < 2, k ∈ (contents .empty (cut q)).keys) ↔
      (∃ q < 2, k ∈ (SortedMap.empty : Instance).keys) ∨
        ∃ c ∈ [(⟨3, 0, 'I'⟩ : Command)], c.isPut ∧ generateKeyFromInt 28 c.key = k := by
  intro final cut
  have hreach : insertThenScan.system.Reachable WritesSucceed final :=
    System.reachable_after (by decide) (by decide)
  have hfit : insertThenScan.Fits := by decide
  have hcut : ∀ q < 2, ∃ start size after, (final.workers q).vars.calls =
      cut q ++ .newIterator (position smallConfig q [⟨3, 0, 'I'⟩]) start size :: after := by
    intro q hq
    refine ⟨generateKeyFromInt 28 0, 10, (final.workers q).vars.calls.drop ((cut q).length + 1), ?_⟩
    revert q
    decide
  exact ⟨hcut, ((scan_reads_consistent_cut rfl (by decide) hfit hreach).1 cut hcut).2⟩

end P2KVS.Ycsb
