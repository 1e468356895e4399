import P2KVS.WriteTest.Batching
import P2KVS.Ycsb.Capacity
import P2KVS.Ycsb.Idle

/-!
# What the workers report

A worker that has met its end marker divides its running time by the number of its requests, and the
worker of `write_test.cpp` first evaluates per-request statistics. Neither looks at how many
requests there were. `average_defined` and `epilogue_in_bounds` say for which runs the reports are
defined: the average needs a queue that has received a request, and the statistics need one that has
not, because the code that stores `batch_pos` is commented out.
-/

namespace P2KVS

open Channel Transition

/-- `atime / seq`, which is undefined for `seq = 0`. -/
def average (atime seq : Nat) : Option Nat :=
  if seq = 0 then none else some (atime / seq)

/-- The average is defined when there was a request. -/
theorem isSome_average {atime seq : Nat} : (average atime seq).isSome ↔ 0 < seq := by
  unfold average
  split_ifs with hseq
  · simp [hseq]
  · simpa using Nat.pos_of_ne_zero hseq

namespace Ycsb

/-- A worker exits when it has taken the requests of its queue. -/
theorem seq_of_exited {cfg : Config} {trace : List Command} {init : Nat → Instance} {q : Nat}
    {w : Worker} (hq : q < cfg.queueNum)
    (h : ((pipeline cfg trace init).isolated q).Reachable (fun _ _ => True) w)
    (hexit : w.pc = .exited) : w.vars.seq = trace.countP (sentTo cfg q) := by
  have hinv := (Worker.running_of_reachable h).inv
  rw [eq_position hq hinv.real (hinv.marker hexit), position_eq_countP]

end Ycsb

namespace WriteTest

/-- The keys `0, 1, …` of the `SEQUENTIAL` mode. -/
def sequentialKeys (cfg : Config) : List UInt64 :=
  (List.range cfg.totalNum).map UInt64.ofNat

/-- In `SEQUENTIAL` mode queue `q` receives a request exactly if its own number is a key. -/
theorem exists_sequentialKey {cfg : Config} {q : Nat} (hq : q < cfg.queueNum) :
    (∃ key ∈ sequentialKeys cfg, key.toNat % cfg.queueNum = q) ↔
      q < cfg.totalNum ∧ q < 2 ^ 64 := by
  simp only [sequentialKeys, List.mem_map, List.mem_range]
  constructor
  · rintro ⟨_, ⟨i, hi, rfl⟩, rfl⟩
    rw [UInt64.toNat_ofNat']
    have hmod := Nat.mod_le (i % 2 ^ 64) cfg.queueNum
    have hwrap := Nat.mod_le i (2 ^ 64)
    have hbound : i % 2 ^ 64 < 2 ^ 64 := Nat.mod_lt _ (Nat.two_pow_pos 64)
    omega
  · rintro ⟨htotal, hbound⟩
    refine ⟨_, ⟨q, htotal, rfl⟩, ?_⟩
    rw [UInt64.toNat_ofNat', Nat.mod_eq_of_lt hbound, Nat.mod_eq_of_lt hq]

/-- A worker reports a request exactly if a key is in its residue class. -/
theorem isSome_average_exited {cfg : Config} {keys : List UInt64} {q : Nat} {w : Worker}
    (hq : q < cfg.queueNum) (h : ((feed cfg keys).isolated q).Reachable (fun _ _ => True) w)
    (hexit : w.pc = .exited) (atime : Nat) :
    (average atime w.seq).isSome ↔ ∃ key ∈ keys, key.toNat % cfg.queueNum = q := by
  rw [isSome_average, seq_of_exited hq h hexit, List.countP_pos_iff]
  simp only [decide_eq_true_eq]

end WriteTest

/-- A worker that reaches its report can compute its average exactly if its queue has received a
request: for `ycsb.cpp` a command of the trace is sent to it, for `write_test.cpp` a key is in its
residue class, which in `SEQUENTIAL` mode means that there are more keys than smaller queues. -/
theorem average_defined (atime q : Nat) :
    (∀ (cfg : Ycsb.Config) (trace : List Ycsb.Command) (init : Nat → Instance) s,
      (Ycsb.pipeline cfg trace init).Fits →
      (Ycsb.pipeline cfg trace init).system.Reachable (fun _ _ => True) s →
      q < cfg.queueNum → (s.workers q).pc = .exited →
      ((average atime (s.workers q).vars.seq).isSome ↔ ∃ c ∈ trace, Ycsb.sentTo cfg q c)) ∧
    (∀ (cfg : WriteTest.Config) (keys : List UInt64) s, (WriteTest.feed cfg keys).Fits →
      (WriteTest.feed cfg keys).system.Reachable (fun _ _ => True) s →
      q < cfg.queueNum → (s.workers q).pc = .exited →
      ((average atime (s.workers q).seq).isSome ↔
        ∃ key ∈ keys, key.toNat % cfg.queueNum = q)) ∧
    ∀ (cfg : WriteTest.Config) s, (WriteTest.pipeline cfg).Fits →
      (WriteTest.pipeline cfg).system.Reachable (fun _ _ => True) s →
      q < cfg.queueNum → (s.workers q).pc = .exited →
      ((average atime (s.workers q).seq).isSome ↔ q < cfg.totalNum ∧ q < 2 ^ 64) := by
  refine ⟨?_, ?_, ?_⟩
  · intro cfg trace init s hfit h hq hexit
    have hseq := Ycsb.seq_of_exited hq (Pipeline.worker_reachable_free hfit h hq) hexit
    rw [isSome_average, hseq, List.countP_pos_iff]
  · intro cfg keys s hfit h hq hexit
    have hworker := Pipeline.worker_reachable_free hfit h hq
    exact WriteTest.isSome_average_exited hq hworker hexit atime
  · intro cfg s hfit h hq hexit
    rw [WriteTest.pipeline_eq_feed] at hfit h
    have hworker := Pipeline.worker_reachable_free hfit h hq
    rw [WriteTest.isSome_average_exited hq hworker hexit atime]
    exact WriteTest.exists_sequentialKey hq

/-- `ycsb.cpp` on a trace of one insert, which goes to queue 1. -/
def loneInsert : Pipeline Ycsb.AsyncRequest Ycsb.Worker Ycsb.Choice :=
  Ycsb.pipeline Ycsb.smallConfig [⟨3, 0, 'I'⟩] fun _ => .empty

/-- Worker 1 takes the insert and its end marker, worker 0 its end marker. -/
def loneInsertRun : List (Action Ycsb.Choice) :=
  List.replicate 6 .dispatch ++ Ycsb.taking [(1, 2), (1, 2), (0, 1)]

/-- `write_test.cpp` with more queues than keys. -/
def sparseConfig : WriteTest.Config :=
  ⟨11, 10, by decide⟩

/-- Worker 10 finds only its end marker. -/
def sparseRun : List (Action WriteTest.Choice) :=
  List.replicate 42 .dispatch ++ List.replicate 3 (.work 10 ⟨1, .ok⟩)

/-- The worker of the lone insert divides by one. -/
theorem average_defined_lone_insert :
    (average 1000 ((loneInsert.system.after loneInsertRun).workers 1).vars.seq).isSome := by
  have hfit : loneInsert.Fits := by decide
  have hreach : loneInsert.system.Reachable (fun _ _ => True)
      (loneInsert.system.after loneInsertRun) := System.reachable_after_free (by decide)
  have hexit : ((loneInsert.system.after loneInsertRun).workers 1).pc = .exited := by decide
  refine ((average_defined 1000 1).1 Ycsb.smallConfig _ _ _ hfit hreach (by decide) hexit).mpr ?_
  exact ⟨_, List.mem_singleton_self _, by decide⟩

/-- A queue that receives only its end marker: its worker exits and divides by zero. -/
theorem average_defined_empty_queue :
    let ycsb := loneInsert.system.after loneInsertRun
    let writeTest := (WriteTest.pipeline sparseConfig).system.after sparseRun
    (loneInsert.Fits ∧ loneInsert.system.Reachable (fun _ _ => True) ycsb ∧
      (ycsb.workers 0).pc = .exited ∧ average 1000 (ycsb.workers 0).vars.seq = none) ∧
    (WriteTest.pipeline sparseConfig).Fits ∧
      (WriteTest.pipeline sparseConfig).system.Reachable (fun _ _ => True) writeTest ∧
      (writeTest.workers 10).pc = .exited ∧ average 1000 (writeTest.workers 10).seq = none := by
  intro ycsb writeTest
  refine ⟨⟨by decide, ?_, by decide, by decide⟩, by decide, ?_, by decide, by decide⟩
  · exact System.reachable_after_free (by decide)
  · exact System.reachable_after_free (by decide)

namespace WriteTest

/-- `batch_size_distribution` and `total_time`. Nothing reads the sum, so it is kept exact. -/
structure Summary where
  distribution : List Nat
  totalTime : Int
  deriving DecidableEq, Repr

/-- `batch_size_distribution[batchpos - 1]++`, undefined outside of the array. -/
def increment (batchpos : Int) (distribution : List Nat) : Option (List Nat) :=
  if 0 ≤ batchpos - 1 ∧ batchpos - 1 < distribution.length then
    some (distribution.modify (batchpos - 1).toNat (· + 1))
  else none

/-- The loop `for (int i = 0; i < seq; i++)` with `rest` iterations left, over the field `batch_pos`
of the worker's requests and its row of `ns`. -/
def collect (batchPos : Nat → Int) (ns : List Int) : Nat → Nat → Summary → Option Summary
  | 0, _, s => some s
  | rest + 1, i, s => do
      let distribution ← increment (batchPos i) s.distribution
      let time ← ns[i]?
      collect batchPos ns rest (i + 1) ⟨distribution, s.totalTime + time⟩

/-- `sort(ns[queue_seq], ns[queue_seq] + seq)`, undefined beyond the end of the row. -/
def sortPrefix (seq : Nat) (ns : List Int) : Option (List Int) :=
  if seq ≤ ns.length then some ((ns.take seq).mergeSort ++ ns.drop seq) else none

/-- What the worker computes behind its loop: the statistics and the sorted row. -/
def epilogue (batchPos : Nat → Int) (ns : List Int) (seq : Nat) : Option (Summary × List Int) := do
  let s ← collect batchPos ns seq 0 ⟨List.replicate batchSizeLimit 0, 0⟩
  let sorted ← sortPrefix seq ns
  some (s, sorted)

/-- The histogram index of a request is in range. -/
def InRange (batchpos : Int) : Prop :=
  0 ≤ batchpos - 1 ∧ batchpos - 1 < batchSizeLimit

/-- Incrementing a counter of the whole histogram. -/
theorem isSome_increment {batchpos : Int} {distribution : List Nat}
    (hlength : distribution.length = batchSizeLimit) :
    (increment batchpos distribution).isSome ↔ InRange batchpos := by
  unfold increment InRange
  rw [hlength]
  split_ifs with h
  · exact iff_of_true rfl h
  · exact iff_of_false (by simp) h

/-- Incrementing a counter keeps the size of the histogram. -/
theorem length_increment {batchpos : Int} {distribution next : List Nat}
    (h : increment batchpos distribution = some next) : next.length = distribution.length := by
  unfold increment at h
  split_ifs at h
  cases h
  exact List.length_modify ..

/-- The loop stays in bounds when all its indices do. -/
theorem isSome_collect (batchPos : Nat → Int) (ns : List Int) (rest i : Nat) {s : Summary}
    (hlength : s.distribution.length = batchSizeLimit) :
    (collect batchPos ns rest i s).isSome ↔
      ∀ j, i ≤ j → j < i + rest → InRange (batchPos j) ∧ j < ns.length := by
  induction rest generalizing i s with
  | zero =>
      simp only [collect, Option.isSome_some, true_iff]
      intro j hle hlt
      omega
  | succ rest ih =>
      have hfirst : (∀ j, i ≤ j → j < i + (rest + 1) → InRange (batchPos j) ∧ j < ns.length) →
          InRange (batchPos i) ∧ i < ns.length := fun hall => hall i (Nat.le_refl i) (by omega)
      cases hstep : increment (batchPos i) s.distribution with
      | none =>
          have hout : ¬ InRange (batchPos i) := by
            rw [← isSome_increment hlength, hstep]
            simp
          simp only [collect, hstep, bind, Option.bind_none, Option.isSome_none,
            Bool.false_eq_true, false_iff]
          exact fun hall => hout (hfirst hall).1
      | some distribution =>
          have hin : InRange (batchPos i) := by
            rw [← isSome_increment hlength, hstep]
            rfl
          by_cases hi : i < ns.length
          · have hnext := (length_increment hstep).trans hlength
            simp only [collect, hstep, bind, Option.bind_some, List.getElem?_eq_getElem hi]
            rw [ih (i + 1) hnext]
            constructor
            · intro hall j hle hlt
              rcases Nat.eq_or_lt_of_le hle with rfl | hlater
              · exact ⟨hin, hi⟩
              · exact hall j hlater (by omega)
            · intro hall j hle hlt
              exact hall j (by omega) (by omega)
          · simp only [collect, hstep, bind, Option.bind_some,
              List.getElem?_eq_none (Nat.le_of_not_lt hi), Option.bind_none, Option.isSome_none,
              Bool.false_eq_true, false_iff]
            exact fun hall => hi (hfirst hall).2

/-- The epilogue is defined when every histogram index is in range and the row of `ns` has a place
for every request. -/
theorem isSome_epilogue (batchPos : Nat → Int) (ns : List Int) (seq : Nat) :
    (epilogue batchPos ns seq).isSome ↔ (∀ i < seq, InRange (batchPos i)) ∧ seq ≤ ns.length := by
  have hloop := isSome_collect batchPos ns seq 0
    (s := ⟨List.replicate batchSizeLimit 0, 0⟩) (List.length_replicate ..)
  have hsort : (sortPrefix seq ns).isSome ↔ seq ≤ ns.length := by
    unfold sortPrefix
    split_ifs with h
    · exact iff_of_true rfl h
    · exact iff_of_false (by simp) h
  have hparts : (epilogue batchPos ns seq).isSome ↔
      (collect batchPos ns seq 0 ⟨List.replicate batchSizeLimit 0, 0⟩).isSome ∧
        (sortPrefix seq ns).isSome := by
    unfold epilogue
    cases collect batchPos ns seq 0 ⟨List.replicate batchSizeLimit 0, 0⟩ with
    | none => simp
    | some s =>
        cases sortPrefix seq ns with
        | none => simp
        | some sorted => simp
  rw [hparts, hloop, hsort]
  constructor
  · rintro ⟨hall, hle⟩
    exact ⟨fun i hi => (hall i (Nat.zero_le i) (by omega)).1, hle⟩
  · rintro ⟨hall, hle⟩
    exact ⟨fun j _ hj => ⟨hall j (by omega), by omega⟩, hle⟩

/-- `write_test.cpp` with the field `batch_pos` of the slots. Static storage is zero-initialised,
the default constructor leaves the field alone, and the stores to it are commented out. -/
def timedFeed (cfg : Config) (keys : List UInt64) : Pipeline (AsyncRequest × Int) Worker Choice :=
  (feed cfg keys).extend 0

/-- The field `batch_pos` of the requests of queue `q`, as the run has left it. -/
def batchPos (cfg : Config) (keys : List UInt64) (s : State (AsyncRequest × Int) Worker) (q : Nat) :
    Nat → Int :=
  fun i => ((timedFeed cfg keys).rowView s q i).2

/-- A row of `ns`, which is never written: the stores to it are commented out too. -/
def nsRow (cfg : Config) : List Int :=
  List.replicate (cfg.totalNum / cfg.queueNum) 0

section Completed

variable {cfg : Config} {keys : List UInt64} {s : State (AsyncRequest × Int) Worker} {q : Nat}

/-- No step stores to `batch_pos`. -/
theorem batchPos_eq_zero (h : (timedFeed cfg keys).system.Reachable (fun _ _ => True) s)
    (q i : Nat) : batchPos cfg keys s q i = 0 :=
  Pipeline.field_reachable 0 h _

/-- The index of a request that has not been timed is `-1`. -/
theorem not_inRange_zero : ¬ InRange 0 := by
  unfold InRange
  omega

/-- The histogram indices of a worker are in range only if it has had no request. -/
theorem inRange_iff (h : (timedFeed cfg keys).system.Reachable (fun _ _ => True) s) (q : Nat) :
    (∀ i < (s.workers q).seq, InRange (batchPos cfg keys s q i)) ↔ (s.workers q).seq = 0 := by
  constructor
  · intro hall
    refine Nat.eq_zero_of_not_pos fun hpos => ?_
    have hfirst := hall 0 hpos
    rw [batchPos_eq_zero h] at hfirst
    exact not_inRange_zero hfirst
  · intro hseq i hi
    omega

/-- So only then its epilogue stays in bounds. -/
theorem isSome_epilogue_iff (h : (timedFeed cfg keys).system.Reachable (fun _ _ => True) s)
    (q : Nat) :
    (epilogue (batchPos cfg keys s q) (nsRow cfg) (s.workers q).seq).isSome ↔
      (s.workers q).seq = 0 := by
  rw [isSome_epilogue, inRange_iff h, and_iff_left_iff_imp]
  intro hseq
  omega

/-- A worker exits with one request for each key of its residue class. -/
theorem seq_of_exited_timed (hfit : (feed cfg keys).Fits)
    (h : (timedFeed cfg keys).system.Reachable (fun _ _ => True) s) (hq : q < cfg.queueNum)
    (hexit : (s.workers q).pc = .exited) :
    (s.workers q).seq = keys.countP fun key => key.toNat % cfg.queueNum = q := by
  have hworker := Pipeline.worker_reachable_free ((Pipeline.fits_extend 0).mpr hfit) h hq
  rw [Pipeline.isolated_extend] at hworker
  exact seq_of_exited hq hworker hexit

/-- A worker exits without a request exactly if no key is in its residue class. -/
theorem seq_eq_zero_iff (hfit : (feed cfg keys).Fits)
    (h : (timedFeed cfg keys).system.Reachable (fun _ _ => True) s) (hq : q < cfg.queueNum)
    (hexit : (s.workers q).pc = .exited) :
    (s.workers q).seq = 0 ↔ ∀ key ∈ keys, key.toNat % cfg.queueNum ≠ q := by
  rw [seq_of_exited_timed hfit h hq hexit, List.countP_eq_zero]
  simp only [decide_eq_true_eq, ne_eq]

end Completed

/-- In every run, the histogram indices of a worker are in range, and its epilogue stays in bounds,
exactly if it has had no request. If the rows of `qs` suffice, a worker that has exited has had none
exactly if no key is in its residue class, and its accesses to `ns` stay inside their row exactly if
at most `TOTAL_NUM / QUEUE_NUM` keys are. So in a completed run all epilogues stay in bounds only if
there are no keys. -/
theorem epilogue_in_bounds {cfg : Config} {keys : List UInt64}
    {s : State (AsyncRequest × Int) Worker}
    (h : (timedFeed cfg keys).system.Reachable (fun _ _ => True) s) :
    (∀ q,
      ((∀ i < (s.workers q).seq, InRange (batchPos cfg keys s q i)) ↔ (s.workers q).seq = 0) ∧
      ((epilogue (batchPos cfg keys s q) (nsRow cfg) (s.workers q).seq).isSome ↔
        (s.workers q).seq = 0)) ∧
    ((feed cfg keys).Fits →
      (∀ q < cfg.queueNum, (s.workers q).pc = .exited →
        ((s.workers q).seq = 0 ↔ ∀ key ∈ keys, key.toNat % cfg.queueNum ≠ q) ∧
        ((s.workers q).seq ≤ (nsRow cfg).length ↔
          keys.countP (fun key => key.toNat % cfg.queueNum = q) ≤
            cfg.totalNum / cfg.queueNum)) ∧
      ((∀ q < cfg.queueNum, (s.workers q).pc = .exited) →
        ((∀ q < cfg.queueNum,
          (epilogue (batchPos cfg keys s q) (nsRow cfg) (s.workers q).seq).isSome) ↔
            keys = []))) := by
  refine ⟨fun q => ⟨inRange_iff h q, isSome_epilogue_iff h q⟩, fun hfit => ⟨?_, ?_⟩⟩
  · intro q hq hexit
    refine ⟨seq_eq_zero_iff hfit h hq hexit, ?_⟩
    rw [seq_of_exited_timed hfit h hq hexit, nsRow, List.length_replicate]
  · intro hdone
    have hepilogue : ∀ q < cfg.queueNum,
        ((epilogue (batchPos cfg keys s q) (nsRow cfg) (s.workers q).seq).isSome ↔
          ∀ key ∈ keys, key.toNat % cfg.queueNum ≠ q) := fun q hq =>
      (isSome_epilogue_iff h q).trans (seq_eq_zero_iff hfit h hq (hdone q hq))
    constructor
    · intro hall
      refine List.eq_nil_iff_forall_not_mem.mpr fun key hkey => ?_
      -- the worker of this key's queue has had a request
      have hq := Nat.mod_lt key.toNat cfg.queueNum_pos
      exact (hepilogue _ hq).mp (hall _ hq) key hkey rfl
    · rintro rfl q hq
      exact (hepilogue q hq).mpr (by simp)

/-- The worker of a queue without keys stays inside its row. -/
theorem epilogue_in_bounds_no_request :
    let keys := sequentialKeys sparseConfig
    let s := (timedFeed sparseConfig keys).system.after sparseRun
    (epilogue (batchPos sparseConfig keys s 10) (nsRow sparseConfig)
      (s.workers 10).seq).isSome ∧
      ∀ key ∈ keys, key.toNat % sparseConfig.queueNum ≠ 10 := by
  intro keys s
  have hfit : (feed sparseConfig keys).Fits := by decide
  have hreach : (timedFeed sparseConfig keys).system.Reachable (fun _ _ => True) s :=
    System.reachable_after_free (by decide)
  have hexit : (s.workers 10).pc = .exited := by decide
  have hseq : (s.workers 10).seq = 0 := by decide
  obtain ⟨hbounds, hfitting⟩ := epilogue_in_bounds hreach
  exact ⟨(hbounds 10).2.mpr hseq, ((hfitting hfit).1 10 (by decide) hexit).1.mp hseq⟩

/-- Ten keys in three queues: queue 0 receives four of them. -/
def unevenConfig : Config :=
  ⟨3, 10, by decide⟩

/-- The dispatcher runs to its end; then the workers empty their queues. -/
def unevenRun : List (Action Choice) :=
  List.replicate 26 .dispatch ++ List.replicate 7 (.work 0 ⟨5, .ok⟩) ++
    List.replicate 6 (.work 1 ⟨4, .ok⟩) ++ List.replicate 6 (.work 2 ⟨4, .ok⟩)

/-- Worker 0 indexes its histogram with `-1` and reads and sorts four entries of a row of three. -/
theorem epilogue_in_bounds_uneven :
    let keys := sequentialKeys unevenConfig
    let s := (timedFeed unevenConfig keys).system.after unevenRun
    (feed unevenConfig keys).Fits ∧
      (timedFeed unevenConfig keys).system.Reachable (fun _ _ => True) s ∧
      (∀ q < unevenConfig.queueNum, (s.workers q).pc = .exited) ∧
      (s.workers 0).seq = 4 ∧ (nsRow unevenConfig).length = 3 ∧
      batchPos unevenConfig keys s 0 0 - 1 = -1 ∧
      epilogue (batchPos unevenConfig keys s 0) (nsRow unevenConfig) (s.workers 0).seq = none := by
  intro keys s
  refine ⟨by decide, System.reachable_after_free (by decide), by decide, by decide, by decide,
    by decide, by decide⟩

end WriteTest

end P2KVS
