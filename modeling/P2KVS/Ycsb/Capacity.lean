import Mathlib.Tactic.Ring
import P2KVS.Foundation.Capacity
import P2KVS.Ycsb.Dispatch

/-!
# The rows of `qs` in `ycsb.cpp`

A row of `qs` has `TOTAL_NUM / QUEUE_NUM + EXPAND_QUEUE_SIZE` slots, and `defines.h` has a formula
for `EXPAND_QUEUE_SIZE` in every benchmark configuration. A queue needs a slot for each command that
sends it a request and one for its end marker. `point_rows_contained` and `scan_rows_contained` say
for which traces the rows of the point and of the scan configurations suffice.
-/

namespace P2KVS.Ycsb

open Channel

/-- `EXPAND_QUEUE_SIZE` of `YCSB_LOAD`, `YCSB_RUN`, `YCSB_F` and of the default configuration. -/
def expandPoint (totalNum : Nat) : Nat :=
  totalNum / 10 + 1

/-- `EXPAND_QUEUE_SIZE` of `YCSB_SCAN` and `LONGKEY_SCAN`. -/
def expandScan (totalNum : Nat) : Nat :=
  totalNum

/-- `EXPAND_QUEUE_SIZE` of `SPLINTER_SCAN`. -/
def expandSplinterScan (totalNum queueNum : Nat) : Nat :=
  totalNum * (queueNum - 1) / queueNum

/-- The command puts a request into queue `q`. -/
def sentTo (cfg : Config) (q : Nat) (c : Command) : Bool :=
  c.cmd = 'S' || (c.cmd = 'R' || c.isPut) && cfg.queueOf c.key = q

section Rows

variable {cfg : Config}

/-- A command puts at most one request into a queue. -/
theorem length_request (q ops : Nat) (c : Command) :
    (request cfg q ops c).toList.length = if sentTo cfg q c then 1 else 0 := by
  unfold request sentTo
  by_cases hread : c.cmd = 'R'
  · by_cases hqueue : cfg.queueOf c.key = q <;> simp [hread, hqueue]
  by_cases hput : c.isPut = true
  · have hscan : c.cmd ≠ 'S' := by
      intro hscan
      simp [Command.isPut, hscan] at hput
    by_cases hqueue : cfg.queueOf c.key = q <;> simp [hread, hput, hscan, hqueue]
  · by_cases hscan : c.cmd = 'S' <;> simp [hread, hput, hscan]

/-- A queue receives a request of every command that is sent to it. -/
theorem position_eq_countP (q : Nat) (trace : List Command) :
    position cfg q trace = trace.countP (sentTo cfg q) := by
  have hlength : ∀ ops, (requests cfg q ops trace).length = trace.countP (sentTo cfg q) := by
    induction trace with
    | nil => exact fun _ => rfl
    | cons c rest ih =>
        intro ops
        rw [requests, List.length_append, length_request, ih, List.countP_cons, Nat.add_comm]
  exact hlength 0

/-- The stores stay inside the rows exactly when every queue has room for its requests and its end
marker. -/
theorem contained_iff (cfg : Config) (trace : List Command) (init : Nat → Instance) :
    (pipeline cfg trace init).Contained ↔
      ∀ q < cfg.queueNum, trace.countP (sentTo cfg q) < cfg.rowLength := by
  rw [Pipeline.contained_iff_fits]
  refine forall₂_congr fun q hq => ?_
  rw [content_eq hq, List.length_append, List.length_singleton, ← position_eq_countP]
  exact Nat.succ_le_iff

/-- Without scans a command is sent to the queue of its key. -/
theorem sentTo_point {c : Command} (hpoint : c.cmd = 'R' ∨ c.isPut = true) (q : Nat) :
    sentTo cfg q c = decide (cfg.queueOf c.key = q) := by
  have hscan : c.cmd ≠ 'S' := by
    rintro hscan
    rcases hpoint with hread | hput
    · simp [hread] at hscan
    · simp [Command.isPut, hscan] at hput
  rcases hpoint with hread | hput
  · simp [sentTo, hread]
  · simp [sentTo, hscan, hput]

end Rows

/-- In the point configurations, every store of the dispatcher stays inside the row of its queue, in
every run over a trace of `R`, `U` and `I` commands, exactly when no queue receives more than
`TOTAL_NUM / QUEUE_NUM + TOTAL_NUM / 10` of them. -/
theorem point_rows_contained {cfg : Config}
    (hexpand : cfg.expandQueueSize = expandPoint cfg.totalNum) {trace : List Command}
    (hpoint : ∀ c ∈ trace, c.cmd = 'R' ∨ c.isPut = true) (init : Nat → Instance) :
    (pipeline cfg trace init).Contained ↔
      ∀ q < cfg.queueNum, trace.countP (fun c => cfg.queueOf c.key = q) ≤
        cfg.totalNum / cfg.queueNum + cfg.totalNum / 10 := by
  rw [contained_iff]
  refine forall₂_congr fun q _ => ?_
  have hcount : trace.countP (sentTo cfg q) =
      trace.countP (fun c => cfg.queueOf c.key = q) :=
    List.countP_congr fun c hc => by rw [sentTo_point (hpoint c hc)]
  rw [hcount, Config.rowLength, hexpand, expandPoint]
  omega

/-- `YCSB_RUN` with eight instances. -/
def ycsbRun : Config where
  queueNum := 8
  batchSize := 32
  keySize := 28
  valueSize := 100
  totalNum := 1000000
  expandQueueSize := expandPoint 1000000
  queueNum_pos := by decide

/-- A trace of two commands fits into the rows. -/
theorem point_rows_contained_short :
    (pipeline ycsbRun [⟨0, 0, 'R'⟩, ⟨8, 0, 'U'⟩] fun _ => .empty).Contained :=
  (point_rows_contained rfl (by decide) fun _ => .empty).mpr (by decide)

/-- A full trace of reads of one key does not fit: seven eighths of the rows stay empty. -/
theorem point_rows_contained_skewed :
    let trace : List Command := List.replicate 1000000 ⟨0, 0, 'R'⟩
    trace.length ≤ ycsbRun.totalNum ∧ (∀ c ∈ trace, c.cmd = 'R' ∨ c.isPut = true) ∧
      ¬ (pipeline ycsbRun trace fun _ => .empty).Contained := by
  intro trace
  refine ⟨(List.length_replicate ..).le, ?_, ?_⟩
  · intro c hc
    rw [List.eq_of_mem_replicate hc]
    exact .inl rfl
  · intro hcontained
    have hroom := (contained_iff ycsbRun trace fun _ => .empty).mp hcontained 0 (by decide)
    rw [List.countP_replicate, if_pos (by decide)] at hroom
    exact absurd hroom (by decide)

/-- The rows of `SPLINTER_SCAN` have `TOTAL_NUM` slots, or one less if the division rounds. -/
theorem splinter_row_length (t : Nat) {q : Nat} (hq : 0 < q) :
    t / q + expandSplinterScan t q = if q ∣ t then t else t - 1 := by
  obtain ⟨n, rfl⟩ : ∃ n, q = n + 1 := ⟨q - 1, by omega⟩
  unfold expandSplinterScan
  rw [Nat.add_sub_cancel]
  have hsplit := Nat.div_add_mod t (n + 1)
  have hlt := Nat.mod_lt t hq
  generalize t / (n + 1) = d at hsplit ⊢
  split_ifs with hdvd
  · rw [Nat.mod_eq_zero_of_dvd hdvd] at hsplit
    have hproduct : t * n = (n + 1) * (d * n) := by
      rw [← hsplit]
      ring
    rw [hproduct, Nat.mul_div_cancel_left _ hq, ← hsplit]
    ring
  · obtain ⟨m, hm⟩ : ∃ m, t % (n + 1) = m + 1 :=
      ⟨t % (n + 1) - 1, by have := mt Nat.dvd_of_mod_eq_zero hdvd; omega⟩
    obtain ⟨k, rfl⟩ : ∃ k, n = m + k := ⟨n - m, by omega⟩
    rw [hm] at hsplit
    have hproduct : t * (m + k) = (m + k + 1) * (d * (m + k) + m) + k := by
      rw [← hsplit]
      ring
    have hrest : k / (m + k + 1) = 0 := Nat.div_eq_of_lt (by omega)
    rw [hproduct, Nat.mul_add_div hq, hrest, ← hsplit]
    have hexpand : (m + k + 1) * d = d + d * (m + k) := by ring
    omega

/-- In the scan configurations a scan takes a slot of every queue. The rows of `YCSB_SCAN` suffice
for every trace of at most `TOTAL_NUM` commands. Those of `SPLINTER_SCAN` have no slot for the end
marker: they suffice exactly when every queue receives less than `TOTAL_NUM` requests, or less than
`TOTAL_NUM - 1` if `QUEUE_NUM` does not divide `TOTAL_NUM`. -/
theorem scan_rows_contained {cfg : Config} (hqueues : cfg.queueNum ≤ cfg.totalNum)
    {trace : List Command} (hlength : trace.length ≤ cfg.totalNum) (init : Nat → Instance) :
    (cfg.expandQueueSize = expandScan cfg.totalNum → (pipeline cfg trace init).Contained) ∧
      (cfg.expandQueueSize = expandSplinterScan cfg.totalNum cfg.queueNum →
        ((pipeline cfg trace init).Contained ↔ ∀ q < cfg.queueNum,
          trace.countP (sentTo cfg q) <
            if cfg.queueNum ∣ cfg.totalNum then cfg.totalNum else cfg.totalNum - 1)) := by
  constructor
  · intro hexpand
    refine (contained_iff cfg trace init).mpr fun q _ => ?_
    have hcount : trace.countP (sentTo cfg q) ≤ trace.length := List.countP_le_length
    have hshare : 0 < cfg.totalNum / cfg.queueNum := Nat.div_pos hqueues cfg.queueNum_pos
    rw [Config.rowLength, hexpand, expandScan]
    omega
  · intro hexpand
    rw [contained_iff, Config.rowLength, hexpand, splinter_row_length _ cfg.queueNum_pos]

/-- `SPLINTER_SCAN` with eight instances. -/
def splinterScan : Config where
  queueNum := 8
  batchSize := 32
  keySize := 24
  valueSize := 100
  totalNum := 20000000
  expandQueueSize := expandSplinterScan 20000000 8
  queueNum_pos := by decide

/-- A scan and an update fit into the rows. -/
theorem scan_rows_contained_short :
    (pipeline splinterScan [⟨0, 10, 'S'⟩, ⟨8, 0, 'U'⟩] fun _ => .empty).Contained :=
  ((scan_rows_contained (by decide) (by decide) fun _ => .empty).2 rfl).mpr (by decide)

/-- A full trace of scans fills every row, and the end markers are stored behind them. -/
theorem scan_rows_contained_full :
    let trace : List Command := List.replicate 20000000 ⟨0, 10, 'S'⟩
    splinterScan.queueNum ≤ splinterScan.totalNum ∧ trace.length ≤ splinterScan.totalNum ∧
      (∀ c ∈ trace, c.cmd = 'S') ∧
      ¬ (pipeline splinterScan trace fun _ => .empty).Contained := by
  intro trace
  refine ⟨by decide, (List.length_replicate ..).le, ?_, ?_⟩
  · intro c hc
    rw [List.eq_of_mem_replicate hc]
  · intro hcontained
    have hroom := (contained_iff splinterScan trace fun _ => .empty).mp hcontained 0 (by decide)
    rw [List.countP_replicate, if_pos (by decide)] at hroom
    exact absurd hroom (by decide)

end P2KVS.Ycsb
