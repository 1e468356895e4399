import P2KVS.ReadTest.Worker

/-!
# The lookups of `read_test.cpp`

The dispatcher of `read_test.cpp` draws `uint64_t` values, converts them to `int` and routes them by
their residue; `readIndex` and `fillRequest` are its loop body. A worker looks keys
up only in full batches and leaves its loop at the end marker, so the requests behind its last full
batch are taken from the queue and never looked up. `multi_get_sizes` says exactly when that loses
nothing: the number of requests in the queue is a multiple of `BATCH_SIZE`.
-/

namespace P2KVS.ReadTest

open Channel History Transition

/-- The compile-time configuration. -/
structure Config where
  queueNum : Nat
  totalNum : Nat
  readNum : Nat
  queueNum_pos : 0 < queueNum

/-- The number of slots in a row of `qs`. -/
def Config.rowLength (cfg : Config) : Nat :=
  cfg.totalNum / cfg.queueNum + cfg.totalNum / 10000

/-- `key = keygen.Next()`, the conversion of a `uint64_t` to `int`. -/
def intKey (v : UInt64) : Int :=
  Int.bmod v.toNat (2 ^ 32)

/-- `q_num = key % QUEUE_NUM`, on the `int`. -/
def readIndex (queueNum : Nat) (v : UInt64) : Int :=
  (intKey v).tmod queueNum

/-- The stores of the `i`-th request. -/
def fillRequest (i : Nat) (v : UInt64) (_ : AsyncRequest) : AsyncRequest :=
  { seq := i, key := intKey v, type := .read }

/-- The values that `keygen.Next()` returns. None of them leads to an index in front of `qs`, which
would be undefined behaviour; `same_location` says which values do. -/
structure Draws (queueNum : Nat) where
  value : Nat → UInt64
  indexed : ∀ i, 0 ≤ readIndex queueNum (value i)

/-- The stores of an end marker. -/
def fillEnd (slot : AsyncRequest) : AsyncRequest :=
  { slot with seq := -1, key := -1 }

/-- The loop `for (i = 0; i < READ_NUM && merge_iter->Valid(); i++)`. The body does not move
`merge_iter`, so the iterator stays as `valid` as it was. -/
def enqueues (cfg : Config) (valid : Bool) (draws : Draws cfg.queueNum) :
    List (Enqueue AsyncRequest) :=
  ((List.range cfg.readNum).takeWhile fun _ => valid).map fun i =>
    ⟨(readIndex cfg.queueNum (draws.value i)).toNat, fillRequest i (draws.value i)⟩

/-- Every index lies in `qs`. -/
theorem readIndex_lt {queueNum : Nat} (h : 0 < queueNum) (v : UInt64) :
    (readIndex queueNum v).toNat < queueNum := by
  have hlt : readIndex queueNum v < queueNum := Int.tmod_lt_of_pos _ (by omega)
  omega

/-- The program `read_test.cpp` over the instances it opens. -/
def pipeline (cfg : Config) (valid : Bool) (draws : Draws cfg.queueNum) (db : Nat → Instance) :
    Pipeline AsyncRequest Worker Choice where
  queueNum := cfg.queueNum
  row := cfg.rowLength
  blank := .blank
  program := enqueues cfg valid draws ++ broadcast cfg.queueNum fillEnd
  consumer := fun q => Worker.consumer (db q)
  start := fun _ => .start
  routed := by
    intro e he
    rcases List.mem_append.mp he with he | he
    · obtain ⟨i, _, rfl⟩ := List.mem_map.mp he
      dsimp only
      exact readIndex_lt cfg.queueNum_pos (draws.value i)
    · exact broadcast_routed e he
  start_synced := fun _ => ⟨Nat.le_refl _, by simp [Worker.start]⟩

/-- The requests that are placed in queue `q`. -/
def requests (cfg : Config) (valid : Bool) (draws : Draws cfg.queueNum) (q : Nat) :
    List AsyncRequest :=
  ((enqueues cfg valid draws).filter fun e => e.queue = q).map fun e => e.fill .blank

section Requests

variable {cfg : Config} {valid : Bool} {draws : Draws cfg.queueNum} {db : Nat → Instance} {q : Nat}

/-- Row `q` holds its requests and the end marker. -/
theorem content_eq (hq : q < cfg.queueNum) :
    (pipeline cfg valid draws db).content q =
      requests cfg valid draws q ++ [fillEnd .blank] :=
  Pipeline.content_of_broadcast rfl hq

/-- No request looks like the end marker. -/
theorem seq_of_mem_requests {r : AsyncRequest} (hr : r ∈ requests cfg valid draws q) :
    ¬ r.seq = -1 := by
  obtain ⟨e, he, rfl⟩ := List.mem_map.mp hr
  obtain ⟨i, _, rfl⟩ := List.mem_map.mp (List.mem_filter.mp he).1
  simp only [fillRequest]
  omega

/-- A worker that has exited has taken all requests of its queue. -/
theorem seq_exited (hq : q < cfg.queueNum) {w : Worker}
    (h : Worker.Inv ((pipeline cfg valid draws db).view q) w) (hexit : w.pc = .exited) :
    w.seq = (requests cfg valid draws q).length := by
  have hview : ∀ i, (pipeline cfg valid draws db).view q i =
      (requests cfg valid draws q ++ [fillEnd .blank]).getD i .blank := by
    intro i
    rw [Pipeline.view, content_eq hq]
    rfl
  have hreal := h.real
  have hmarker := h.marker hexit
  simp only [hview] at hreal hmarker
  exact eq_length_of_marked (fun r : AsyncRequest => r.seq = -1)
    (fun _ hr => seq_of_mem_requests hr) rfl hreal hmarker

end Requests

/-- When a worker has exited it has taken every request of its queue. The sizes of its `MultiGet`
calls add up to their number, and the calls carry each request once, exactly when that number is a
multiple of `BATCH_SIZE`. -/
theorem multi_get_sizes {cfg : Config} {valid : Bool} {draws : Draws cfg.queueNum}
    {db : Nat → Instance} (hfit : (pipeline cfg valid draws db).Fits)
    {s : State AsyncRequest Worker}
    (h : (pipeline cfg valid draws db).system.Reachable (fun _ _ => True) s) {q : Nat}
    (hq : q < cfg.queueNum) (hexit : (s.workers q).pc = .exited) :
    let w := s.workers q
    let total := (requests cfg valid draws q).length
    w.seq = total ∧
      ((w.calls.map fun call => call.lookedUp.length).sum = w.seq ↔ batchSizeLimit ∣ total) ∧
      (w.calls.flatMap Call.readReqs = List.range w.seq ↔ batchSizeLimit ∣ total) := by
  intro w total
  have hinv : Worker.Inv ((pipeline cfg valid draws db).view q) w :=
    (Pipeline.worker_reachable_free hfit h hq).invariant
      (I := Worker.Inv ((pipeline cfg valid draws db).view q)) (Worker.inv_start _)
      fun _ hold _ hstep => hold.step hstep
  have hseq : w.seq = total := seq_exited hq hinv hexit
  obtain ⟨hsum, hrest⟩ := hinv.lengths
  have hdvd : batchSizeLimit ∣ total ↔ w.reads.length = 0 := by
    rw [hrest, hseq, Nat.dvd_iff_mod_eq_zero]
  refine ⟨hseq, ?_, ?_⟩
  · -- the sizes fall short by what is pending
    have hsplit := Nat.div_add_mod w.seq batchSizeLimit
    rw [hdvd, hsum]
    omega
  · have htaken := hinv.taken
    rw [hdvd, List.length_eq_zero_iff, ← htaken]
    constructor
    · intro heq
      exact List.append_right_eq_self.mp heq.symm
    · intro hnone
      rw [hnone, List.append_nil]

/-- One queue and `n` requests. -/
def oneQueue (n : Nat) : Config :=
  ⟨1, n + 1, n, Nat.one_pos⟩

/-- The value 7 again and again. -/
def sevens : Draws 1 :=
  ⟨fun _ => 7, fun _ => by decide⟩

/-- The program with `n` requests for the same key, on an empty instance. -/
def repeated (n : Nat) : Pipeline AsyncRequest Worker Choice :=
  pipeline (oneQueue n) true sevens fun _ => .empty

/-- The dispatcher runs to its end; then the worker takes the `n` requests and the end marker. -/
def wholeRun (n : Nat) : List (Action Choice) :=
  List.replicate (2 * (n + 1)) .dispatch ++ List.replicate (2 * (n + 1)) (.work 0 (.sees (n + 1)))

/-- One full batch of 32 requests: every one of them is looked up. -/
theorem multi_get_sizes_one_batch :
    let w := ((repeated 32).system.after (wholeRun 32)).workers 0
    w.pc = .exited ∧ w.seq = 32 ∧ (w.calls.map fun call => call.lookedUp.length).sum = 32 ∧
      w.calls.flatMap Call.readReqs = List.range 32 := by
  intro w
  have hfit : (repeated 32).Fits := by decide +kernel
  have hreach : (repeated 32).system.Reachable (fun _ _ => True)
      ((repeated 32).system.after (wholeRun 32)) :=
    System.reachable_after_free (by decide +kernel)
  have hexit : w.pc = .exited := by decide +kernel
  obtain ⟨hseq, hsum, hreqs⟩ := multi_get_sizes hfit hreach Nat.one_pos hexit
  have htotal : (requests (oneQueue 32) true sevens 0).length = 32 := by decide +kernel
  rw [htotal] at hseq hsum hreqs
  have hdvd : batchSizeLimit ∣ 32 := Nat.dvd_refl 32
  have hall : w.seq = 32 := hseq
  refine ⟨hexit, hall, ?_, ?_⟩
  · rw [← hall]
    exact hsum.mpr hdvd
  · rw [← hall]
    exact hreqs.mpr hdvd

/-- A single request is taken from the queue and never looked up: the worker exits with `seq` one
and without a call. -/
theorem multi_get_sizes_lost_read :
    let final := (repeated 1).system.after (wholeRun 1)
    (repeated 1).system.Reachable (fun _ _ => True) final ∧ (final.workers 0).pc = .exited ∧
      (final.workers 0).seq = 1 ∧ (final.workers 0).reads = [0] ∧
      (final.workers 0).calls = [] := by
  intro final
  exact ⟨System.reachable_after_free (by decide +kernel), by decide +kernel, by decide +kernel,
    by decide +kernel, by decide +kernel⟩

end P2KVS.ReadTest
