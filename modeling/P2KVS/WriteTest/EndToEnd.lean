import Mathlib.Data.List.Sort
import P2KVS.Merge.Refinement
import P2KVS.WriteTest.Worker

/-!
# From `write_test.cpp` to `read_test.cpp`

The dispatcher of `write_test.cpp` generates the keys `0, 1, …` in `SEQUENTIAL` mode and routes them
by their residue. When all workers have exited, `read_test.cpp` opens the same instances and walks a
`MergingIterator` over them. `write_then_read` composes the parts: routing, batching, the
order-preserving key encoding and the merge.
-/

namespace P2KVS.WriteTest

open Channel History Sorted Transition

/-- The compile-time configuration. -/
structure Config where
  queueNum : Nat
  totalNum : Nat
  queueNum_pos : 0 < queueNum

/-- The number of slots in a row of `qs`. -/
def Config.rowLength (cfg : Config) : Nat :=
  cfg.totalNum / cfg.queueNum + cfg.totalNum / 10 + 1

/-- `KeyGenerator::Next()` in `SEQUENTIAL` mode: the key and the next value of `next_`. -/
def nextKey (next : UInt64) : UInt64 × UInt64 :=
  (next, next + 1)

/-- The stores of the `i`-th request; the key is converted to `int`. -/
def fillRequest (i : Nat) (key : UInt64) (slot : AsyncRequest) : AsyncRequest :=
  { slot with seq := i, key := Int.bmod key.toNat (2 ^ 32) }

/-- The stores of an end marker. -/
def fillEnd (slot : AsyncRequest) : AsyncRequest :=
  { slot with seq := -1, key := -1 }

/-- The loop `for (int i = 0; i < TOTAL_NUM; i++)`, with `rest` iterations left. -/
def issueAll (cfg : Config) : Nat → Nat → UInt64 → List (Enqueue AsyncRequest)
  | 0, _, _ => []
  | rest + 1, i, next =>
      let (key, next) := nextKey next
      ⟨key.toNat % cfg.queueNum, fillRequest i key⟩ :: issueAll cfg rest (i + 1) next

/-- The enqueue of the `i`-th request. -/
def issue (cfg : Config) (i : Nat) : Enqueue AsyncRequest :=
  ⟨(UInt64.ofNat i).toNat % cfg.queueNum, fillRequest i (UInt64.ofNat i)⟩

/-- The loop enqueues the requests one after the other. -/
theorem issueAll_eq (cfg : Config) (rest i : Nat) :
    issueAll cfg rest i (UInt64.ofNat i) = (List.range' i rest).map (issue cfg) := by
  induction rest generalizing i with
  | zero => rfl
  | succ rest ih =>
      have hnext : UInt64.ofNat i + 1 = UInt64.ofNat (i + 1) := by
        rw [UInt64.ofNat_add]
        rfl
      rw [issueAll, List.range'_succ, List.map_cons, ← ih]
      simp only [nextKey, hnext, issue]

/-- The program `write_test.cpp`, which starts on empty instances. -/
def pipeline (cfg : Config) : Pipeline AsyncRequest Worker Choice where
  queueNum := cfg.queueNum
  row := cfg.rowLength
  blank := .blank
  program := issueAll cfg cfg.totalNum 0 0 ++ broadcast cfg.queueNum fillEnd
  consumer := fun _ => Worker.consumer
  start := fun _ => .start
  routed := by
    intro e he
    rcases List.mem_append.mp he with he | he
    · have heq := issueAll_eq cfg cfg.totalNum 0
      rw [show UInt64.ofNat 0 = 0 from rfl] at heq
      rw [heq] at he
      obtain ⟨i, _, rfl⟩ := List.mem_map.mp he
      exact Nat.mod_lt _ cfg.queueNum_pos
    · exact broadcast_routed e he
  start_synced := fun _ => Nat.le_refl _

/-- Every `db->Write` of the program succeeds. -/
abbrev WritesSucceed : State AsyncRequest Worker → Action Choice → Prop :=
  Pipeline.onWork fun _ _ c => c.writeStatus = .ok

/-- The instances that the workers leave behind. -/
def instances (cfg : Config) (s : State AsyncRequest Worker) (q : Fin cfg.queueNum) : Instance :=
  contents .empty (s.workers q).calls

/-- The merging iterator that `read_test.cpp` creates over the instances and positions with
`SeekToFirst`. -/
def mergeIter (cfg : Config) (s : State AsyncRequest Worker) :
    MergingIterator cfg.queueNum (Cursor Slice Slice) Slice :=
  (MergingIterator.new bytewiseComparator fun q => Cursor.start (instances cfg s q)).seekToFirst

/-- The key of the number `i`. -/
def keyOf (i : Nat) : Slice :=
  generateKeyFromInt keySize (UInt64.ofNat i)

section Requests

variable {cfg : Config} {q : Nat}

/-- The numbers that queue `q` receives. -/
def residues (cfg : Config) (q : Nat) : List Nat :=
  (List.range cfg.totalNum).filter fun i => i % cfg.queueNum = q

/-- A number below `2 ^ 31` is its own 64-bit value. -/
theorem toNat_ofNat_of_lt {i : Nat} (hi : i < 2 ^ 31) : (UInt64.ofNat i).toNat = i := by
  rw [UInt64.toNat_ofNat']
  omega

/-- A number below `2 ^ 31` survives the conversions to `int` and back. -/
theorem record_fillRequest {i : Nat} (hi : i < 2 ^ 31) (slot : AsyncRequest) :
    (record (fillRequest i (UInt64.ofNat i) slot)).1 = keyOf i := by
  have hint : Int.bmod (i : Int) (2 ^ 32) = i := by
    rw [Int.bmod_eq_of_le] <;> omega
  have hback : ((i : Int) % 2 ^ 64).toNat = i := by omega
  simp only [record, fillRequest, toNat_ofNat_of_lt hi, hint, keyOf, UInt64.ofInt, hback]

/-- Row `q` holds the requests of its residue class and the end marker. -/
theorem content_eq (htotal : cfg.totalNum < 2 ^ 31) (hq : q < cfg.queueNum) :
    (pipeline cfg).content q =
      (residues cfg q).map (fun i => fillRequest i (UInt64.ofNat i) .blank) ++
        [fillEnd .blank] := by
  have hissue : (issueAll cfg cfg.totalNum 0 0).filter (fun e => e.queue = q) =
      (residues cfg q).map (issue cfg) := by
    have heq := issueAll_eq cfg cfg.totalNum 0
    rw [show UInt64.ofNat 0 = 0 from rfl] at heq
    rw [heq, List.filter_map, residues, ← List.range_eq_range']
    refine congrArg (List.map _) (List.filter_congr fun i hi => ?_)
    have hlt : i < 2 ^ 31 := Nat.lt_trans (List.mem_range.mp hi) htotal
    simp only [Function.comp_apply, issue, toNat_ofNat_of_lt hlt]
  refine (Pipeline.content_of_broadcast rfl hq).trans (congrArg (· ++ [fillEnd .blank]) ?_)
  rw [hissue, List.map_map]
  rfl

/-- A number below `2 ^ 31` fits the encoded bytes. -/
theorem toNat_ofNat_lt_pow {i : Nat} (hi : i < 2 ^ 31) :
    (UInt64.ofNat i).toNat < 256 ^ min keySize 8 := by
  rw [toNat_ofNat_of_lt hi, show 256 ^ min keySize 8 = 2 ^ 64 from rfl]
  omega

/-- The encoding of numbers below `2 ^ 31` is strictly increasing. -/
theorem keyOf_lt_iff {i j : Nat} (hi : i < 2 ^ 31) (hj : j < 2 ^ 31) :
    keyOf i < keyOf j ↔ i < j := by
  rw [keyOf, keyOf, generate_key_lt_iff keySize (toNat_ofNat_lt_pow hi) (toNat_ofNat_lt_pow hj),
    toNat_ofNat_of_lt hi, toNat_ofNat_of_lt hj]

/-- The encoding of numbers below `2 ^ 31` is injective. -/
theorem keyOf_inj {i j : Nat} (hi : i < 2 ^ 31) (hj : j < 2 ^ 31) (h : keyOf i = keyOf j) :
    i = j := by
  have hvalue := generate_key_inj (toNat_ofNat_lt_pow hi) (toNat_ofNat_lt_pow hj) h
  rw [← toNat_ofNat_of_lt hi, hvalue, toNat_ofNat_of_lt hj]

end Requests

section Instances

variable {cfg : Config} {s : State AsyncRequest Worker}

/-- The instance that worker `q` leaves behind holds the keys of its residue class. -/
theorem mem_keys_instances (htotal : cfg.totalNum < 2 ^ 31) (hfit : (pipeline cfg).Fits)
    (h : (pipeline cfg).system.Reachable WritesSucceed s) (q : Fin cfg.queueNum)
    (hexit : (s.workers q).pc = .exited) (k : Slice) :
    k ∈ (instances cfg s q).keys ↔ ∃ i < cfg.totalNum, i % cfg.queueNum = q ∧ keyOf i = k := by
  have hinv : Worker.Inv ((pipeline cfg).view q) (s.workers q) :=
    (Pipeline.worker_reachable hfit h q.isLt).invariant
      (I := Worker.Inv ((pipeline cfg).view q)) (Worker.inv_start _)
      fun _ hold hok hstep => hold.step hok hstep
  let requests := (residues cfg q).map fun i => fillRequest i (UInt64.ofNat i) .blank
  have hview : ∀ i, (pipeline cfg).view q i = (requests ++ [fillEnd .blank]).getD i .blank := by
    intro i
    rw [Pipeline.view, content_eq htotal q.isLt]
    rfl
  have hreal := hinv.real
  have hmarker := hinv.point
  simp only [hexit, hview] at hreal hmarker
  have hrequests : ∀ r ∈ requests, ¬ r.seq = -1 := by
    intro r hr
    obtain ⟨i, _, rfl⟩ := List.mem_map.mp hr
    simp only [fillRequest]
    omega
  -- the worker has stopped at the end marker, so it has taken exactly the requests
  have hseq : (s.workers q).seq = requests.length :=
    eq_length_of_marked (fun r : AsyncRequest => r.seq = -1) hrequests rfl hreal hmarker.2
  have hslot : ∀ {i : Nat} (hi : i < requests.length), (pipeline cfg).view q i = requests[i] := by
    intro i hi
    rw [hview, List.getD_append _ _ _ _ hi, List.getD_eq_getElem _ _ hi]
  rw [instances, hinv.mem_keys_exited hexit, hseq]
  constructor
  · intro hk
    obtain ⟨n, hn, rfl⟩ | hk := hk
    · obtain ⟨i, hi, heq⟩ := List.mem_map.mp (List.getElem_mem hn)
      simp only [residues, List.mem_filter, List.mem_range, decide_eq_true_eq] at hi
      refine ⟨i, hi.1, hi.2, ?_⟩
      rw [hslot hn, ← heq, record_fillRequest (Nat.lt_trans hi.1 htotal)]
    · simp [SortedMap.keys, SortedMap.empty] at hk
  · intro hk
    obtain ⟨i, hi, hres, rfl⟩ := hk
    have hmem : fillRequest i (UInt64.ofNat i) .blank ∈ requests :=
      List.mem_map_of_mem (by simp [residues, hi, hres])
    obtain ⟨n, hn, heq⟩ := List.mem_iff_getElem.mp hmem
    exact .inl ⟨n, hn, by rw [hslot hn, heq, record_fillRequest (Nat.lt_trans hi htotal)]⟩

/-- The instances have disjoint keys. -/
theorem disjoint_instances (htotal : cfg.totalNum < 2 ^ 31) (hfit : (pipeline cfg).Fits)
    (h : (pipeline cfg).system.Reachable WritesSucceed s)
    (hdone : ∀ q < cfg.queueNum, (s.workers q).pc = .exited) :
    SortedMap.Disjoint (instances cfg s) := by
  intro a b hab k hka hkb
  obtain ⟨i, hi, hia, rfl⟩ := (mem_keys_instances htotal hfit h a (hdone a a.isLt) k).mp hka
  obtain ⟨j, hj, hjb, hkey⟩ := (mem_keys_instances htotal hfit h b (hdone b b.isLt) _).mp hkb
  -- one key comes from one number, and the number has one residue
  obtain rfl := keyOf_inj (Nat.lt_trans hj htotal) (Nat.lt_trans hi htotal) hkey
  exact hab (Fin.ext (hia.symm.trans hjb))

/-- Together the instances hold the keys of all numbers below `TOTAL_NUM`, in this order. -/
theorem keys_union_instances (htotal : cfg.totalNum < 2 ^ 31) (hfit : (pipeline cfg).Fits)
    (h : (pipeline cfg).system.Reachable WritesSucceed s)
    (hdone : ∀ q < cfg.queueNum, (s.workers q).pc = .exited) :
    (SortedMap.union (instances cfg s)).keys = (List.range cfg.totalNum).map keyOf := by
  have hsorted : ((List.range cfg.totalNum).map keyOf).Pairwise (· < ·) := by
    refine List.pairwise_map.mpr (List.pairwise_lt_range.imp_of_mem ?_)
    intro i j hi hj hlt
    have hbound : ∀ {n : Nat}, n ∈ List.range cfg.totalNum → n < 2 ^ 31 :=
      fun hn => Nat.lt_trans (List.mem_range.mp hn) htotal
    exact (keyOf_lt_iff (hbound hi) (hbound hj)).mpr hlt
  refine List.Pairwise.eq_of_mem_iff (SortedMap.keys_sorted _) hsorted fun k => ?_
  rw [SortedMap.mem_keys_union, List.mem_map]
  constructor
  · intro hk
    obtain ⟨q, hq⟩ := hk
    obtain ⟨i, hi, _, hkey⟩ := (mem_keys_instances htotal hfit h q (hdone q q.isLt) k).mp hq
    exact ⟨i, List.mem_range.mpr hi, hkey⟩
  · intro hk
    obtain ⟨i, hi, hkey⟩ := hk
    let q : Fin cfg.queueNum := ⟨i % cfg.queueNum, Nat.mod_lt _ cfg.queueNum_pos⟩
    exact ⟨q, (mem_keys_instances htotal hfit h q (hdone q q.isLt) k).mpr
      ⟨i, List.mem_range.mp hi, rfl, hkey⟩⟩

end Instances

/-- When `write_test.cpp` has finished, a pass of the merging iterator of `read_test.cpp` over the
same instances, by `SeekToFirst` and `Next` until it is not valid any more, yields exactly the keys
of `0, …, TOTAL_NUM - 1`, in this order and each once. -/
theorem write_then_read {cfg : Config} (htotal : cfg.totalNum < 2 ^ 31) (hfit : (pipeline cfg).Fits)
    {s : State AsyncRequest Worker} (h : (pipeline cfg).system.Reachable WritesSucceed s)
    (hdone : ∀ q < cfg.queueNum, (s.workers q).pc = .exited) :
    Iterator.walk cfg.totalNum (mergeIter cfg s) =
      some ((List.range cfg.totalNum).map fun i => generateKeyFromInt 28 (UInt64.ofNat i)) := by
  have hkeys := keys_union_instances htotal hfit h hdone
  have hdisjoint := disjoint_instances htotal hfit h hdone
  have hlength : (SortedMap.union (instances cfg s)).keys.length ≤ cfg.totalNum := by
    rw [hkeys, List.length_map, List.length_range]
  rw [mergeIter, MergingIterator.walk_seekToFirst bytewiseComparator hdisjoint hlength, hkeys]
  rfl

/-- Two queues and four keys. -/
def smallConfig : Config :=
  ⟨2, 4, Nat.two_pos⟩

/-- The dispatcher runs to its end; then worker 1 and worker 0 empty their queues. -/
def smallRun : List (Action Choice) :=
  List.replicate 12 .dispatch ++ List.replicate 5 (.work 1 ⟨3, .ok⟩) ++
    List.replicate 5 (.work 0 ⟨3, .ok⟩)

/-- Four keys on two instances come back in key order. -/
theorem write_then_read_four_keys :
    let final := (pipeline smallConfig).system.after smallRun
    Iterator.walk 4 (mergeIter smallConfig final) =
      some ((List.range 4).map fun i => generateKeyFromInt 28 (UInt64.ofNat i)) := by
  intro final
  have hfit : (pipeline smallConfig).Fits := by decide
  have hreach : (pipeline smallConfig).system.Reachable WritesSucceed final :=
    System.reachable_after (by decide) (by decide)
  have hdone : ∀ q < smallConfig.queueNum, (final.workers q).pc = .exited := by decide
  exact write_then_read (by decide : 4 < 2 ^ 31) hfit hreach hdone

end P2KVS.WriteTest
