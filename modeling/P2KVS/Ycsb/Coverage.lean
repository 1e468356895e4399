import P2KVS.Foundation.Merging
import P2KVS.Merge.Refinement
import P2KVS.Ycsb.Worker

/-!
# The two scan paths of `ycsb.cpp`

With `MULTISCAN` every worker scans its own instance, otherwise the dispatcher scans all instances
through a `MergingIterator`. The loops differ: a worker counts from 1 behind its `Seek`, the
dispatcher from 0 with `Next()` at the end of an iteration. `multiscan_covers_single_thread_scan`
says that they meet: the smallest entries of all parts are those the merging iterator stands on.
-/

namespace P2KVS.Ycsb

open Merging Sorted

/-- The iterator of a worker's scan, behind `Seek` and behind each `Next` of the loop with `rest`
iterations left. -/
def scanSteps : Nat → Cursor Slice Slice → List (Cursor Slice Slice)
  | 0, iter => [iter]
  | rest + 1, iter =>
      if Iterator.valid iter then iter :: scanSteps rest (Iterator.next iter) else [iter]

/-- The count of a worker's scan loop: one for `Seek` and one for each `Next`. -/
theorem scanLoop_eq (rest : Nat) (iter : Cursor Slice Slice) (found : Nat) :
    Locals.scanLoop rest iter (found + 1) = found + (scanSteps rest iter).length := by
  induction rest generalizing iter found with
  | zero => rfl
  | succ rest ih =>
      simp only [Locals.scanLoop, scanSteps]
      split_ifs
      · rw [ih, List.length_cons]
        omega
      · rfl

/-- A worker's scan goes over the steps of its iterator. -/
theorem found_scan (p : Params) (pos : Nat) (r : AsyncRequest) (v : Locals) :
    (v.scan p pos r).found = v.found + (scanSteps (r.scanSize - 1).toNat
      (Iterator.seek (Cursor.start (v.db p)) ((KeySlice.mk p.keySize).resolve v.key))).length :=
  scanLoop_eq _ _ _

/-- The entries on which a worker's scan of `db` is positioned. -/
def scanEntries (db : Instance) (start : Slice) (scanSize : Int) : List (Slice × Slice) :=
  (scanSteps (scanSize - 1).toNat (Iterator.seek (Cursor.start db) start)).filterMap
    Iterator.observe

/-- The entries on which the dispatcher's merging iterator stands at the start of the iterations of
`for (int j = 0; j < c->scan_size && merge_iter->Valid(); j++)`. -/
def mergeEntries {queueNum : Nat} (dbs : Fin queueNum → Instance) (start : Slice)
    (scanSize : Int) : List (Slice × Slice) :=
  Iterator.stand scanSize.toNat
    (Iterator.seek (MergingIterator.new bytewiseComparator fun j => Cursor.start (dbs j)) start)

/-- The steps of a scan show the entries from the position of the iterator on. -/
theorem observe_scanSteps (rest : Nat) (iter : Cursor Slice Slice) :
    (scanSteps rest iter).filterMap Iterator.observe = Iterator.stand (rest + 1) iter := by
  induction rest generalizing iter with
  | zero =>
      by_cases hvalid : Iterator.valid iter = true
      · simp [scanSteps, Iterator.stand, Iterator.observe, hvalid]
      · simp [scanSteps, Iterator.stand, Iterator.observe, hvalid]
  | succ rest ih =>
      by_cases hvalid : Iterator.valid iter = true
      · rw [scanSteps, if_pos hvalid, Iterator.stand, if_pos hvalid, ← ih]
        simp [Iterator.observe, hvalid]
      · simp [scanSteps, Iterator.stand, Iterator.observe, hvalid]

/-- A worker's scan is positioned on the first `scan_size` entries at or past the start key. -/
theorem scanEntries_eq (db : Instance) (start : Slice) {scanSize : Int} (hsize : 1 ≤ scanSize) :
    scanEntries db start scanSize =
      (db.entries.filter fun e => start ≤ e.1).take scanSize.toNat := by
  have hcount : (scanSize - 1).toNat + 1 = scanSize.toNat := by omega
  rw [scanEntries, observe_scanSteps, hcount, MergingIterator.stand_cursor]
  exact congrArg (List.take scanSize.toNat)
    (Cursor.remains_seek (fun _ _ => le_of_lt) (Cursor.start db) start)

/-- The keys at or past a key are those of the entries there. -/
theorem length_keysFrom (db : Instance) (start : Slice) :
    (db.keysFrom start).length = (db.entries.filter fun e => start ≤ e.1).length := by
  rw [SortedMap.keysFrom, SortedMap.keys, List.filter_map, List.length_map]
  rfl

/-- A worker's scan takes one step for its `Seek` and one for each key it moves past. -/
theorem length_scanSteps (rest : Nat) (db : Instance) (start : Slice) :
    (scanSteps rest (Iterator.seek (Cursor.start db) start)).length =
      1 + min rest (db.keysFrom start).length := by
  have hstand : ∀ iter : Cursor Slice Slice,
      (scanSteps rest iter).length = 1 + (Iterator.stand rest iter).length := by
    induction rest with
    | zero => exact fun _ => rfl
    | succ rest ih =>
        intro iter
        rw [scanSteps, Iterator.stand]
        split_ifs
        · rw [List.length_cons, List.length_cons, ih]
          omega
        · rfl
  rw [hstand, MergingIterator.stand_cursor, List.length_take, length_keysFrom]
  exact congrArg (fun entries => 1 + min rest (List.length entries))
    (drop_findIdx_eq_filter (db.sorted.imp le_of_lt) start)

/-- The entries of all instances at or past a key are the merge of those of each instance. -/
theorem filter_union_eq_merge {queueNum : Nat} {dbs : Fin queueNum → Instance}
    (hdisjoint : SortedMap.Disjoint dbs) (start : Slice) :
    ((SortedMap.union dbs).entries.filter fun e => start ≤ e.1) =
      merge Prod.fst fun i => (dbs i).entries.filter fun e => start ≤ e.1 := by
  refine eq_merge ((SortedMap.union dbs).sorted.filter _) ?_ fun x => ?_
  · refine List.nodup_flatMap.mpr ⟨fun i _ => ?_, (List.nodup_finRange queueNum).imp ?_⟩
    · exact (List.Nodup.of_map Prod.fst (dbs i).keys_nodup).filter _
    · intro i j hij x hxi hxj
      exact hdisjoint i j hij x.1 (List.mem_map_of_mem (List.mem_of_mem_filter hxi))
        (List.mem_map_of_mem (List.mem_of_mem_filter hxj))
  · simp only [List.mem_filter, SortedMap.mem_entries_union hdisjoint, exists_and_right]

/-- The parallel scan covers the single-thread scan: among the entries on which the scans of all
workers are positioned, the `scan_size` smallest ones (all of them if there are fewer) are those on
which the dispatcher's merging iterator stands, in order; and the scan of each instance is
positioned on as many entries as there are keys at or past the start key, at most `scan_size`. -/
theorem multiscan_covers_single_thread_scan {queueNum : Nat} (dbs : Fin queueNum → Instance)
    (hdisjoint : SortedMap.Disjoint dbs) (start : Slice) {scanSize : Int} (hsize : 1 ≤ scanSize) :
    (merge Prod.fst fun i => scanEntries (dbs i) start scanSize).take scanSize.toNat =
        mergeEntries dbs start scanSize ∧
      ∀ i, (scanEntries (dbs i) start scanSize).length =
        min scanSize.toNat ((dbs i).keysFrom start).length := by
  constructor
  · rw [mergeEntries]
    refine Eq.trans ?_ (MergingIterator.stand_seek bytewiseComparator hdisjoint start _).symm
    rw [filter_union_eq_merge hdisjoint]
    refine take_merge (fun i => ?_) (fun i => ?_) fun i => ?_
    · exact ((dbs i).sorted.imp le_of_lt).filter _
    · rw [scanEntries_eq _ _ hsize]
      exact List.take_prefix _ _
    · rw [scanEntries_eq _ _ hsize, List.length_take]
      by_cases hlong : scanSize.toNat ≤ ((dbs i).entries.filter fun e => start ≤ e.1).length
      · exact .inl (by omega)
      · exact .inr (List.take_of_length_le (by omega))
  · intro i
    rw [scanEntries_eq _ _ hsize, List.length_take, length_keysFrom]

/-- Three instances: the second holds most of the keys, the third none. -/
def unevenInstances : Fin 3 → Instance
  | 0 => ⟨[([1], []), ([5], [])], by decide⟩
  | 1 => ⟨[([2], []), ([3], []), ([4], [])], by decide⟩
  | 2 => .empty

/-- A scan of size 3 from the key `[2]` over uneven instances. -/
theorem multiscan_covers_single_thread_scan_uneven :
    SortedMap.Disjoint unevenInstances ∧
      (merge Prod.fst fun i => scanEntries (unevenInstances i) [2] 3).take 3 =
        mergeEntries unevenInstances [2] 3 ∧
      ∀ i, (scanEntries (unevenInstances i) [2] 3).length =
        min 3 ((unevenInstances i).keysFrom [2]).length := by
  have hdisjoint : SortedMap.Disjoint unevenInstances := by decide
  have hsize : (1 : Int) ≤ 3 := by omega
  exact ⟨hdisjoint, multiscan_covers_single_thread_scan unevenInstances hdisjoint [2] hsize⟩

end P2KVS.Ycsb
