import P2KVS.Merge.Iterator

/-!
# RocksDB instances and the calls they receive

An instance is a sorted map under the bytewise comparator. A worker owns its instance, so the state
of the instance is determined by its initial contents and the calls the worker has made. `Call`
records one call together with the queue positions of the requests it serves; the positions are
history variables that the programs never read. `contents` replays the calls.
-/

namespace P2KVS

open Sorted

/-- The contents of one RocksDB instance. -/
abbrev Instance := SortedMap Slice Slice

/-- A `WriteBatch` of `Put` records. -/
abbrev WriteBatch := List (Slice × Slice)

/-- A call on an instance, with the queue positions of the requests it serves. A failed `Write` has
no effect, because a batch is applied atomically. -/
inductive Call where
  | write (reqs : List Nat) (batch : WriteBatch) (status : Status)
  | multiGet (reqs : List Nat) (keys : List Slice) (statuses : List Status)
  | newIterator (req : Nat) (start : Slice) (size : Int)
  deriving DecidableEq, Repr

namespace Call

/-- The effect of a call on the contents. -/
def effect (db : Instance) : Call → Instance
  | write _ batch .ok => db.insertAll batch
  | _ => db

/-- The records that a call passes to `db->Write`. -/
def records : Call → WriteBatch
  | write _ batch _ => batch
  | _ => []

/-- The write requests that a call carries. -/
def writeReqs : Call → List Nat
  | write reqs _ _ => reqs
  | _ => []

/-- The write requests that a call applies to the instance. -/
def appliedReqs : Call → List Nat
  | write reqs _ .ok => reqs
  | _ => []

/-- The point reads that a call carries. -/
def readReqs : Call → List Nat
  | multiGet reqs _ _ => reqs
  | _ => []

/-- The scan request that a call serves. -/
def scanReqs : Call → List Nat
  | newIterator req _ _ => [req]
  | _ => []

end Call

/-- The contents of an instance after the calls. -/
def contents (init : Instance) (calls : List Call) : Instance :=
  calls.foldl Call.effect init

/-- The concatenation of all batches passed to `db->Write`. -/
def written (calls : List Call) : WriteBatch :=
  calls.flatMap Call.records

/-- The records of a call that took effect. -/
def Call.appliedRecords : Call → WriteBatch
  | .write _ batch .ok => batch
  | _ => []

/-- The keys of an instance are the initial ones and those of the records that took effect. -/
theorem mem_keys_contents (init : Instance) (calls : List Call) (k : Slice) :
    k ∈ (contents init calls).keys ↔
      k ∈ (calls.flatMap Call.appliedRecords).map Prod.fst ∨ k ∈ init.keys := by
  induction calls generalizing init with
  | nil => simp [contents]
  | cons call rest ih =>
      have hstep : contents init (call :: rest) = contents (call.effect init) rest := rfl
      have heffect : k ∈ (call.effect init).keys ↔
          k ∈ call.appliedRecords.map Prod.fst ∨ k ∈ init.keys := by
        cases call with
        | write reqs batch status =>
            cases status with
            | ok => exact SortedMap.mem_keys_insertAll init batch k
            | notFound => simp [Call.effect, Call.appliedRecords]
            | ioError => simp [Call.effect, Call.appliedRecords]
        | multiGet reqs keys statuses => simp [Call.effect, Call.appliedRecords]
        | newIterator req start size => simp [Call.effect, Call.appliedRecords]
      rw [hstep, ih, heffect, List.flatMap_cons, List.map_append, List.mem_append]
      tauto

/-- When the batches hold the records of their requests, the keys of an instance are the initial
ones and those of the requests that took effect. -/
theorem mem_keys_of_applied {record : Nat → Slice × Slice} {calls : List Call}
    (hrecords : ∀ call ∈ calls, call.records = call.writeReqs.map record) (init : Instance)
    (k : Slice) :
    k ∈ (contents init calls).keys ↔
      (∃ i ∈ calls.flatMap Call.appliedReqs, (record i).1 = k) ∨ k ∈ init.keys := by
  have happlied : calls.flatMap Call.appliedRecords =
      (calls.flatMap Call.appliedReqs).map record := by
    rw [List.map_flatMap]
    refine List.flatMap_congr fun call hcall => ?_
    cases call with
    | write reqs batch status =>
        cases status with
        | ok => exact hrecords _ hcall
        | notFound => rfl
        | ioError => rfl
    | multiGet reqs keys statuses => rfl
    | newIterator req start size => rfl
  rw [mem_keys_contents, happlied, List.map_map, List.mem_map]
  rfl

/-- The status of an error-free lookup. -/
def lookup (db : Instance) (k : Slice) : Status :=
  if k ∈ db.keys then .ok else .notFound

/-- The statuses `db->MultiGet` returns: a lookup the environment fails is an I/O error, the others
report whether the key is present. -/
def multiGetStatuses (db : Instance) (fails : Nat → Bool) (keys : List Slice) : List Status :=
  keys.mapIdx fun i k => if fails i then .ioError else lookup db k

end P2KVS
