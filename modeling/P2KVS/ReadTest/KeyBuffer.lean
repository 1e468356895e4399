import P2KVS.ReadTest.LevelDB
import P2KVS.Ycsb.Dispatch
import P2KVS.Ycsb.KeyBuffer

/-!
# Batched lookups and the key buffer

Three workers collect the keys of a batch of lookups as references to one buffer: those of
`ycsb.cpp`, `read_test.cpp` and `read_test_leveldb.cpp`. The references are resolved when the batch
is executed, and by then the buffer holds the key of the request taken last. So the lookups use the
keys of their own requests as long as every request taken while reads are pending has their key
(`lookups_own_keys`). `lookups_wrong_keys` is a run of each program in which it has not.
-/

namespace P2KVS

open History Transition
open Ycsb (KeySlice map_resolve_replicate)

namespace ReadTest

/-- The request about to be taken, if any, has the key of every pending read. -/
def SameKey (slots : Nat → AsyncRequest) (w : Worker) (_ : Choice) : Prop :=
  w.pc = .body → (slots w.seq).seq ≠ -1 →
    ∀ i ∈ w.reads, (slots i).bytes = (slots w.seq).bytes

/-- If every request taken while reads are pending has their key, the lookups of a worker of
`read_test.cpp` use the keys of their own requests. -/
theorem Worker.ownKeys {db : Instance} {slots : Nat → AsyncRequest} {tail : Nat} {w : Worker}
    (h : (Worker.alone db slots tail).Reachable (SameKey slots) w) :
    ∀ call ∈ w.calls, call.OwnKeys fun i => (slots i).bytes := by
  refine own_keys_of_run Worker.seq Worker.reads Worker.calls _ ⟨rfl, rfl⟩ ?_ h
  intro w c w' hw hsame hstep
  have hinv := Worker.inv_reachable hw
  obtain ⟨_, _, _, rfl⟩ | ⟨_, _, rfl⟩ | ⟨hpc, hseq, _, rfl⟩ | ⟨hpc, hseq, _, rfl⟩ :=
    Worker.step_cases hstep
  · exact ⟨extends_refl _ _, List.subset_append_left _ _, .inl rfl⟩
  · exact ⟨extends_refl _ _, List.subset_append_left _ _, .inl rfl⟩
  · exact ⟨extends_refl _ _, fun _ => id, .inr ⟨rfl, hsame hpc hseq⟩⟩
  · -- the batch is full: all its keys denote the key of the request just taken
    obtain ⟨_, hkeys, _, _⟩ := hinv.push hseq
    refine ⟨extends_concat w.calls ⟨fun _ => id, ?_⟩, List.nil_subset _, .inr ⟨rfl, hsame hpc hseq⟩⟩
    have hlength : keySize = (slots w.seq).bytes.length := (length_generateKeyFromInt _ _).symm
    show (w.push (slots w.seq)).keys.map (KeySlice.resolve (slots w.seq).bytes) = _
    rw [hkeys, hlength, map_resolve_replicate]
    rfl

end ReadTest

namespace ReadTestLevelDB

/-- The request about to be taken, if any, has the key of every pending read. -/
def SameKey (slots : Nat → AsyncRequest) (w : Worker) (_ : Choice) : Prop :=
  w.pc = .inner → w.seq < w.t ∧ w.batchSize < batchSizeLimit → (slots w.seq).seq ≠ -1 →
    ∀ i ∈ w.reads, (slots i).bytes = (slots w.seq).bytes

/-- If every request taken while reads are pending has their key, the lookups of a worker of
`read_test_leveldb.cpp` use the keys of their own requests. -/
theorem Worker.ownKeys {db : Instance} {slots : Nat → AsyncRequest} {tail : Nat} {w : Worker}
    (h : (Worker.alone db slots tail).Reachable (SameKey slots) w) :
    ∀ call ∈ w.calls, call.OwnKeys fun i => (slots i).bytes := by
  refine own_keys_of_run Worker.seq Worker.reads Worker.calls _ ⟨rfl, rfl⟩ ?_ h
  intro w c w' hw hsame hstep
  have hinv := Worker.inv_reachable hw
  obtain ⟨_, _, _, rfl⟩ | ⟨hpc, htest, rfl⟩ | ⟨_, rfl⟩ | ⟨hpc, rfl⟩ := Worker.step_cases hstep
  · exact ⟨extends_refl _ _, List.subset_append_left _ _, .inl rfl⟩
  · unfold Worker.take
    split_ifs with hend
    · exact ⟨extends_refl _ _, List.subset_append_left _ _, .inl rfl⟩
    · exact ⟨extends_refl _ _, fun _ => id, .inr ⟨rfl, hsame hpc htest hend⟩⟩
  · exact ⟨extends_refl _ _, List.subset_append_left _ _, .inl rfl⟩
  · have hsize := hinv.size (.inr hpc)
    unfold Worker.lookups
    split_ifs with hsome
    · refine ⟨extends_concat w.calls ⟨?_, ?_⟩, List.nil_subset _, .inl rfl⟩
      · exact List.Subset.trans (List.take_subset _ _) (List.subset_append_left _ _)
      have hpos : 0 < w.seq := by
        have htotal := congrArg List.length hinv.taken
        rw [List.length_append, List.length_range] at htotal
        omega
      have hlength : keySize = (slots (w.seq - 1)).bytes.length :=
        (length_generateKeyFromInt _ _).symm
      show (w.keys.take w.batchSize).map (KeySlice.resolve w.key) =
        List.replicate (w.reads.take w.batchSize).length (slots (w.seq - 1)).bytes
      rw [hinv.keys, hinv.buffer hpos, hsize, List.take_length, List.take_replicate, Nat.min_self,
        hlength, map_resolve_replicate]
    · exact ⟨extends_refl _ _, List.subset_append_left _ _, .inl rfl⟩

end ReadTestLevelDB

/-- In every run of the three workers in which each request taken while reads are pending has their
key, the keys of every lookup denote, when it is made, the keys of the requests it serves. -/
theorem lookups_own_keys (p : Ycsb.Params) (db : Instance) (tail : Nat) :
    (∀ (slots : Nat → Ycsb.AsyncRequest) (w : Ycsb.Worker),
      (Ycsb.Worker.alone p slots tail).Reachable (Ycsb.SameKey p slots) w →
      ∀ call ∈ w.vars.calls, call.OwnKeys fun i => generateKeyFromInt p.keySize (slots i).key) ∧
    (∀ (slots : Nat → ReadTest.AsyncRequest) (w : ReadTest.Worker),
      (ReadTest.Worker.alone db slots tail).Reachable (ReadTest.SameKey slots) w →
      ∀ call ∈ w.calls, call.OwnKeys fun i =>
        generateKeyFromInt 28 (UInt64.ofInt (slots i).key)) ∧
    (∀ (slots : Nat → ReadTestLevelDB.AsyncRequest) (w : ReadTestLevelDB.Worker),
      (ReadTestLevelDB.Worker.alone db slots tail).Reachable (ReadTestLevelDB.SameKey slots) w →
      ∀ call ∈ w.calls, call.OwnKeys fun i =>
        generateKeyFromInt 28 (UInt64.ofInt (slots i).key)) :=
  ⟨fun _ _ h => Ycsb.Worker.ownKeys h, fun _ _ h => ReadTest.Worker.ownKeys h,
    fun _ _ h => ReadTestLevelDB.Worker.ownKeys h⟩

/-- A queue of `ycsb.cpp` that reads these keys, and its worker on an empty instance. -/
def ycsbReader (keys : Nat → UInt64) : System Ycsb.Worker Ycsb.Choice :=
  Ycsb.Worker.alone (Ycsb.smallConfig.params .empty)
    (fun i => Ycsb.fillPoint i (keys i) false .blank) 2

/-- A queue of `read_test.cpp` with these keys, and its worker on an empty instance. -/
def readTestReader (keys : Nat → Int) : System ReadTest.Worker ReadTest.Choice :=
  ReadTest.Worker.alone .empty (fun i => ⟨i, keys i, .read⟩) 32

/-- A queue of `read_test_leveldb.cpp` with these keys, and its worker on an empty instance. -/
def levelDBReader (keys : Nat → Int) : System ReadTestLevelDB.Worker ReadTestLevelDB.Choice :=
  ReadTestLevelDB.Worker.alone .empty (fun i => ⟨i, keys i⟩) 2

/-- The worker takes two reads, finds its queue empty and looks them up. -/
def ycsbRun : List Ycsb.Choice :=
  List.replicate 9 (.sees 2)

/-- The worker takes the requests of one batch, and the last of them completes it. -/
def readTestRun : List ReadTest.Choice :=
  List.replicate 64 (.sees 32)

/-- The worker takes two requests and looks them up. -/
def levelDBRun : List ReadTestLevelDB.Choice :=
  List.replicate 5 (.sees 2)

/-- Requests that are all for key 4: each program looks up its requests with their own bytes. -/
theorem lookups_own_keys_one_key :
    let bytes := fun _ : Nat => generateKeyFromInt 28 4
    let pair := Call.multiGet [0, 1] [bytes 0, bytes 1] [.notFound, .notFound]
    let full := Call.multiGet (List.range 32) ((List.range 32).map bytes)
      (List.replicate 32 .notFound)
    (((ycsbReader fun _ => 4).after ycsbRun).vars.calls = [pair] ∧ pair.OwnKeys bytes) ∧
      (((readTestReader fun _ => 4).after readTestRun).calls = [full] ∧ full.OwnKeys bytes) ∧
      (((levelDBReader fun _ => 4).after levelDBRun).calls = [pair] ∧ pair.OwnKeys bytes) := by
  intro bytes pair full
  have hycsb : (ycsbReader fun _ => 4).Reachable
      (Ycsb.SameKey (Ycsb.smallConfig.params .empty) fun i => Ycsb.fillPoint i 4 false .blank)
      ((ycsbReader fun _ => 4).after ycsbRun) :=
    System.reachable_after (by decide +kernel) (by decide +kernel)
  have hread : (readTestReader fun _ => 4).Reachable
      (ReadTest.SameKey fun i => ⟨i, 4, .read⟩) ((readTestReader fun _ => 4).after readTestRun) :=
    System.reachable_after (System.always_of_forall (fun _ _ _ _ _ _ => rfl) _ _)
      (by decide +kernel)
  have hlevel : (levelDBReader fun _ => 4).Reachable
      (ReadTestLevelDB.SameKey fun i => ⟨i, 4⟩) ((levelDBReader fun _ => 4).after levelDBRun) :=
    System.reachable_after (System.always_of_forall (fun _ _ _ _ _ _ _ => rfl) _ _)
      (by decide +kernel)
  have hpair : ((ycsbReader fun _ => 4).after ycsbRun).vars.calls = [pair] := by decide +kernel
  have hfull : ((readTestReader fun _ => 4).after readTestRun).calls = [full] := by
    decide +kernel
  have hpair' : ((levelDBReader fun _ => 4).after levelDBRun).calls = [pair] := by decide +kernel
  have hown := (lookups_own_keys _ .empty _).1 _ _ hycsb
  have hown' := (lookups_own_keys (Ycsb.smallConfig.params .empty) _ _).2.1 _ _ hread
  have hown'' := (lookups_own_keys (Ycsb.smallConfig.params .empty) _ _).2.2 _ _ hlevel
  rw [hpair] at hown
  rw [hfull] at hown'
  rw [hpair'] at hown''
  exact ⟨⟨hpair, hown pair (List.mem_singleton.mpr rfl)⟩,
    ⟨hfull, hown' full (List.mem_singleton.mpr rfl)⟩,
    hpair', hown'' pair (List.mem_singleton.mpr rfl)⟩

/-- Each of the three workers looks up the key of its last request in the place of all the others:
request 0 asks for key 0, and no lookup is made for that key. -/
theorem lookups_wrong_keys :
    let bytes := fun i : Nat => generateKeyFromInt 28 (UInt64.ofNat i)
    let ycsb := (ycsbReader UInt64.ofNat).after ycsbRun
    let readTest := (readTestReader Int.ofNat).after readTestRun
    let levelDB := (levelDBReader Int.ofNat).after levelDBRun
    ((ycsbReader UInt64.ofNat).Reachable (fun _ _ => True) ycsb ∧
      ycsb.vars.calls = [.multiGet [0, 1] [bytes 1, bytes 1] [.notFound, .notFound]]) ∧
    ((readTestReader Int.ofNat).Reachable (fun _ _ => True) readTest ∧
      readTest.calls = [.multiGet (List.range 32) (List.replicate 32 (bytes 31))
        (List.replicate 32 .notFound)]) ∧
    ((levelDBReader Int.ofNat).Reachable (fun _ _ => True) levelDB ∧
      levelDB.calls = [.multiGet [0, 1] [bytes 1, bytes 1] [.notFound, .notFound]]) ∧
    bytes 0 ≠ bytes 1 ∧ bytes 0 ≠ bytes 31 := by
  intro bytes ycsb readTest levelDB
  exact ⟨⟨System.reachable_after_free (by decide +kernel), by decide +kernel⟩,
    ⟨System.reachable_after_free (by decide +kernel), by decide +kernel⟩,
    ⟨System.reachable_after_free (by decide +kernel), by decide +kernel⟩,
    by decide +kernel, by decide +kernel⟩

end P2KVS
