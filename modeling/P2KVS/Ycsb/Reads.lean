import P2KVS.Ycsb.KeyBuffer
import P2KVS.Ycsb.Writes

/-!
# Reads of `ycsb.cpp`: late enough, but not always of their own key

A point read waits in `mutligetKeys` until its batch is looked up. `reads_are_fresh` says that the
lookup comes late enough: every write in front of the read has been applied. It need not come early
enough: a write request does not flush the pending reads, so a write behind a read can be applied
before the read is looked up (`read_from_the_future`). `no_read_from_the_future` gives the condition
under which that does not happen.

Late enough is not enough to find the key: the pending keys are references to one buffer, so a read
can be answered for the key of a later request (`read_misses_write`). The second part of
`reads_are_fresh` is about runs in which it is not.
-/

namespace P2KVS.Ycsb

open Channel History Sorted Transition

/-- No pending read is passed by a write: a write request is taken only while no key waits for a
lookup. -/
def NoOvertaking (w : Worker) (_ : Choice) : Prop :=
  w.takesWrite → w.vars.mutligetKeys = []

/-- The condition is about the state before the step, and can be computed. -/
instance (w : Worker) (c : Choice) : Decidable (NoOvertaking w c) :=
  inferInstanceAs (Decidable (w.takesWrite = true → w.vars.mutligetKeys = []))

/-- In every run in which no pending read is passed by a write, the state that a point read is
looked up in contains no effect of a write behind it. In particular the read of a key that only
later writes insert reports that the key is not found. -/
theorem no_read_from_the_future {p : Params} {slots : Nat → AsyncRequest} {tail : Nat} {w : Worker}
    (h : (Worker.alone p slots tail).Reachable NoOvertaking w) {before after : List Call}
    {reqs : List Nat} {keys : List Slice} {statuses : List Status}
    (hcalls : w.vars.calls = before ++ .multiGet reqs keys statuses :: after) {r : Nat}
    (hr : r ∈ reqs) :
    let key := fun i => generateKeyFromInt p.keySize (slots i).key
    (∀ i ∈ before.flatMap Call.appliedReqs, i < r) ∧
    (∀ k ∈ (contents p.opened before).keys,
      k ∈ p.opened.keys ∨ ∃ i < r, isWrite slots i = true ∧ key i = k) ∧
    (key r ∉ p.opened.keys → (∀ i < r, isWrite slots i = true → key i ≠ key r) →
      lookup (contents p.opened before) (key r) = .notFound) := by
  intro key
  have hinv : Worker.Inv p slots Unovertaken w :=
    Worker.inv_reachable (unovertaken_stable p slots) tail (unovertaken_start p)
      (h.mono fun _ _ hfree => ⟨trivial, hfree⟩)
  have hearly : ∀ i ∈ before.flatMap Call.appliedReqs, i < r := by
    have hevery := hinv.law.early
    rw [Worker.settled_calls] at hevery
    exact hevery before _ after hcalls r hr
  have hkeys : ∀ k ∈ (contents p.opened before).keys,
      k ∈ p.opened.keys ∨ ∃ i < r, isWrite slots i = true ∧ key i = k := by
    intro k hk
    rcases (mem_keys_of_applied (hinv.records_front hcalls) _ k).mp hk with ⟨i, hi, hkey⟩ | hold
    · -- a key that is not initial was applied by a call in front of the lookup
      have hcarried : i ∈ w.vars.calls.flatMap Call.writeReqs := by
        rw [hcalls, List.flatMap_append]
        exact List.mem_append_left _ (mem_writeReqs_of_applied hi)
      exact .inr ⟨i, hearly i hi, (hinv.carried_write hcarried).2, hkey⟩
    · exact .inl hold
  refine ⟨hearly, hkeys, fun hinit hnone => ?_⟩
  refine if_neg fun hmem => ?_
  rcases hkeys _ hmem with hold | ⟨i, hi, hwrite, hkey⟩
  · exact hinit hold
  · exact hnone i hi hwrite hkey

/-- A worker of `smallConfig` on an empty instance. -/
def smallWorker : Params :=
  smallConfig.params .empty

/-- A queue that reads key 4 and then inserts it. -/
def readThenInsert : Nat → AsyncRequest :=
  fun i => [fillPoint 0 4 false .blank, fillPoint 1 4 true .blank, fillEnd .blank].getD i .blank

/-- The worker finds its queue empty behind the read, and looks the key up before the insert. -/
def patientRun : List Choice :=
  List.replicate 4 (.sees 1) ++ List.replicate 3 (.sees 1) ++ List.replicate 7 (.sees 3)

/-- In that run the read does not see the insert behind it. -/
theorem no_read_from_the_future_patient :
    let key := generateKeyFromInt 28 4
    let final := (Worker.alone smallWorker readThenInsert 3).after patientRun
    final.vars.calls = [] ++ .multiGet [0] [key] [.notFound] ::
        [.write [1] [(key, smallConfig.value)] .ok] ∧
      lookup (contents smallWorker.opened []) key = .notFound := by
  intro key final
  have hreach : (Worker.alone smallWorker readThenInsert 3).Reachable NoOvertaking final :=
    System.reachable_after (by decide) (by decide)
  have hcalls : final.vars.calls = [] ++ .multiGet [0] [key] [.notFound] ::
      [.write [1] [(key, smallConfig.value)] .ok] := by
    decide
  refine ⟨hcalls, ?_⟩
  exact (no_read_from_the_future hreach hcalls (by decide : 0 ∈ [0])).2.2 (by decide) (by decide)

/-- The worker takes all three requests at once. -/
def hastyRun : List Choice :=
  List.replicate 9 (.sees 3)

/-- The insert behind the read is written before the read is looked up, so the read of a key that
was not there reports success. -/
theorem read_from_the_future :
    let key := generateKeyFromInt 28 4
    let final := (Worker.alone smallWorker readThenInsert 3).after hastyRun
    (Worker.alone smallWorker readThenInsert 3).Reachable (fun _ c => c.writeStatus = .ok) final ∧
      final.vars.calls = [.write [1] [(key, smallConfig.value)] .ok, .multiGet [0] [key] [.ok]] ∧
      key ∉ smallWorker.opened.keys ∧
      lookup (contents smallWorker.opened [.write [1] [(key, smallConfig.value)] .ok]) key =
        .ok := by
  refine ⟨System.reachable_after (by decide) (by decide), ?_⟩
  decide

/-- A lookup whose statuses are those of its keys in the contents at the time of the call. -/
def Answers (p : Params) (before : List Call) : Call → Prop
  | .multiGet _ keys statuses =>
      ∃ fails, statuses = multiGetStatuses (contents p.opened before) fails keys
  | _ => True

/-- Every lookup is answered from the contents at the time of the call. -/
theorem answers_stable (p : Params) (slots : Nat → AsyncRequest) :
    Stable p slots (fun _ => True) (fun _ => True) fun v => Every (Answers p) v.calls where
  writeOut := fun _ h _ => (every_append_singleton _ _ _).mpr ⟨h, trivial⟩
  readOut := fun _ h => (every_append_singleton _ _ _).mpr ⟨h, _, rfl⟩
  put := fun _ h _ _ => h
  pushKey := fun _ h _ _ => h
  scan := fun _ h _ _ => (every_append_singleton _ _ _).mpr ⟨h, trivial⟩

/-- What a `db->MultiGet` reports for a key that is present. -/
theorem getElem?_multiGetStatuses {db : Instance} {fails : Nat → Bool} {keys : List Slice} {j : Nat}
    {k : Slice} (hk : keys[j]? = some k) (hfound : lookup db k = .ok) :
    (multiGetStatuses db fails keys)[j]? = some (if fails j then .ioError else .ok) := by
  rw [multiGetStatuses, List.getElem?_mapIdx, hk, Option.map_some, hfound]

/-- The steps in which no read is disturbed: every `db->Write` succeeds, and a request that a worker
takes while point reads are pending has the key of these reads. -/
abbrev Undisturbed (cfg : Config) (trace : List Command) (init : Nat → Instance) :
    State AsyncRequest Worker → Action Choice → Prop :=
  Pipeline.onWork fun q w c => c.writeStatus = .ok ∧
    SameKey (cfg.params (init q)) ((pipeline cfg trace init).view q) w c

/-- When every `db->Write` succeeds: the lookup that carries a point read runs behind every write in
front of the read, and at the exit every point read in front of the end marker has been carried
exactly once. For the whole program, if moreover every request taken while reads are pending has
their key: a read that follows an update or insert of its key anywhere in the trace is looked up
under its own key, and its status is OK unless the lookup itself fails. -/
theorem reads_are_fresh {cfg : Config} {init : Nat → Instance} :
    (∀ {p : Params} {slots : Nat → AsyncRequest} {tail : Nat} {w : Worker},
      (Worker.alone p slots tail).Reachable (fun _ c => c.writeStatus = .ok) w →
      (∀ {before after : List Call} {reqs : List Nat} {keys : List Slice} {statuses : List Status},
        w.vars.calls = before ++ .multiGet reqs keys statuses :: after →
        ∀ r ∈ reqs, ∀ i < r, isWrite slots i = true → i ∈ before.flatMap Call.appliedReqs) ∧
      (w.pc = .exited →
        (∀ i < w.vars.seq, (slots i).seq ≠ -1) ∧ (slots w.vars.seq).seq = -1 ∧
        w.vars.calls.flatMap Call.readReqs = positions (isPoint slots) w.vars.seq)) ∧
    (∀ {earlier later : List Command} {read put : Command} {s : State AsyncRequest Worker},
      let trace := earlier ++ read :: later
      let program := pipeline cfg trace init
      let q := cfg.queueOf read.key
      let key := generateKeyFromInt cfg.keySize read.key
      program.Fits → program.system.Reachable (Undisturbed cfg trace init) s →
      read.cmd = 'R' → put ∈ earlier → put.isPut → put.key = read.key →
      ∀ {before after : List Call} {reqs : List Nat} {keys : List Slice} {statuses : List Status}
          {j : Nat},
        (s.workers q).vars.calls = before ++ .multiGet reqs keys statuses :: after →
        reqs[j]? = some (position cfg q earlier) →
        lookup (contents (init q) before) key = .ok ∧ keys[j]? = some key ∧
          (statuses[j]? = some .ok ∨ statuses[j]? = some .ioError)) := by
  refine ⟨?_, ?_⟩
  · intro p slots tail w h
    have hinv : Worker.Inv p slots (Ordered slots) w :=
      Worker.inv_reachable (ordered_stable p slots) tail (ordered_start p slots)
        (h.mono fun _ _ hok => ⟨hok, fun _ => trivial⟩)
    exact ⟨hinv.lookup_fresh, fun hexit => ⟨hinv.real, hinv.marker hexit, hinv.reads_exited hexit⟩⟩
  · intro earlier later read put s trace program q key hfit h hread hput hisPut hkey before after
      reqs keys statuses j hcalls hreq
    have hq : q < cfg.queueNum := cfg.queueOf_lt _
    have hsucceed : program.system.Reachable WritesSucceed s := by
      refine h.mono fun _ a ha => ?_
      cases a with
      | dispatch => trivial
      | work r c => exact ha.1
    have hinv := worker_ordered hfit hsucceed hq
    have halone := Pipeline.worker_reachable hfit h hq
    have hputTo : put ∈ earlier.filter (putTo cfg q) := by
      simp [putTo, hput, hisPut, hkey, q]
    -- the write of the same key is in the same queue, in front of the read
    obtain ⟨i, hlt, hwrite, hrecord⟩ := write_of_command (read :: later) init hq hputTo
    have happlied := hinv.lookup_fresh hcalls _ (List.mem_of_getElem? hreq) i hlt hwrite
    have hfound : lookup (contents (init q) before) key = .ok := by
      refine if_pos ?_
      refine (mem_keys_of_applied (hinv.records_front hcalls) _ _).mpr (.inl ⟨i, happlied, ?_⟩)
      rw [hrecord, hkey]
    -- the read is looked up under its own key
    have hown := Worker.ownKeys (halone.mono fun _ _ ha => ha.2) (.multiGet reqs keys statuses)
      (hcalls ▸ List.mem_append_right _ List.mem_cons_self)
    have hplace : program.view q (position cfg q earlier) =
        fillPoint earlier.length read.key false .blank :=
      view_position hq (by simp [request, hread, q])
    have hkeys : keys[j]? = some key := by
      rw [show keys = _ from hown, List.getElem?_map, hreq, Option.map_some, bytes, hplace]
      rfl
    have hanswers := (Worker.inv_reachable (answers_stable _ _) _ (every_nil _)
      (halone.mono fun _ _ _ => ⟨trivial, fun _ => trivial⟩)).law
    rw [Worker.settled_calls] at hanswers
    obtain ⟨fails, hstatuses⟩ := hanswers before _ after hcalls
    have hstatus : statuses[j]? = some (if fails j then .ioError else .ok) :=
      hstatuses ▸ getElem?_multiGetStatuses hkeys hfound
    refine ⟨hfound, hkeys, ?_⟩
    rw [hstatus]
    cases fails j with
    | true => exact .inr rfl
    | false => exact .inl rfl

/-- A trace that inserts the keys 3 and 4 and reads key 3 twice. -/
def insertThenReadTrace : List Command :=
  [⟨3, 0, 'I'⟩, ⟨4, 0, 'I'⟩, ⟨3, 0, 'R'⟩] ++ ⟨3, 0, 'R'⟩ :: []

/-- The program on that trace. -/
def insertThenRead : Pipeline AsyncRequest Worker Choice :=
  pipeline smallConfig insertThenReadTrace (fun _ => .empty)

/-- Worker 1 takes the insert, both reads and the end marker. -/
def insertThenReadRun : List (Action Choice) :=
  List.replicate 12 .dispatch ++ taking [(1, 4), (1, 4), (1, 4), (1, 4)]

/-- The second read of that run is looked up together with the first one and finds its key. -/
theorem reads_are_fresh_insert :
    let key := generateKeyFromInt 28 3
    let v := ((insertThenRead.system.after insertThenReadRun).workers 1).vars
    v.calls = [.write [0] [(key, smallConfig.value)] .ok] ++
        .multiGet [1, 2] [key, key] [.ok, .ok] :: [] ∧
      lookup (contents .empty [.write [0] [(key, smallConfig.value)] .ok]) key = .ok := by
  intro key v
  have hreach : insertThenRead.system.Reachable
      (Undisturbed smallConfig insertThenReadTrace fun _ => .empty)
      (insertThenRead.system.after insertThenReadRun) :=
    System.reachable_after (by decide) (by decide)
  have hcalls : v.calls = [.write [0] [(key, smallConfig.value)] .ok] ++
      .multiGet [1, 2] [key, key] [.ok, .ok] :: [] := by
    decide
  have hfit : insertThenRead.Fits := by decide
  have hfresh := reads_are_fresh.2 (j := 1) hfit hreach rfl List.mem_cons_self rfl rfl hcalls
    (by decide)
  exact ⟨hcalls, hfresh.1⟩

/-- The trace inserts key 0 and reads the keys 0 and 2, all in queue 0. -/
def insertThenReadBoth : Pipeline AsyncRequest Worker Choice :=
  pipeline smallConfig [⟨0, 0, 'I'⟩, ⟨0, 0, 'R'⟩, ⟨2, 0, 'R'⟩] (fun _ => .empty)

/-- Worker 0 takes all requests and the end marker. -/
def insertThenReadBothRun : List (Action Choice) :=
  List.replicate 10 .dispatch ++ taking [(0, 4), (0, 4), (0, 4), (0, 4)]

/-- The insert of key 0 is written before the lookup, but both reads are looked up under the key 2
that was read last, so the read of key 0 reports that it is not found. -/
theorem read_misses_write :
    let key := generateKeyFromInt 28
    let s := insertThenReadBoth.system.after insertThenReadBothRun
    insertThenReadBoth.Fits ∧ insertThenReadBoth.system.Reachable WritesSucceed s ∧
      (s.workers 0).vars.calls = [.write [0] [(key 0, smallConfig.value)] .ok,
        .multiGet [1, 2] [key 2, key 2] [.notFound, .notFound]] ∧
      lookup (contents .empty [.write [0] [(key 0, smallConfig.value)] .ok]) (key 0) = .ok := by
  refine ⟨by decide, System.reachable_after (by decide) (by decide), ?_⟩
  decide

end P2KVS.Ycsb
