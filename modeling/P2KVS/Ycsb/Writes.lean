import P2KVS.Ycsb.Dispatch
import P2KVS.Ycsb.Order

/-!
# Writes of `ycsb.cpp`: exactly once and in order

The whole program, under every interleaving of the dispatcher with the workers. Rows are assumed to
hold the requests and the end marker of their queue, and every `db->Write` is assumed to succeed.
Then each worker passes the updates and inserts of its residue class to `db->Write` in trace order,
each once.
-/

namespace P2KVS.Ycsb

open Channel History Transition

/-- The requests in the batch that no `db->Write` has carried. The end marker writes the batch
without clearing it. -/
def Locals.pending (v : Locals) : List Nat :=
  v.batchReqs.filter fun i => i ∉ v.calls.flatMap Call.writeReqs

/-- Every `db->Write` of the program succeeds. -/
abbrev WritesSucceed : State AsyncRequest Worker → Action Choice → Prop :=
  Pipeline.onWork fun _ _ c => c.writeStatus = .ok

section Workers

variable {cfg : Config} {trace : List Command} {init : Nat → Instance}
  {s : State AsyncRequest Worker} {q : Nat}

/-- The worker invariant, for each worker of the program. -/
theorem worker_ordered (hfit : (pipeline cfg trace init).Fits)
    (h : (pipeline cfg trace init).system.Reachable WritesSucceed s) (hq : q < cfg.queueNum) :
    Worker.Inv (cfg.params (init q)) ((pipeline cfg trace init).view q)
      (Ordered ((pipeline cfg trace init).view q)) (s.workers q) := by
  refine Worker.inv_reachable (ordered_stable _ _) ((pipeline cfg trace init).content q).length
    (ordered_start _ _) ?_
  exact (Pipeline.worker_reachable hfit h hq).mono fun _ _ hok => ⟨hok, fun _ => trivial⟩

end Workers

/-- In every run in which the rows do not overflow and every `db->Write` succeeds: a worker that has
exited has passed exactly the updates and inserts of its residue class to `db->Write`, in trace
order, and left nothing pending; no worker ever writes an end marker; and no instance ever holds a
key that is neither an initial one nor one of its residue class. -/
theorem ycsb_writes_exactly_once {cfg : Config} {trace : List Command} {init : Nat → Instance}
    (hfit : (pipeline cfg trace init).Fits) {s : State AsyncRequest Worker}
    (h : (pipeline cfg trace init).system.Reachable WritesSucceed s) {q : Nat}
    (hq : q < cfg.queueNum) :
    let v := (s.workers q).vars
    let mine := trace.filter fun c => c.isPut && c.key.toNat % cfg.queueNum = q
    ((s.workers q).pc = .exited →
      written v.calls = mine.map (fun c => (generateKeyFromInt cfg.keySize c.key, cfg.value)) ∧
      v.pending = []) ∧
    (∀ i ∈ v.calls.flatMap Call.writeReqs, ((pipeline cfg trace init).view q i).seq ≠ -1) ∧
    ∀ k ∈ (v.db (cfg.params (init q))).keys,
      k ∈ (init q).keys ∨ ∃ c ∈ mine, generateKeyFromInt cfg.keySize c.key = k := by
  intro v mine
  have hinv := worker_ordered hfit h hq
  have hplaced := @records_before cfg q trace [] init hq
  simp only [List.append_nil] at hplaced
  refine ⟨fun hexit => ?_, fun i hi => hinv.real i (hinv.carried_write hi).1, fun k hk => ?_⟩
  · have hseq := eq_position hq hinv.real (hinv.marker hexit)
    constructor
    · have hwritten := hinv.ledger.written_eq
      rw [Worker.settled_calls, hinv.writes_exited hexit, hseq] at hwritten
      exact hwritten.trans hplaced
    · simpa [Locals.pending] using hinv.carried hexit
  · rcases (mem_keys_of_applied hinv.records _ k).mp hk with ⟨i, hi, rfl⟩ | hold
    · obtain ⟨hlt, hwrite⟩ := hinv.carried_write (mem_writeReqs_of_applied hi)
      have hfront := hlt.trans_le (le_position hq hinv.real)
      have hcommand := @command_of_write cfg q trace [] init hq i hfront
      rw [List.append_nil] at hcommand
      exact .inr (hcommand hwrite)
    · exact .inl hold

/-- The program on a trace with writes of both residue classes and a read behind two of them. -/
def mixedProgram : Pipeline AsyncRequest Worker Choice :=
  pipeline smallConfig [⟨3, 0, 'I'⟩, ⟨4, 0, 'I'⟩, ⟨5, 0, 'U'⟩, ⟨3, 0, 'R'⟩] (fun _ => .empty)

/-- Both workers take their requests; worker 1 writes its batch out when it takes the read, worker 0
at its end marker. -/
def mixedRun : List (Action Choice) :=
  List.replicate 12 .dispatch ++ taking [(1, 4), (1, 4), (0, 2), (1, 4), (0, 2), (1, 4)]

/-- Each worker has written the updates and inserts of its own residue class. -/
theorem ycsb_writes_exactly_once_mixed :
    let v := fun q => ((mixedProgram.system.after mixedRun).workers q).vars
    let record := fun k => (generateKeyFromInt 28 k, smallConfig.value)
    written (v 0).calls = [record 4] ∧ written (v 1).calls = [record 3, record 5] ∧
      (v 1).pending = [] ∧ (v 1).calls.map Call.writeReqs = [[0, 1], []] := by
  intro v record
  have hreach : mixedProgram.system.Reachable WritesSucceed (mixedProgram.system.after mixedRun) :=
    System.reachable_after (by decide) (by decide)
  have hfit : mixedProgram.Fits := by decide
  have heven := (ycsb_writes_exactly_once hfit hreach (by decide : 0 < 2)).1 (by decide)
  have hodd := (ycsb_writes_exactly_once hfit hreach (by decide : 1 < 2)).1 (by decide)
  exact ⟨heven.1, hodd.1, hodd.2, by decide⟩

end P2KVS.Ycsb
