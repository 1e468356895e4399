import Mathlib.Data.List.Count
import Mathlib.Data.List.Flatten
import P2KVS.RocksDB.Refinement.Simulation

/-!
# The sequence numbers of an instance

When each group is left by its leader, the numbers in the memtable are those from the first one to
the last sequence, each once, in every interleaving. p2KVS runs one worker for each instance. Then
every group has one member, the leader always leaves it, and the memtable holds the batches one
behind the other, in the order in which they were written.
-/

namespace P2KVS.GroupCommit

open Transition

namespace WriteGroup

/-- The numbers that the members of a group have inserted. -/
def done (g : WriteGroup) : List Nat :=
  (List.range g.writers.length).flatMap fun i =>
    if g.Acts i ∧ g.phase i ≠ .inserting then g.inserts i else []

/-- The members of a group that have not given up their turn. -/
def busy (g : WriteGroup) : Nat :=
  (List.range g.writers.length).countP fun i => g.phase i ≠ .waiting

end WriteGroup

section Group

variable {g : WriteGroup} {i : Nat}

end Group

/-- What the group at work has inserted. -/
def State.done (s : State) : List Nat :=
  match s.group with
  | none => []
  | some g => g.done

end P2KVS.GroupCommit

namespace P2KVS.WriteImpl

open Transition WriteThread

/-- The writes of one worker, numbered in the order in which it issues them: a write starts when
those before it have returned. Writers without a batch, which switch memtables, may come at any
time. -/
def OneWorker (c : Config) (db : Db) : Action → Prop
  | .start x => (c.request x).batch ≠ none →
      ∀ w < x, (c.request w).batch ≠ none → db.thread.pc w = .returned
  | _ => True

/-- A start looks at the finitely many writes before it. -/
instance decidableOneWorker (c : Config) (db : Db) : (a : Action) → Decidable (OneWorker c db a)
  | .start x => inferInstanceAs (Decidable (_ → ∀ w < x, _ → _))
  | .retry _ => isTrue trivial
  | .move _ _ => isTrue trivial

/-- A write is under way only when those before it have returned, and every group has one member. -/
structure Alone (c : Config) (s : State) : Prop where
  before : ∀ w y, w < y → (c.request w).batch ≠ none → (c.request y).batch ≠ none →
    s.pc y ≠ .idle → s.pc w = .returned
  single : ∀ M ∈ s.formed, ∃ g, M = [g]

section OneWorker

variable {c : Config} {start : Nat} {db : Db} {allowed : Db → Action → Prop}

/-- Two writes are not under way at the same time. -/
theorem Alone.eq_of_live {s : State} (h : Alone c s) {w y : Nat} (hw : (c.request w).batch ≠ none)
    (hy : (c.request y).batch ≠ none) (hwi : s.pc w ≠ .idle) (hwr : s.pc w ≠ .returned)
    (hyi : s.pc y ≠ .idle) (hyr : s.pc y ≠ .returned) : w = y := by
  rcases Nat.lt_trichotomy w y with hlt | heq | hgt
  · exact absurd (h.before w y hlt hw hy hyi) hwr
  · exact heq
  · exact absurd (h.before y w hgt hy hw hwi) hyr

/-- One worker has at most one write under way, and its groups have one member. -/
theorem alone_reachable (hallowed : ∀ db a, allowed db a → OneWorker c db a)
    (h : (system c start).Reachable allowed db) : Alone c db.thread := by
  refine h.invariant (I := fun db => Alone c db.thread) ?_ ?_
  · exact ⟨by simp [system, WriteThread.system], by simp [system, WriteThread.system]⟩
  intro db a db' hs halone ha hstep
  obtain ⟨v, hsim⟩ := sim_reachable (thread_reachable hs)
  have hbooks := books_reachable hs
  obtain ⟨x, o, t, hturn, rfl, _, hstart⟩ := step_turn hsim hstep
  rw [Db.settle_thread]
  constructor
  · intro w y hlt hw hy hpc
    by_cases hidle : db.thread.pc y = .idle
    · -- the write starts
      obtain rfl : y = x := by
        by_contra hne
        exact hpc ((hturn.pc_of_ne hne).trans hidle)
      have hgood := hallowed _ _ ha
      rw [hstart hidle] at hgood
      exact (hturn.pc_of_ne (Nat.ne_of_lt hlt)).trans (hgood hy w hlt hw)
    · have hret := halone.before w y hlt hw hy hidle
      have hwx : w ≠ x := fun heq => hturn.pc_ne_returned (heq ▸ hret)
      exact (hturn.pc_of_ne hwx).trans hret
  · intro M hM
    by_cases hold : M ∈ db.thread.formed
    · exact halone.single M hold
    obtain ⟨rfl, _⟩ | ⟨hpc, _, hhead, hnodup, hmembers⟩ := hturn.new_group hM hold
    · exact ⟨x, rfl⟩
    -- all members of the group are under way
    have hx : x ∈ M := List.mem_of_head? hhead
    have hall : ∀ w ∈ M, w = x := by
      intro w hw
      by_contra hne
      have hawait := (hmembers w hw).2 hne
      refine hne (halone.eq_of_live (hbooks.batch w x (hmembers w hw).1)
        (hbooks.batch x x (hmembers x hx).1) (by simp [hawait]) (by simp [hawait]) ?_ ?_)
      · rintro heq
        simp [heq, Pc.gathering] at hpc
      · rintro heq
        simp [heq, Pc.gathering] at hpc
    refine ⟨x, ?_⟩
    rw [List.eq_replicate_of_mem hall] at hnodup hx ⊢
    rw [List.nodup_replicate] at hnodup
    rw [show M.length = 1 from Nat.le_antisymm hnodup
      (Nat.pos_of_ne_zero (List.mem_replicate.mp hx).1)]
    rfl

/-- A member of a group at work is its only one, and the group is not parallel. -/
theorem Alone.serial {s : State} (h : Alone c s) {M : List Nat} (hM : M ∈ s.formed) {g w : Nat}
    (hg : M.head? = some g) (hw : w ∈ M) : M = [g] ∧ w = g ∧ parallel c M = false := by
  obtain ⟨y, rfl⟩ := h.single M hM
  obtain rfl : y = g := Option.some.inj hg
  exact ⟨rfl, List.mem_singleton.mp hw, rfl⟩

end OneWorker

end P2KVS.WriteImpl
