import P2KVS.RocksDB.Refinement.Relation

/-!
# The group at work

What a step of a thread does to the frame and the stage of the group at work, and what they say
about the entries that an insertion adds.
-/

namespace P2KVS.WriteImpl

open Transition WriteThread
open GroupCommit (assign totalCount numbers)

section Steps

variable {c : Config} {db : Db} {v v' : View} {x : Nat} {o : Outcome} {t : State}

section Group

variable {s : State} {M : List Nat} {g : Nat} {G G' : GroupCommit.WriteGroup}

/-- A step of a thread that neither prepares nor publishes a group keeps the data of the group. -/
theorem Frame.step (h : Frame c db M g G) (hnumbering : ¬ (db.thread.pc x).numbering)
    (hpreprocess : g = x → db.thread.pc x ≠ .preprocess) (hpublish : db.thread.pc x ≠ .publish) :
    Frame c ((db.effect c x o).1.settle c t x) M g G := by
  have happly : db.thread.pc x ≠ .apply := fun hpc => hnumbering (by simp [hpc, Pc.numbering])
  have hown : g ≠ x ∨ db.thread.pc x ≠ .preprocess := by
    by_cases hgx : g = x
    · exact .inr (hpreprocess hgx)
    · exact .inl hgx
  obtain ⟨hlocal, hgroup⟩ := effect_sequences (c := c) (o := o)
    (hown.imp_right fun hp => ⟨hnumbering, hp⟩)
  obtain ⟨hstatus, hcurrent⟩ := effect_local (c := c) (o := o)
    (hown.imp_right fun hp => ⟨hp, happly⟩)
  have hlast := effect_lastSequence (c := c) (o := o) hpublish
  have hsequence := effect_sequence (c := c) (o := o) happly
  constructor
  · exact h.writers
  · exact h.sequences.trans (by rw [← hlast]; rfl)
  · exact h.inParallel
  · exact h.stale.trans hgroup.symm
  · exact h.leader.trans hlocal.symm
  · show (db.effect c x o).1.localSequence g = (db.effect c x o).1.lastSequence + _
    rw [hlocal, hlast]
    exact h.total
  · exact hstatus.trans h.status
  · show (db.effect c x o).1.currentSequence g = (db.effect c x o).1.lastSequence + 1
    rw [hcurrent, hlast]
    exact h.first
  · intro i w hi
    show numbers _ ((db.effect c x o).1.sequence w) = _
    rw [hsequence]
    exact h.numbered i w hi

/-- The frame does not mention the phases and the counter. -/
theorem Frame.update (h : Frame c db M g G) (running : Nat) (phase : Nat → GroupCommit.Phase) :
    Frame c db M g { G with running := running, phase := phase } :=
  ⟨h.writers, h.sequences, h.inParallel, h.stale, h.leader, h.total, h.status, h.first, h.numbered⟩

/-- A thread outside the group does not change its stage. -/
theorem Stage.skip (h : Stage c s M g G) (hformed : t.formed = s.formed)
    (hpc : ∀ w ∈ M, t.pc w = s.pc w) (hstate : ∀ w ∈ M, t.state w = s.state w)
    (hgroup : t.group g = s.group g) : Stage c t M g G := by
  have hg : g ∈ M := List.mem_of_head? h.head
  refine ⟨hformed ▸ h.last, h.head, ?_, fun w hw => hstate w hw ▸ h.state w hw, ?_, ?_, ?_⟩
  · obtain ⟨w, hw, hact⟩ := h.active
    exact ⟨w, hw, hact.congr (hpc w hw) (hstate w hw)⟩
  · intro hp
    obtain ⟨hwait, hpcg⟩ := h.serial hp
    rw [hpc g hg]
    exact ⟨fun w hw hne => (hwait w hw hne).congr (hpc w hw) (hstate w hw), hpcg⟩
  · intro hp i w hi
    rw [hpc w (List.mem_of_getElem? hi)]
    exact h.members hp i w hi
  · intro hp
    rw [hgroup]
    refine (h.running hp).imp (And.imp_left fun hall w hw => hpc w hw ▸ hall w hw) ?_
    rintro ⟨hone, y, hy, hpub, hall⟩
    exact ⟨hone, y, hy, hpc y hy ▸ hpub, fun w hw hne => hpc w hw ▸ hall w hw hne⟩

/-- Members insert for themselves in a parallel group only. -/
theorem Stage.parallel_of_inserting (h : Stage c s M g G) (hins : Inserting s M g) :
    parallel c M = true := by
  by_contra hp
  obtain ⟨_, ⟨hpc, _⟩ | ⟨hpc, _⟩⟩ := h.serial (by simpa using hp) <;>
    obtain ⟨w, hq⟩ | hq | hq | hq | hq := hins.leader <;> simp [hpc] at hq

/-- While a member inserts, nobody publishes. -/
theorem Stage.running_eq (h : Stage c s M g G) (hp : parallel c M = true) {y : Nat} (hy : y ∈ M)
    (hpublish : s.pc y ≠ .publish) (hwait : s.pc y ≠ .awaitCompleted) :
    (∀ w ∈ M, s.pc w ≠ .publish) ∧ G.running = (s.group g).running := by
  obtain hrunning | ⟨_, z, _, hz, hall⟩ := h.running hp
  · exact hrunning
  · have hyz : y = z := by
      by_contra hne
      exact hwait (hall y hy hne)
    exact absurd (hyz ▸ hz) hpublish

/-- A member of a parallel group goes on to the phase of its new place. -/
theorem Stage.move (h : Stage c s M g G) (hp : parallel c M = true) {i : Nat} (hi : M[i]? = some x)
    (hM : M.Nodup) (hnone : ∀ w ∈ M, t.pc w ≠ .publish) (hformed : t.formed = s.formed)
    (hpc : ∀ w ∈ M, w ≠ x → t.pc w = s.pc w) (hstate : ∀ w ∈ M, t.state w ≠ .completed)
    (hactive : ∃ w ∈ M, Acting t w) (phase : GroupCommit.Phase)
    (hphase : phaseOf (t.pc x) = some phase) (hupdate : G'.phase = Function.update G.phase i phase)
    (hrunning : G'.running = (t.group g).running) : Stage c t M g G' := by
  refine ⟨hformed ▸ h.last, h.head, hactive, hstate, by simp [hp], ?_,
    fun _ => .inl ⟨hnone, hrunning⟩⟩
  intro _ j w hj
  rw [hupdate]
  by_cases hji : j = i
  · subst hji
    obtain rfl : x = w := Option.some.inj (hi.symm.trans hj)
    rw [Function.update_self]
    exact hphase
  · have hne : w ≠ x := by
      rintro rfl
      exact hji (Intrusive.index_inj hM hj hi)
    rw [Function.update_of_ne hji, hpc w (List.mem_of_getElem? hj) hne]
    exact h.members hp j w hj

/-- The numbers that the leader of another group inserts. -/
theorem Frame.inserts_all (h : Frame c db M g G) (hp : parallel c M = false) :
    G.inserts 0 = (insertions c (db.currentSequence g) M).map Prod.snd := by
  have hparallel : ¬ G.parallel = true := by simp [h.inParallel, hp]
  rw [GroupCommit.WriteGroup.inserts, if_neg hparallel, GroupCommit.WriteGroup.batches, h.writers,
    h.sequences, insertions_numbers, h.first]

/-- Where the members of a group at work can be. -/
theorem Stage.place (h : Stage c s M g G) {w : Nat} (hw : w ∈ M) :
    phaseOf (s.pc w) ≠ none ∨ s.pc w = .insertGroup := by
  cases hp : parallel c M with
  | true =>
      obtain ⟨i, hi⟩ := List.mem_iff_getElem?.mp hw
      exact .inl (by simp [h.members hp i w hi])
  | false =>
      obtain ⟨hwait, hg⟩ := h.serial hp
      by_cases hwg : w = g
      · obtain ⟨hpc, _⟩ | ⟨hpc, _⟩ := hg
        · exact .inr (hwg ▸ hpc)
        · exact .inl (by simp [hwg, hpc, phaseOf])
      · exact .inl (by simp [(hwait w hw hwg).1, phaseOf])

/-- How the members stand when the leader goes on with the memtable. -/
theorem Stage.of_apply (hcurrent : Current s M x) (hwaiting : ∀ w ∈ M, w ≠ x → Waiting s w)
    (hstate : s.state x = .groupLeader)
    (hstep : s.apply x (if parallel c M then .parallel else .serial) = some t)
    (hphase : ∀ i, G.phase i = .inserting) (hrunning : G.running = M.length) : Stage c t M x G := by
  have hx := hcurrent.leader_mem
  have hstates : ∀ w ∈ M, s.state w ≠ .completed := by
    intro w hw
    by_cases hwx : w = x
    · simp [hwx, hstate]
    · simp [(hwaiting w hw hwx).2]
  cases hp : parallel c M with
  | false =>
      rw [hp] at hstep
      cases hstep
      refine ⟨hcurrent.last, hcurrent.head, ⟨x, hx, .inl (by simp [Pc.applying])⟩, hstates, ?_,
        by simp [hp], by simp [hp]⟩
      refine fun _ => ⟨fun w hw hwx => (hwaiting w hw hwx).congr ?_ rfl, .inl ⟨?_, hphase 0⟩⟩
      · exact State.goto_pc_of_ne _ _ _ hwx
      · exact State.goto_pc_self ..
  | true =>
      rw [hp] at hstep
      obtain ⟨hpath, _⟩ | ⟨hpath, _⟩ | ⟨_, _, rfl⟩ := State.apply_cases hstep
      · cases hpath
      · cases hpath
      have hpcs : ∀ w ∈ M, w ≠ x →
          ((s.setRunning x (s.group x).size).goto x (.launch x)).pc w = .await := fun w hw hwx =>
        (State.goto_pc_of_ne _ _ _ hwx).trans (hwaiting w hw hwx).1
      refine ⟨hcurrent.last, hcurrent.head, ⟨x, hx, .inl (by simp [Pc.applying])⟩, hstates,
        by simp [hp], ?_, fun _ => .inl ⟨?_, ?_⟩⟩
      · intro _ i w hi
        rw [hphase]
        by_cases hwx : w = x
        · rw [hwx, State.goto_pc_self]
          rfl
        · rw [hpcs w (List.mem_of_getElem? hi) hwx]
          rfl
      · intro w hw
        by_cases hwx : w = x
        · simp [hwx]
        · simp [hpcs w hw hwx]
      · rw [hrunning, ← hcurrent.size]
        simp [State.setRunning, State.goto]

end Group

end Steps

end P2KVS.WriteImpl
