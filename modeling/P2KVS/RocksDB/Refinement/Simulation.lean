import P2KVS.RocksDB.Refinement.Frames

/-!
# Every step of a thread is a step of the group

While no group is at work, a step is a stutter or the abstract leader applies the next group. While
one is at work, a step is a stutter or the matching step of one of its members.
-/

namespace P2KVS.WriteImpl

open Transition WriteThread
open GroupCommit (assign totalCount numbers)

section Steps

variable {c : Config} {db : Db} {v v' : View} {x : Nat} {o : Outcome} {t : State}

section Simulation

variable {a : GroupCommit.State} {M : List Nat} {g : Nat} {G G' : GroupCommit.WriteGroup}

/-- A step that inserts and publishes nothing, and keeps the abstract group. -/
theorem Abstracts.stutter (h : Abstracts c db a) (hG : a.group = some G)
    (hframe : Frame c ((db.effect c x o).1.settle c t x) M g G) (hstage : Stage c t M g G)
    (hpublish : db.thread.pc x ≠ .publish) (hgroup : db.thread.pc x ≠ .insertGroup)
    (hinsert : db.thread.pc x ≠ .insert) : Abstracts c ((db.effect c x o).1.settle c t x) a := by
  refine ⟨h.lastSequence.trans (effect_lastSequence hpublish).symm, ?_, by simp [hG], ?_⟩
  · show a.memtable = (db.effect c x o).1.memtable.map Prod.snd
    rw [effect_memtable hgroup hinsert]
    exact h.memtable
  · intro G' hG'
    obtain rfl : G = G' := Option.some.inj (hG.symm.trans hG')
    exact ⟨M, g, hframe, hstage⟩

/-- Member `i` inserts its entries. -/
theorem Abstracts.insert (h : Abstracts c db a) (hG : a.group = some G) {i : Nat} (hacts : G.Acts i)
    (hphase : G.phase i = .inserting) (hframe : Frame c ((db.effect c x o).1.settle c t x) M g G)
    (hstage : Stage c t M g { G with phase := Function.update G.phase i .inserted })
    (hpublish : db.thread.pc x ≠ .publish) (entries : List (Nat × Nat))
    (hmemtable : (db.effect c x o).1.memtable = db.memtable ++ entries)
    (hentries : entries.map Prod.snd = G.inserts i) :
    ∃ a', GroupCommit.step a (.insert i) = some a' ∧
      Abstracts c ((db.effect c x o).1.settle c t x) a' := by
  refine ⟨{ a with
      memtable := a.memtable ++ G.inserts i
      group := some { G with phase := Function.update G.phase i .inserted } }, ?_, ?_⟩
  · simp [GroupCommit.step, hG, hacts, hphase]
  refine ⟨h.lastSequence.trans (effect_lastSequence hpublish).symm, ?_, by simp, ?_⟩
  · show a.memtable ++ G.inserts i = (db.effect c x o).1.memtable.map Prod.snd
    rw [hmemtable, List.map_append, hentries, h.memtable]
  · rintro _ ⟨⟩
    exact ⟨M, g, hframe.update _ _, hstage⟩

/-- Nobody is at work before and after the step. -/
theorem Abstracts.rest (h : Abstracts c db a) (hnone : a.group = none)
    (hidle : ∀ w, ¬ Acting t w) : Abstracts c ((db.effect c x o).1.settle c t x) a := by
  have hx := h.idle hnone x
  have hnot : ∀ {p : Pc}, p.applying → db.thread.pc x ≠ p := fun hp heq => hx (.inl (heq ▸ hp))
  refine ⟨h.lastSequence.trans (effect_lastSequence (hnot trivial)).symm, ?_, fun _ => hidle,
    by simp [hnone]⟩
  show a.memtable = (db.effect c x o).1.memtable.map Prod.snd
  rw [effect_memtable (hnot trivial) (hnot trivial)]
  exact h.memtable

/-- The leader has written the log and numbered its group. -/
theorem Abstracts.lead (h : Abstracts c db a) (hnone : a.group = none) (hdate : UpToDate db)
    (hcurrent : Current db.thread M x) (hpc : db.thread.pc x = .apply)
    (hwaiting : ∀ w ∈ M, w ≠ x → Waiting db.thread w) (hstate : db.thread.state x = .groupLeader)
    (hlog : (db.writeToWAL c x o).localStatus x = .ok) (heffect : db.applyGroup c x o =
      ({ db.writeToWAL c x o with
        sequence := setSequences c (db.localSequence x + 1) db.sequence (db.thread.members x) },
      if parallel c (db.thread.members x) then .parallel else .serial))
    (hstep : db.thread.apply x (db.effect c x o).2 = some t) :
    ∃ b a', GroupCommit.step a b = some a' ∧ GroupCommit.LeaderCompletesLast a b ∧
      Abstracts c ((db.effect c x o).1.settle c t x) a' := by
  have hx := hcurrent.leader_mem
  have hlast : db.localSequence x = db.lastSequence := hdate x (by simp [hpc, Pc.numbering])
  have hne : M.map (writer c) ≠ [] := by
    simpa using List.ne_nil_of_mem hx
  have hparallel : (GroupCommit.launch a.lastSequence (M.map (writer c))
        (db.groupSequence x)).parallel =
      parallel c M := by
    simp [GroupCommit.launch, parallel, Function.comp_def]
  have hlocal : (db.writeToWAL c x o).localSequence x =
      db.lastSequence + totalCount (M.map (writer c)) := by
    simp [Db.writeToWAL, hlast, hcurrent.members]
  rw [Db.effect_apply hpc, heffect, hcurrent.members] at hstep
  refine ⟨.lead (M.map (writer c)) (db.groupSequence x),
    { a with group := some (GroupCommit.launch a.lastSequence (M.map (writer c))
      (db.groupSequence x)) }, ?_, trivial, ?_⟩
  · simp [GroupCommit.step, hnone, hne]
  rw [Db.effect_apply hpc, heffect, hcurrent.members]
  refine ⟨h.lastSequence, h.memtable, by simp, ?_⟩
  rintro _ ⟨⟩
  refine ⟨M, x, ⟨rfl, ?_, hparallel, rfl, ?_, ?_, hlog, ?_, ?_⟩, ?_⟩
  · exact congrArg (fun n => assign (n + 1) (M.map (writer c))) h.lastSequence
  · exact (congrArg (· + totalCount (M.map (writer c))) h.lastSequence).trans hlocal.symm
  · exact hlocal
  · simp [Db.settle, Db.writeToWAL, hlast]
  · intro i w hi
    show numbers _ (setSequences c (db.localSequence x + 1) db.sequence M w) = _
    rw [numbers_setSequences hcurrent.nodup hi, hlast, ← h.lastSequence]
    rfl
  · refine Stage.of_apply hcurrent hwaiting hstate hstep (fun _ => rfl) ?_
    simp [GroupCommit.launch]

/-- Member `x` publishes the last sequence and the group ends. -/
theorem Abstracts.publish (h : Abstracts c db a) (hG : a.group = some G) (hframe : Frame c db M g G)
    (hstage : Stage c db.thread M g G) (hcurrent : Current db.thread M g) (hx : x ∈ M)
    (hpc : db.thread.pc x = .publish) (hheld : ∀ w ∈ M, w ≠ x → Held db.thread w)
    (hsim' : Sim c (db.thread.goto x .exitLoad) v') :
    ∃ b a', GroupCommit.step a b = some a' ∧
      (x = g ∨ db.groupSequence g = db.localSequence g → GroupCommit.LeaderCompletesLast a b) ∧
      Abstracts c ((db.effect c x o).1.settle c (db.thread.goto x .exitLoad) x) a' := by
  have hhead : M[0]? = some g := by rw [← List.head?_eq_getElem?]; exact hstage.head
  -- the position of the member, and that it leaves the group
  obtain ⟨i, hi, hacts, hphase, hlast⟩ : ∃ i, M[i]? = some x ∧ G.Acts i ∧ G.phase i = .inserted ∧
      G.isLast = true := by
    have hlength : G.writers.length = M.length := by rw [hframe.writers, List.length_map]
    cases hp : parallel c M with
    | true =>
        obtain ⟨i, hi⟩ := List.mem_iff_getElem?.mp hx
        have hlt := (List.getElem?_eq_some_iff.mp hi).1
        have hphase := hstage.members hp i x hi
        rw [hpc, phaseOf, Option.some.injEq] at hphase
        refine ⟨i, hi, ⟨hlength ▸ hlt, .inl (hframe.inParallel.trans hp)⟩, hphase.symm, ?_⟩
        obtain ⟨hnone, _⟩ | ⟨hone, _⟩ := hstage.running hp
        · exact absurd hpc (hnone x hx)
        · simp [GroupCommit.WriteGroup.isLast, hone]
    | false =>
        obtain ⟨hwait, hg⟩ := hstage.serial hp
        have hxg : x = g := by
          by_contra hne
          simp [(hwait x hx hne).1] at hpc
        have hlt := (List.getElem?_eq_some_iff.mp hhead).1
        refine ⟨0, hxg ▸ hhead, ⟨hlength ▸ hlt, .inr rfl⟩, ?_, ?_⟩
        · obtain ⟨hpcg, _⟩ | ⟨_, hphase⟩ := hg
          · simp [← hxg, hpc] at hpcg
          · exact hphase
        · simp [GroupCommit.WriteGroup.isLast, hframe.inParallel, hp]
  have hindex : i = 0 ↔ x = g := by
    constructor
    · rintro rfl
      exact Option.some.inj (hi.symm.trans hhead)
    · rintro rfl
      exact Intrusive.index_inj hcurrent.nodup hi hhead
  refine ⟨.complete i, { a with lastSequence := G.publishes i, group := none }, ?_, ?_, ?_, ?_, ?_,
    by simp⟩
  · simp [GroupCommit.step, hG, hacts, hphase, hlast]
  · intro hgood G' hG' _ _
    obtain rfl : G = G' := Option.some.inj (hG.symm.trans hG')
    refine hgood.imp hindex.mpr fun hstale => ?_
    rw [hframe.stale, hframe.writers, h.lastSequence, hstale, hframe.total]
  · show G.publishes i = (db.effect c x o).1.lastSequence
    rw [Db.effect_publish hpc (hcurrent.group x hx), GroupCommit.WriteGroup.publishes]
    by_cases hxg : x = g
    · simp [hindex.mpr hxg, hxg, hframe.status, hframe.leader]
    · simp [mt hindex.mp hxg, hxg, hframe.stale]
  · show a.memtable = (db.effect c x o).1.memtable.map Prod.snd
    rw [effect_memtable (by simp [hpc]) (by simp [hpc])]
    exact h.memtable
  · intro _ w hw
    have hwM := (hsim'.current_of_acting hw hstage.last).1
    by_cases hwx : w = x
    · simp [hwx, Acting, Pc.applying] at hw
    · rw [Db.settle_thread, Acting, State.goto_pc_of_ne _ _ _ hwx] at hw
      obtain ⟨hp, hs⟩ | ⟨hp, _⟩ := hheld w hwM hwx
      · simp [hp, hs, Pc.applying, State.goto] at hw
      · simp [hp, Pc.applying] at hw

/-- The leader inserts the batches of its group. -/
theorem Abstracts.insertGroup (h : Abstracts c db a) (hG : a.group = some G)
    (hframe : Frame c db M g G) (hstage : Stage c db.thread M g G)
      (hcurrent : Current db.thread M g)
    (hpc : db.thread.pc g = .insertGroup) (hok : o.status = .ok) :
    ∃ a', GroupCommit.step a (.insert 0) = some a' ∧
      Abstracts c ((db.effect c g o).1.settle c (db.thread.goto g .publish) g) a' := by
  have hg := hcurrent.leader_mem
  have hp : parallel c M = false := by
    by_contra hp
    obtain ⟨i, hi⟩ := List.mem_iff_getElem?.mp hg
    have hphase := hstage.members (by simpa using hp) i g hi
    simp [hpc, phaseOf] at hphase
  obtain ⟨hwait, hpcg⟩ := hstage.serial hp
  have hphase : G.phase 0 = .inserting := by
    obtain ⟨_, hphase⟩ | ⟨hpub, _⟩ := hpcg
    · exact hphase
    · simp [hpc] at hpub
  have hlength : 0 < G.writers.length := by
    rw [hframe.writers, List.length_map]
    exact List.length_pos_of_mem hg
  refine h.insert hG ⟨hlength, .inr rfl⟩ hphase (M := M) (g := g)
    (hframe.step (by simp [hpc, Pc.numbering]) (by simp [hpc]) (by simp [hpc])) ?_ (by simp [hpc])
    (insertions c (db.currentSequence g) M) ?_ (hframe.inserts_all hp).symm
  · refine ⟨hstage.last, hstage.head, ⟨g, hg, .inl (by simp [Pc.applying])⟩, hstage.state, ?_,
      by simp [hp], by simp [hp]⟩
    refine fun _ => ⟨fun w hw hne => (hwait w hw hne).congr ?_ rfl, .inr ⟨?_, ?_⟩⟩
    · exact State.goto_pc_of_ne _ _ _ hne
    · exact State.goto_pc_self ..
    · simp
  · rw [Db.effect_insertGroup hpc, hcurrent.members]
    simp [Outcome.inserts, hok]

/-- A member has inserted, and others still do. -/
theorem Abstracts.wait (h : Abstracts c db a) (hG : a.group = some G) (hframe : Frame c db M g G)
    (hstage : Stage c db.thread M g G) (hins : Inserting db.thread M g) (hx : x ∈ M)
    (hpc : db.thread.pc x = .complete) (hrunning : 1 < (db.thread.group g).running)
    (hothers : ∃ w ∈ M, w ≠ x ∧ db.thread.pc w ≠ .awaitCompleted) :
    ∃ b a', GroupCommit.step a b = some a' ∧ GroupCommit.LeaderCompletesLast a b ∧
      Abstracts c ((db.effect c x o).1.settle c
        ((db.thread.setRunning g ((db.thread.group g).running - 1)).goto x .awaitCompleted) x)
          a' := by
  have hp := hstage.parallel_of_inserting hins
  obtain ⟨i, hi⟩ := List.mem_iff_getElem?.mp hx
  have hphase := hstage.members hp i x hi
  rw [hpc, phaseOf, Option.some.injEq] at hphase
  have hlength : i < G.writers.length := by
    rw [hframe.writers, List.length_map]
    exact (List.getElem?_eq_some_iff.mp hi).1
  obtain ⟨hnone, heq⟩ := hstage.running_eq hp hx (by simp [hpc]) (by simp [hpc])
  have hlast : G.isLast = false := by
    simp [GroupCommit.WriteGroup.isLast, hframe.inParallel, hp, heq, hrunning]
  have hacts : G.Acts i := ⟨hlength, .inl (hframe.inParallel.trans hp)⟩
  refine ⟨.complete i, { a with
    group := some { G with
      running := G.running - 1
      phase := Function.update G.phase i .waiting } }, ?_, ?_, ?_, ?_, by simp, ?_⟩
  · simp [GroupCommit.step, hG, hacts, ← hphase, hlast]
  · intro G' hG' _ hlast'
    obtain rfl : G = G' := Option.some.inj (hG.symm.trans hG')
    simp [hlast] at hlast'
  · exact h.lastSequence.trans (effect_lastSequence (by simp [hpc])).symm
  · show a.memtable = (db.effect c x o).1.memtable.map Prod.snd
    rw [effect_memtable (by simp [hpc]) (by simp [hpc])]
    exact h.memtable
  rintro _ ⟨⟩
  refine ⟨M, g, (hframe.step (by simp [hpc, Pc.numbering]) (by simp [hpc])
    (by simp [hpc])).update _ _, ?_⟩
  refine hstage.move hp hi hins.nodup ?_ rfl (fun w _ hw => State.goto_pc_of_ne _ _ _ hw)
      hstage.state
    ?_ .waiting (by simp [phaseOf]) rfl ?_
  · intro w hw
    by_cases hwx : w = x
    · simp [hwx]
    · rw [Db.settle_thread, State.goto_pc_of_ne _ _ _ hwx]
      exact hnone w hw
  · -- one of the others is at work, or the leader still tells them
    obtain ⟨w, hw, hwx, hwait⟩ := hothers
    have hgoto : ∀ y, y ≠ x → Acting db.thread y → Acting ((db.thread.setRunning g
        ((db.thread.group g).running - 1)).goto x .awaitCompleted) y := fun y hyx hact =>
      hact.congr (State.goto_pc_of_ne _ _ _ hyx) rfl
    obtain ⟨y, hy⟩ | htold := hins.told
    · have hgx : g ≠ x := by
        rintro rfl
        simp [hpc] at hy
      exact ⟨g, hins.leader_mem, hgoto g hgx (.inl (by simp [hy, Pc.applying]))⟩
    · refine ⟨w, hw, hgoto w hwx ?_⟩
      obtain hq | ⟨y, hq⟩ | hq | hq | hq | hq := hins.place w hw
      · exact .inr ⟨hq, htold w hw⟩
      · exact .inl (by simp [hq, Pc.applying])
      · exact .inl (by simp [hq, Pc.applying])
      · exact .inl (by simp [hq, Pc.applying])
      · exact .inl (by simp [hq, Pc.applying])
      · exact absurd hq hwait
  · simp [heq, State.setRunning, State.goto]

/-- The last member has inserted and is going to publish. -/
theorem Abstracts.last (h : Abstracts c db a) (hG : a.group = some G) (hframe : Frame c db M g G)
    (hstage : Stage c db.thread M g G) (hins : Inserting db.thread M g) (hx : x ∈ M)
    (hpc : db.thread.pc x = .complete) (hrunning : (db.thread.group g).running = 1)
    (hothers : ∀ w ∈ M, w ≠ x → db.thread.pc w = .awaitCompleted) :
    Abstracts c ((db.effect c x o).1.settle c
      ((db.thread.setRunning g ((db.thread.group g).running - 1)).goto x .publish) x) a := by
  have hp := hstage.parallel_of_inserting hins
  obtain ⟨_, heq⟩ := hstage.running_eq hp hx (by simp [hpc]) (by simp [hpc])
  refine h.stutter hG (M := M) (g := g)
    (hframe.step (by simp [hpc, Pc.numbering]) (by simp [hpc]) (by simp [hpc])) ?_ (by simp [hpc])
    (by simp [hpc]) (by simp [hpc])
  refine ⟨hstage.last, hstage.head, ⟨x, hx, .inl (by simp [Pc.applying])⟩, hstage.state,
    by simp [hp], ?_, fun _ => .inr ⟨heq.trans hrunning, x, hx, State.goto_pc_self .., ?_⟩⟩
  · intro _ i w hi
    by_cases hwx : w = x
    · have hphase := hstage.members hp i w hi
      rw [hwx, hpc] at hphase
      rw [hwx, State.goto_pc_self]
      exact hphase
    · rw [State.goto_pc_of_ne _ _ _ hwx]
      exact hstage.members hp i w hi
  · exact fun w hw hwx => (State.goto_pc_of_ne _ _ _ hwx).trans (hothers w hw hwx)

end Simulation

end Steps

section Runs

variable {c : Config} {start : Nat} {db : Db} {allowed : Db → Action → Prop}

end Runs

end P2KVS.WriteImpl
