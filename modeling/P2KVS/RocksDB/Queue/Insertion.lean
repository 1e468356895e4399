import P2KVS.RocksDB.Queue.Closing

/-!
# The members of a group insert

The leader tells the members one by one. Each inserts its batch and reports; the counter of the
group has those that have not, and the last one performs the exit.
-/

namespace P2KVS.WriteThread

open Transition Intrusive

variable {c : Config} {s t : State} {v : View} {x : Nat}

/-- A member that changes its place counts as before when it does not begin to wait. -/
theorem countP_goto {l : List Nat} {p : Pc} (hold : s.pc x ≠ .awaitCompleted)
    (hnew : p ≠ .awaitCompleted) :
    l.countP (fun w => (s.goto x p).pc w ≠ .awaitCompleted) =
      l.countP fun w => s.pc w ≠ .awaitCompleted := by
  refine List.countP_congr fun w _ => ?_
  by_cases hw : w = x
  · simp [hw, hold, hnew]
  · rw [State.goto_pc_of_ne _ _ _ hw]

/-- A member that begins to wait is one less to wait for. -/
theorem countP_goto_wait {l : List Nat} (hnodup : l.Nodup) (hx : x ∈ l)
    (hold : s.pc x ≠ .awaitCompleted) :
    l.countP (fun w => s.pc w ≠ .awaitCompleted) =
      l.countP (fun w => (s.goto x .awaitCompleted).pc w ≠ .awaitCompleted) + 1 := by
  induction l with
  | nil => cases hx
  | cons a rest ih =>
      rw [List.nodup_cons] at hnodup
      by_cases hax : a = x
      · subst hax
        have hrest : rest.countP (fun w => (s.goto a .awaitCompleted).pc w ≠ .awaitCompleted) =
            rest.countP fun w => s.pc w ≠ .awaitCompleted := by
          refine List.countP_congr fun w hw => ?_
          have hne : w ≠ a := fun heq => hnodup.1 (heq ▸ hw)
          rw [State.goto_pc_of_ne _ _ _ hne]
        rw [List.countP_cons, List.countP_cons, hrest]
        simp [hold]
      · have hmem : x ∈ rest := (List.mem_cons.mp hx).resolve_left fun heq => hax heq.symm
        rw [List.countP_cons, List.countP_cons, ih hnodup.2 hmem, State.goto_pc_of_ne _ _ _ hax]
        omega

/-- The member has been told to insert: it is among the first `told`, and when it is the leader all
members have been told. -/
theorem Launched.told_of_pc {g told : Nat} {v : Line} (h : Launched s v g told) (hx : x ∈ v.front)
    (hpc : Working (s.pc x) ∨ s.pc x = .await ∧ s.state x ≠ .init) :
    (x = g → told = v.front.length ∧ Working (s.pc x)) ∧
      ∃ i, i < told ∧ v.front[i]? = some x := by
  obtain ⟨i, hi⟩ := List.mem_iff_getElem?.mp hx
  have hlt := (List.getElem?_eq_some_iff.mp hi).1
  by_cases hxg : x = g
  · obtain ⟨w, _, hp⟩ | ⟨htold, hwork⟩ := h.leader
    · rw [← hxg] at hp
      simp [hp, Working] at hpc
    · exact ⟨fun _ => ⟨htold, hxg ▸ hwork⟩, i, by omega, hi⟩
  · refine ⟨fun heq => absurd heq hxg, i, ?_, hi⟩
    by_contra hge
    obtain ⟨hp, hst⟩ := h.waiting i x (by omega) hi hxg
    simp [hp, hst, Working] at hpc

/-- A member goes on with its insertion. -/
theorem Sim.work (h : Sim c s v) {g told : Nat} {rest : List Nat} (hfront : v.front = g :: rest)
    (hphase : v.phase = .launched told) (hl : Launched s v.toLine g told) (hx : x ∈ v.front)
    (hpc : Working (s.pc x) ∨ s.pc x = .await ∧ s.state x ≠ .init)
    (hold : s.pc x ≠ .awaitCompleted) {p : Pc} (hp : Working p) (hnew : p ≠ .awaitCompleted) :
    Sim c (s.goto x p) v := by
  obtain ⟨hleader, k, hk, hkx⟩ := hl.told_of_pc hx hpc
  obtain ⟨hgap, ⟨h₁, h₂, h₃, h₄⟩, hfirst, hstate, hworking, hwaiting, hlead, hrunning, hpos⟩ := hl
  have hv : v = { v with phase := .launched told } := by rw [← hphase]
  rw [hv]
  refine h.closed_step (by simp [hphase]) (by simp) rfl ?_ (fun _ _ => rfl) ?_
  · exact fun w hw => State.goto_pc_of_ne _ _ _ fun heq => hw (heq ▸ hx)
  refine Launched.front hfront rfl ⟨hgap, ⟨h₁, h₂, h₃, h₄⟩, hfirst, hstate, ?_, ?_, ?_, ?_, hpos⟩
  · intro i w hi hw hne
    by_cases hwx : w = x
    · rw [hwx, State.goto_pc_self]
      exact .inr hp
    · rw [State.goto_pc_of_ne _ _ _ hwx]
      exact hworking i w hi hw hne
  · intro i w hi hw hne
    have hwx : w ≠ x := fun heq => by
      have := index_inj h.front_nodup (heq ▸ hw) hkx
      omega
    exact (hwaiting i w hi hw hne).congr (State.goto_pc_of_ne _ _ _ hwx) rfl
  · by_cases hgx : g = x
    · rw [hgx, State.goto_pc_self]
      exact .inr ⟨(hleader hgx.symm).1, hp⟩
    · rw [State.goto_pc_of_ne _ _ _ hgx]
      exact hlead
  · exact hrunning.trans (countP_goto hold hnew).symm

/-- The leader of a closed group is live as long as the group is on the list. -/
theorem Sim.deref_group (h : Sim c s v) {g : Nat} {rest : List Nat} (hfront : v.front = g :: rest)
    (hclosed : Closed s v.toLine g) (hx : x ∈ v.front) (k : Nat → State) :
    s.deref (s.writeGroup x) k = k g := by
  have hg : g ∈ v.queue := List.mem_append_left _ (by simp [hfront])
  rw [hclosed.group x hx, State.deref_live _ (h.live hg)]

/-- A member inserts its batch. -/
theorem Sim.insert (h : Sim c s v) (hpc : s.pc x = .insert) : Sim c (s.goto x .report) v := by
  obtain ⟨g, rest, told, hfront, hphase, hx, hl⟩ := h.launched_of_pc hpc trivial
  exact h.work hfront hphase hl hx (.inl (.inl hpc)) (by simp [hpc]) (.inr (.inl rfl)) (by simp)

/-- A member that reports its status reaches its group. -/
theorem Sim.report_eq (h : Sim c s v) (hpc : s.pc x = .report) :
    (s.deref (s.writeGroup x) fun _ => s.goto x .complete) = s.goto x .complete := by
  obtain ⟨g, rest, told, hfront, _, hx, hl⟩ := h.launched_of_pc hpc trivial
  exact h.deref_group hfront hl.closed hx _

/-- A member reports its status to its group. -/
theorem Sim.report (h : Sim c s v) (hpc : s.pc x = .report) :
    Sim c (s.deref (s.writeGroup x) fun _ => s.goto x .complete) v := by
  obtain ⟨g, rest, told, hfront, hphase, hx, hl⟩ := h.launched_of_pc hpc trivial
  rw [h.report_eq hpc]
  exact h.work hfront hphase hl hx (.inl (.inr (.inl hpc))) (by simp [hpc]) (.inr (.inr (.inl rfl)))
    (by simp)

/-- One round of the launch: the next member is told, and the leader goes on to the one behind it
or to its own batch. -/
theorem Sim.launch_eq (h : Sim c s v) {w : Nat} (hpc : s.pc x = .launch w) :
    ∃ rest told p, v.front = x :: rest ∧ v.phase = .launched told ∧ Launched s v.toLine x told ∧
      v.front[told]? = some w ∧
      ((∃ y, v.front[told + 1]? = some y ∧ p = .launch y) ∨
        told + 1 = v.front.length ∧ p = .insert) ∧
      s.launch x w = (s.setState w .parallelMemtableWriter).goto x p := by
  obtain ⟨g, rest, told, hfront, hphase, hx, hl⟩ := h.launched_of_pc hpc trivial
  obtain rfl : x = g := by
    by_contra hne
    obtain ⟨i, hi⟩ := List.mem_iff_getElem?.mp hx
    rcases Nat.lt_or_ge i told with hlt | hge
    · obtain hp | hp := hl.working i x hlt hi hne <;> simp [hpc, Working] at hp
    · have hp := (hl.waiting i x hge hi hne).1
      simp [hpc] at hp
  obtain ⟨w', hw, hpc'⟩ | ⟨_, hwork⟩ := hl.leader
  swap
  · simp [hpc, Working] at hwork
  obtain rfl : w' = w := by simpa [hpc] using hpc'.symm
  obtain ⟨h₁, -, -, h₄⟩ := hl.closed
  have hlen := (List.getElem?_eq_some_iff.mp hw).1
  have hlive := h.live (List.mem_append_left v.pending (List.mem_of_getElem? hw))
  rw [State.launch, State.deref_live _ hlive]
  by_cases hlast : w' = (s.group x).lastWriter
  · -- the last member: its position is the last one
    have htold : told + 1 = v.front.length := by
      rw [← hlast, List.getLast?_eq_getElem?] at h₁
      have := index_inj h.front_nodup h₁ hw
      omega
    simp only [if_pos hlast]
    exact ⟨rest, told, .insert, hfront, hphase, hl, hw, .inr ⟨htold, rfl⟩, rfl⟩
  · have htold : told + 1 < v.front.length := by
      refine Nat.lt_of_le_of_ne hlen fun heq => hlast ?_
      have h₁' : v.front.getLast? = some (s.group x).lastWriter := h₁
      rw [List.getLast?_eq_getElem?, ← heq, Nat.add_sub_cancel, hw] at h₁'
      exact Option.some.inj h₁'
    obtain ⟨y, hy⟩ : ∃ y, v.front[told + 1]? = some y := ⟨_, List.getElem?_eq_getElem htold⟩
    have hnewer : s.linkNewer w' = some y := by
      have hq : v.queue[told]? = some w' := by
        rw [Line.queue, List.getElem?_append_left (by omega)]
        exact hw
      rw [h.linked.newer_eq hq (h₄ told w' htold hw), Line.queue, List.getElem?_append_left htold]
      exact hy
    simp only [if_neg hlast, hnewer]
    exact ⟨rest, told, .launch y, hfront, hphase, hl, hw, .inl ⟨y, hy, rfl⟩, rfl⟩

/-- The leader tells one more member to insert its batch. -/
theorem Sim.launch (h : Sim c s v) {w : Nat} (hpc : s.pc x = .launch w) :
    ∃ v', Sim c (s.launch x w) v' := by
  obtain ⟨rest, told, p, hfront, hphase, hl, hw, hcase, hstep⟩ := h.launch_eq hpc
  obtain ⟨hgap, ⟨h₁, h₂, h₃, h₄⟩, _, hstate, hworking, hwaiting, _, hrunning, hpos⟩ := hl
  have hx : x ∈ v.front := by simp [hfront]
  have hmem : w ∈ v.front := List.mem_of_getElem? hw
  have hp : p ≠ .awaitCompleted := by
    obtain ⟨_, _, rfl⟩ | ⟨_, rfl⟩ := hcase <;> simp
  rw [hstep]
  refine ⟨{ v with phase := .launched (told + 1) }, h.closed_step (by simp [hphase]) (by simp) rfl
    ?_ ?_ ?_⟩
  · exact fun y hy => State.goto_pc_of_ne _ _ _ fun heq => hy (heq ▸ hx)
  · intro y hy
    have hne : y ≠ w := fun heq => hy (heq ▸ hmem)
    exact State.setState_state_of_ne _ _ hne _
  refine Launched.front hfront rfl ⟨hgap, ⟨h₁, h₂, h₃, h₄⟩, by simp, ?_, ?_, ?_, ?_, ?_, hpos⟩
  · intro i y hi hy
    show Function.update s.state w _ y = _
    by_cases hyw : y = w
    · rw [hyw, Function.update_self]
    · rw [Function.update_of_ne hyw]
      have hne : i ≠ told := fun heq => hyw (Option.some.inj (hy.symm.trans (heq ▸ hw)))
      exact hstate i y (by omega) hy
  · intro i y hi hy hne
    rw [State.goto_pc_of_ne _ _ _ hne]
    rcases Nat.lt_or_ge i told with hlt | hge
    · exact hworking i y hlt hy hne
    · exact .inl (hwaiting i y hge hy hne).1
  · intro i y hi hy hne
    have hyw : y ≠ w := fun heq => by
      have := index_inj h.front_nodup (heq ▸ hy) hw
      omega
    exact (hwaiting i y (by omega) hy hne).congr (State.goto_pc_of_ne _ _ _ hne)
      (State.setState_state_of_ne _ _ hyw _)
  · rw [State.goto_pc_self]
    exact hcase.imp_right fun ⟨htold, hins⟩ => ⟨htold, .inl hins⟩
  · exact hrunning.trans (countP_goto (s := s.setState w .parallelMemtableWriter)
      (by simp [State.setState, hpc]) hp).symm

/-- What `CompleteParallelMemTableWriter` does: the member is one less to wait for. -/
theorem Sim.complete_eq (h : Sim c s v) (hpc : s.pc x = .complete) : ∃ g rest told,
    v.front = g :: rest ∧ v.phase = .launched told ∧ x ∈ v.front ∧ Launched s v.toLine g told ∧
      s.completeParallelMemTableWriter x = (s.setRunning g ((s.group g).running - 1)).goto x
        (if 1 < (s.group g).running then .awaitCompleted else .publish) := by
  obtain ⟨g, rest, told, hfront, hphase, hx, hl⟩ := h.launched_of_pc hpc trivial
  refine ⟨g, rest, told, hfront, hphase, hx, hl, ?_⟩
  rw [State.completeParallelMemTableWriter, h.deref_group hfront hl.closed hx]

/-- The counter of a group is no part of what its leader has closed, nor is its phase. -/
theorem Closed.setRunning {g : Nat} {v v' : Line} (h : Closed s v g) (hfront : v'.front = v.front)
    (running : Nat) (p : Pc) : Closed ((s.setRunning g running).goto x p) v' g := by
  have hgroup : ((s.setRunning g running).goto x p).group g =
      { s.group g with running := running } := Function.update_self ..
  constructor
  · rw [hgroup, hfront]
    exact h.last
  · rw [hgroup, hfront]
    exact h.size
  · rw [hfront]
    exact h.group
  · rw [hfront]
    exact h.links

/-- When one member is left to wait for, the others wait. -/
theorem Launched.others_wait {g told : Nat} {v : Line} (h : Launched s v g told)
    (hnodup : v.front.Nodup) (hx : x ∈ v.front) (hold : s.pc x ≠ .awaitCompleted)
    (hone : ¬ 1 < (s.group g).running) : ∀ w ∈ v.front, w ≠ x → s.pc w = .awaitCompleted := by
  have hcount := countP_goto_wait hnodup hx hold
  have hrunning := h.running
  have hzero : v.front.countP (fun w => (s.goto x .awaitCompleted).pc w ≠ .awaitCompleted) =
      0 := by
    omega
  intro w hw hne
  have hwait := List.countP_eq_zero.mp hzero w hw
  rw [State.goto_pc_of_ne _ _ _ hne] at hwait
  simpa using hwait

/-- A member that is not the last one waits. -/
theorem Sim.complete_waits (h : Sim c s v) (hpc : s.pc x = .complete) {g told : Nat}
    {rest : List Nat} (hfront : v.front = g :: rest) (hphase : v.phase = .launched told)
    (hx : x ∈ v.front) (hl : Launched s v.toLine g told) (hmore : 1 < (s.group g).running) :
    ∃ v', Sim c ((s.setRunning g ((s.group g).running - 1)).goto x .awaitCompleted) v' := by
  obtain ⟨hleader, k, hk, hkx⟩ := hl.told_of_pc hx (.inl (.inr (.inr (.inl hpc))))
  have hgroup : ((s.setRunning g ((s.group g).running - 1)).goto x .awaitCompleted).group g =
      { s.group g with running := (s.group g).running - 1 } := Function.update_self ..
  refine ⟨{ v with phase := .launched told }, h.closed_step (by simp [hphase]) (by simp) rfl ?_
    (fun _ _ => rfl) ?_⟩
  · exact fun w hw => State.goto_pc_of_ne _ _ _ fun heq => hw (heq ▸ hx)
  refine Launched.front hfront rfl
    ⟨hl.gap, hl.closed.setRunning (by rfl) _ _, hl.first, hl.state, ?_, ?_, ?_, ?_, ?_⟩
  · intro i w hi hw hne
    by_cases hwx : w = x
    · rw [hwx, State.goto_pc_self]
      exact .inr (.inr (.inr (.inr rfl)))
    · rw [State.goto_pc_of_ne _ _ _ hwx]
      exact hl.working i w hi hw hne
  · intro i w hi hw hne
    have hwx : w ≠ x := fun heq => by
      have := index_inj h.front_nodup (heq ▸ hw) hkx
      omega
    exact (hl.waiting i w hi hw hne).congr (State.goto_pc_of_ne _ _ _ hwx) rfl
  · by_cases hgx : g = x
    · rw [hgx, State.goto_pc_self]
      exact .inr ⟨(hleader hgx.symm).1, .inr (.inr (.inr rfl))⟩
    · rw [State.goto_pc_of_ne _ _ _ hgx]
      exact hl.leader
  · rw [hgroup]
    show (s.group g).running - 1 = _
    rw [hl.running, countP_goto_wait h.front_nodup hx (by simp [hpc]), Nat.add_sub_cancel]
    rfl
  · rw [hgroup]
    show 0 < (s.group g).running - 1
    omega

/-- The last member goes on to the exit, and everybody else waits. -/
theorem Sim.complete_last (h : Sim c s v) (hpc : s.pc x = .complete) {g told : Nat}
    {rest : List Nat} (hfront : v.front = g :: rest) (hphase : v.phase = .launched told)
    (hx : x ∈ v.front) (hl : Launched s v.toLine g told) (hone : ¬ 1 < (s.group g).running) :
    ∃ v', Sim c ((s.setRunning g ((s.group g).running - 1)).goto x .publish) v' := by
  have hgf : g ∈ v.front := by simp [hfront]
  have hothers := hl.others_wait h.front_nodup hx (by simp [hpc]) hone
  have htold : told = v.front.length := by
    by_cases hxg : x = g
    · exact ((hl.told_of_pc hx (.inl (.inr (.inr (.inl hpc))))).1 hxg).1
    · obtain ⟨w, _, hp⟩ | ⟨heq, _⟩ := hl.leader
      · have hwait := hothers g hgf fun heq => hxg heq.symm
        simp [hp] at hwait
      · exact heq
  have hparallel : ∀ w ∈ v.front, s.state w = .parallelMemtableWriter := by
    intro w hw
    obtain ⟨i, hi⟩ := List.mem_iff_getElem?.mp hw
    exact hl.state i w (htold ▸ (List.getElem?_eq_some_iff.mp hi).1) hi
  refine ⟨{ v with phase := .exiting x }, h.closed_step (by simp [hphase]) (by simp) rfl ?_
    (fun _ _ => rfl) ?_⟩
  · exact fun w hw => State.goto_pc_of_ne _ _ _ fun heq => hw (heq ▸ hx)
  refine Exiting.front hfront rfl ⟨hx, ?_, ?_, ?_⟩
  · intro w hw hne
    exact .inr ⟨(State.goto_pc_of_ne _ _ _ hne).trans (hothers w hw hne), hparallel w hw⟩
  · intro hxg
    have hgx : g ≠ x := fun heq => hxg heq.symm
    exact ⟨hparallel x hx, (State.goto_pc_of_ne _ _ _ hgx).trans (hothers g hgf hgx)⟩
  · unfold Exit
    rw [State.goto_pc_self]
    exact ⟨hl.gap, hl.closed.setRunning (by rfl) _ _⟩

/-- A member completes: the last one performs the exit. -/
theorem Sim.complete (h : Sim c s v) (hpc : s.pc x = .complete) :
    ∃ v', Sim c (s.completeParallelMemTableWriter x) v' := by
  obtain ⟨g, rest, told, hfront, hphase, hx, hl, hstep⟩ := h.complete_eq hpc
  rw [hstep]
  split_ifs with hmore
  · exact h.complete_waits hpc hfront hphase hx hl hmore
  · exact h.complete_last hpc hfront hphase hx hl hmore

end P2KVS.WriteThread
