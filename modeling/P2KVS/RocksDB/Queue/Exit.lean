import P2KVS.RocksDB.Queue.Insertion

/-!
# A group leaves the list

The member that performs the exit empties the list, or creates the missing links behind the group
and makes the first writer there the leader.
-/

namespace P2KVS.WriteThread

open Transition Intrusive

variable {c : Config} {s t : State} {v : View} {x : Nat}

/-- A step of the member that performs the exit, before the group leaves the list. -/
theorem Sim.exit_step (h : Sim c s v) {g : Nat} {rest : List Nat} (hfront : v.front = g :: rest)
    (hphase : v.phase = .exiting x) (hexiting : Exiting s v.toLine g x) {gap : Option Nat}
    (hsame : (t.fault, t.order, t.newestWriter, t.linkOlder, t.formed) =
      (s.fault, s.order, s.newestWriter, s.linkOlder, s.formed))
    (hnewer : ∀ w ∉ v.queue, t.linkNewer w = s.linkNewer w)
    (hpc : ∀ w, w ≠ x → t.pc w = s.pc w) (hstate : t.state = s.state)
    (hlinked : Linked t.linkOlder t.linkNewer v.queue gap)
    (hexit : Exit t { v.toLine with gap := gap } g x) : Sim c t { v with gap := gap } := by
  simp only [Prod.mk.injEq] at hsame
  obtain ⟨hfault, horder, hnewest, holder, hformed⟩ := hsame
  obtain ⟨hx, hheld, hfollower, -⟩ := hexiting
  refine h.front_step rfl rfl (fun _ hw => hw) (by rw [hfault, horder, hnewest, holder]) hnewer
    (fun w hw => hpc w fun heq => hw (heq ▸ hx)) (fun _ _ => by rw [hstate]) hlinked ?_ ?_
    (hformed ▸ h.fits)
  · refine Exiting.front hfront hphase ⟨hx, ?_, ?_, hexit⟩
    · exact fun w hw hne => (hheld w hw hne).congr (hpc w hne) (by rw [hstate])
    · intro hne
      rw [hstate, hpc g fun heq => hne heq.symm]
      exact hfollower hne
  · rw [hformed, h.closed]
    rfl

/-- The thread that publishes reaches its group. -/
theorem Sim.publish_eq (h : Sim c s v) (hpc : s.pc x = .publish) :
    (s.deref (s.writeGroup x) fun _ => s.goto x .exitLoad) = s.goto x .exitLoad := by
  obtain ⟨g, rest, hfront, _, hexiting⟩ := h.exiting_of_pc hpc trivial
  have hexit := hexiting.exit
  simp only [Exit, hpc] at hexit
  exact h.deref_group hfront hexit.2 hexiting.mem _

/-- The thread publishes the group and begins to leave. -/
theorem Sim.publish (h : Sim c s v) (hpc : s.pc x = .publish) :
    ∃ v', Sim c (s.deref (s.writeGroup x) fun _ => s.goto x .exitLoad) v' := by
  obtain ⟨g, rest, hfront, hphase, hexiting⟩ := h.exiting_of_pc hpc trivial
  have hexit := hexiting.exit
  simp only [Exit, hpc] at hexit
  obtain ⟨hgap, h₁, h₂, h₃, h₄⟩ := hexit
  rw [h.publish_eq hpc]
  refine ⟨_, h.exit_step hfront hphase hexiting rfl (fun _ _ => rfl)
    (fun w hw => State.goto_pc_of_ne _ _ _ hw) rfl h.linked ?_⟩
  unfold Exit
  rw [State.goto_pc_self]
  exact ⟨hgap, h₁, h₂, h₃, h₄⟩

/-- The last member of the front group in the queue. -/
theorem Line.last_index {v : Line} {g last : Nat} {rest : List Nat} (hfront : v.front = g :: rest)
    (hlast : v.front.getLast? = some last) : v.queue[v.front.length - 1]? = some last := by
  have hpos : 0 < v.front.length := by simp [hfront]
  rw [Line.queue, List.getElem?_append_left (by omega), ← List.getLast?_eq_getElem?]
  exact hlast

/-- When the newest writer is not the last member, somebody waits behind the group, and a walk from
there may begin. -/
theorem Sim.behind (h : Sim c s v) {g last head : Nat} {rest : List Nat}
    (hfront : v.front = g :: rest) (hlast : v.front.getLast? = some last)
    (hhead : s.newestWriter = some head) (hne : head ≠ last) (hgap : v.gap = none) :
    ∃ e, v.front.length ≤ e ∧ Linked s.linkOlder s.linkNewer v.queue (some e) ∧
      Walk s { v.toLine with gap := some e } head e := by
  obtain ⟨newest, e, hnewest, he, hlen⟩ := h.newest_eq (by simp [hfront])
  obtain rfl : newest = head := Option.some.inj (hnewest.symm.trans hhead)
  have hl := h.linked
  rw [hgap] at hl
  have hidx := Line.last_index hfront hlast
  have hle : v.front.length ≤ e := by
    by_contra hlt
    have hq : v.queue.length = v.front.length + v.pending.length := by simp [Line.queue]
    have : e = v.front.length - 1 := by omega
    exact hne (Option.some.inj (he.symm.trans (this ▸ hidx)))
  refine ⟨e, hle, hl.beginWalk e, ?_, e, Nat.le_refl e, rfl, he, ?_⟩
  · show e < v.queue.length
    omega
  · exact fun i y h₁ h₂ => absurd h₁ (by omega)

/-- What leaving begins with: the newest writer is the last member, or somebody is behind. -/
theorem Sim.exitLoad_eq (h : Sim c s v) (hpc : s.pc x = .exitLoad) : ∃ g rest head,
    v.front = g :: rest ∧ v.phase = .exiting x ∧ Exiting s v.toLine g x ∧
      s.newestWriter = some head ∧
      s.exitAsBatchGroup x = s.goto x (if head = (s.group g).lastWriter then
        .exitCas g (s.group g).lastWriter else .exitLinks g (s.group g).lastWriter head) := by
  obtain ⟨g, rest, hfront, hphase, hexiting⟩ := h.exiting_of_pc hpc trivial
  have hexit := hexiting.exit
  simp only [Exit, hpc] at hexit
  have hg : v.queue[0]? = some g := by simp [Line.queue, hfront]
  obtain ⟨head, _, hnewest, _, _⟩ := h.newest_eq (by simp [hfront])
  refine ⟨g, rest, head, hfront, hphase, hexiting, hnewest, ?_⟩
  rw [State.exitAsBatchGroup, h.deref_group hfront hexit.2 hexiting.mem]
  simp only
  rw [State.check_true _ ⟨fun hne => (hexiting.follower hne).1, h.linked.older_first hg⟩]
  simp only [hnewest]

/-- `ExitAsBatchGroupLeader` reads the last writer of the group. -/
theorem Sim.exitLoad (h : Sim c s v) (hpc : s.pc x = .exitLoad) :
    ∃ v', Sim c (s.exitAsBatchGroup x) v' := by
  obtain ⟨g, rest, head, hfront, hphase, hexiting, hnewest, hstep⟩ := h.exitLoad_eq hpc
  have hexit := hexiting.exit
  simp only [Exit, hpc] at hexit
  obtain ⟨hgap, hlast, -⟩ := hexit
  rw [hstep]
  by_cases hne : head = (s.group g).lastWriter
  · rw [if_pos hne]
    refine ⟨_, h.exit_step hfront hphase hexiting rfl (fun _ _ => rfl)
      (fun w hw => State.goto_pc_of_ne _ _ _ hw) rfl h.linked ?_⟩
    unfold Exit
    rw [State.goto_pc_self]
    exact ⟨hgap, rfl, hlast⟩
  · rw [if_neg hne]
    obtain ⟨e, hle, hlinked, hwalk⟩ := h.behind hfront hlast hnewest hne hgap
    refine ⟨_, h.exit_step hfront hphase hexiting rfl (fun _ _ => rfl)
      (fun w hw => State.goto_pc_of_ne _ _ _ hw) rfl hlinked ?_⟩
    unfold Exit
    rw [State.goto_pc_self]
    exact ⟨rfl, hlast, e, hle, hwalk⟩

/-- A step of the walk that links the writers behind the group. -/
theorem Sim.exitLinks (h : Sim c s v) {leader last head : Nat}
    (hpc : s.pc x = .exitLinks leader last head) :
    ∃ v', Sim c (s.createMissingNewerLink x head (.exitLinks leader last)
      (.handoff leader last)) v' := by
  obtain ⟨g, rest, hfront, hphase, hexiting⟩ := h.exiting_of_pc hpc trivial
  have hexit := hexiting.exit
  simp only [Exit, hpc] at hexit
  obtain ⟨rfl, hlast, e, hle, hwalk⟩ := hexit
  have he := hwalk.1
  obtain ⟨below, hstep, hmem, _, gap, hlinked, hwalk'⟩ | ⟨hstep, hlinked, hlinks⟩ :=
    h.walk (x := x) hwalk (.exitLinks leader last) (.handoff leader last)
  · rw [hstep]
    refine ⟨{ v with gap := gap }, h.exit_step hfront hphase hexiting rfl ?_
      (fun w hw => State.goto_pc_of_ne _ _ _ hw) rfl hlinked ?_⟩
    · intro w hw
      have hne : w ≠ below := fun heq => hw (heq ▸ hmem)
      exact Function.update_of_ne hne ..
    · unfold Exit
      rw [State.goto_pc_self]
      exact ⟨rfl, hlast, e, hle, hwalk'⟩
  · rw [hstep]
    refine ⟨{ v with gap := none }, h.exit_step hfront hphase hexiting rfl (fun _ _ => rfl)
      (fun w hw => State.goto_pc_of_ne _ _ _ hw) rfl hlinked ?_⟩
    have hpos : 0 < v.front.length := by simp [hfront]
    unfold Exit
    rw [State.goto_pc_self]
    refine ⟨rfl, rfl, hlast, ?_, hlinks _ last (by omega) (Line.last_index hfront hlast)⟩
    intro hnil
    have hq : v.queue.length = v.front.length := by
      rw [Line.queue, show v.pending = [] from hnil, List.append_nil]
    omega

/-- The group has left the list: its executor has to release all members. -/
def View.detach (v : View) (x : Nat) : Detached :=
  ⟨v.front, x, .draining v.front.length⟩

/-- The list behind a group that nobody follows. -/
def View.emptied (v : View) (x : Nat) : View where
  front := []
  phase := .leading
  pending := []
  gap := none
  left := v.left ++ [v.detach x]

/-- The list behind a group that hands the leadership to `next`. -/
def View.handed (v : View) (x next : Nat) (others : List Nat) : View where
  front := [next]
  phase := .leading
  pending := others
  gap := none
  left := v.left ++ [v.detach x]

/-- The group that leaves the list is in order when its links and places are those of the front
group. -/
theorem Exiting.detach (h : Sim c s v) {g last : Nat} {rest : List Nat}
    (hfront : v.front = g :: rest) (hexiting : Exiting s v.toLine g x)
    (hlast : v.front.getLast? = some last) (hpc : t.pc x = .drain g last)
    (hpcs : ∀ w ∈ v.front, w ≠ x → t.pc w = s.pc w) (hstate : ∀ w ∈ v.front, t.state w = s.state w)
    (holder : ∀ w ∈ v.front, t.linkOlder w = s.linkOlder w) : (v.detach x).Ok t := by
  obtain ⟨hx, hheld, hfollower, -⟩ := hexiting
  have hget : ∀ (i : Nat) y, v.front[i]? = some y → v.queue[i]? = some y := by
    intro i y hy
    rw [Line.queue, List.getElem?_append_left (List.getElem?_eq_some_iff.mp hy).1]
    exact hy
  refine ⟨hx, g, by simp [View.detach, hfront], ?_⟩
  refine ⟨⟨last, by simp [hfront], ?_, hpc⟩, ?_, ?_, ?_, ?_, ?_, ?_⟩
  · show v.front[v.front.length - 1]? = some last
    rw [← List.getLast?_eq_getElem?]
    exact hlast
  · intro i a b _ ha hb
    rw [holder b (List.mem_of_getElem? hb)]
    exact h.linked.older_next (hget i a ha) (hget (i + 1) b hb)
  · intro i w _ hw hne
    have hmem : w ∈ v.front := List.mem_of_getElem? hw
    exact (hheld w hmem hne).congr (hpcs w hmem hne) (hstate w hmem)
  · intro i w hi hw
    exact absurd (List.getElem?_eq_some_iff.mp hw).1 (Nat.not_lt.mpr hi)
  · intro hne _ _ _
    exact (hstate x hx).trans (hfollower hne).1
  · intro i hi hw
    exact absurd (List.getElem?_eq_some_iff.mp hw).1 (Nat.not_lt.mpr hi)
  · intro hne
    have hg : g ∈ v.front := by simp [hfront]
    rw [hpcs g hg fun heq => hne heq.symm]
    exact (hfollower hne).2

/-- What the exchange of a leaving thread does: it empties the list, or finds somebody behind. -/
theorem Sim.emptyList_eq (h : Sim c s v) {leader last : Nat} (hpc : s.pc x = .exitCas leader last) :
    ∃ head, s.newestWriter = some head ∧ s.emptyList x leader last =
      if head = last then { s with newestWriter := none }.goto x (.drain leader last)
      else s.goto x (.exitLinks leader last head) := by
  obtain ⟨g, rest, hfront, _, _⟩ := h.exiting_of_pc hpc trivial
  obtain ⟨head, _, hnewest, _, _⟩ := h.newest_eq (by simp [hfront])
  exact ⟨head, hnewest, by simp only [State.emptyList, hnewest, Option.some.injEq]⟩

/-- The exit empties the list when nobody has come behind the group. -/
theorem Sim.exitCas (h : Sim c s v) {leader last : Nat} (hpc : s.pc x = .exitCas leader last) :
    ∃ v', Sim c (s.emptyList x leader last) v' := by
  obtain ⟨g, rest, hfront, hphase, hexiting⟩ := h.exiting_of_pc hpc trivial
  have hexit := hexiting.exit
  simp only [Exit, hpc] at hexit
  obtain ⟨hgap, rfl, hlast⟩ := hexit
  obtain ⟨head, hnewest, heq⟩ := h.emptyList_eq hpc
  rw [heq]
  by_cases hhead : head = last
  · -- nobody has joined: the list is empty
    rw [if_pos hhead]
    subst hhead
    have hpending : v.pending = [] := by
      obtain ⟨_, e, hnewest', he, _⟩ := h.newest_eq (by simp [hfront])
      rw [← Option.some.inj (hnewest.symm.trans hnewest')] at he
      have hidx := Line.last_index hfront hlast
      have := index_inj h.linked.nodup he hidx
      have hq : v.queue.length = v.front.length + v.pending.length := by simp [Line.queue]
      have hpos : 0 < v.front.length := by simp [hfront]
      exact List.length_eq_zero_iff.mp (by omega)
    have hx := hexiting.mem
    have hlinked : (v.emptied x).linked = v.linked := by
      simp [View.linked, Line.queue, View.emptied, View.detach, hpending]
    refine ⟨v.emptied x, ?_⟩
    refine ⟨h.fault, hlinked ▸ h.order, hlinked ▸ h.nodup, rfl, Linked.nil,
      ?_, by simp [View.emptied], ?_, ?_,
      ?_, h.fits⟩
    · intro w hw
      rw [hlinked] at hw
      have hne : w ≠ x := fun heq => hw (View.mem_linked.mpr (.inr (.inl (heq ▸ hx))))
      exact (h.unlinked w hw).congr (State.goto_pc_of_ne _ _ _ hne) rfl rfl
    · exact ⟨rfl, rfl, rfl⟩
    · intro d hd
      rcases List.mem_append.mp hd with hd | hd
      · have hne : ∀ w ∈ d.members, w ≠ x := fun w hw heq =>
          h.queue_not_left hd hw (List.mem_append_left _ (heq ▸ hx))
        exact (h.left d hd).congr (fun w hw => State.goto_pc_of_ne _ _ _ (hne w hw))
          (fun _ _ => rfl) fun _ _ => rfl
      · rw [List.mem_singleton.mp hd]
        exact Exiting.detach h hfront hexiting hlast (State.goto_pc_self ..)
          (fun w _ hne => State.goto_pc_of_ne _ _ _ hne) (fun _ _ => rfl) fun _ _ => rfl
    · show s.formed = _
      rw [h.closed]
      simp [View.closed, hphase, View.emptied, View.detach]
  · rw [if_neg hhead]
    obtain ⟨e', hle, hlinked, hwalk⟩ := h.behind hfront hlast hnewest hhead hgap
    refine ⟨_, h.exit_step hfront hphase hexiting rfl (fun _ _ => rfl)
      (fun w hw => State.goto_pc_of_ne _ _ _ hw) rfl hlinked ?_⟩
    unfold Exit
    rw [State.goto_pc_self]
    exact ⟨rfl, hlast, e', hle, hwalk⟩

/-- The writer behind the group exists and becomes the next leader. -/
theorem Sim.handoff_eq (h : Sim c s v) {leader last : Nat} (hpc : s.pc x = .handoff leader last) :
    ∃ next others, v.pending = next :: others ∧ v.queue[v.front.length]? = some next ∧
      s.handoff c x leader last =
        ((s.storeOlder next none).setState next .groupLeader).goto x (.drain leader last) := by
  obtain ⟨g, rest, hfront, hphase, hexiting⟩ := h.exiting_of_pc hpc trivial
  have hexit := hexiting.exit
  simp only [Exit, hpc] at hexit
  obtain ⟨-, -, hlast, hpending, hnewer⟩ := hexit
  obtain ⟨next, others, hothers⟩ := List.exists_cons_of_ne_nil hpending
  have hpos : 0 < v.front.length := by simp [hfront]
  have hidx := Line.last_index hfront hlast
  have hnext : v.queue[v.front.length]? = some next := by simp [Line.queue, hothers]
  have hlink : s.linkNewer last = some next := by
    rw [h.linked.newer_eq hidx hnewer, Nat.sub_add_cancel hpos]
    exact hnext
  have holder : s.linkOlder next = some last :=
    h.linked.older_next hidx (by rw [Nat.sub_add_cancel hpos]; exact hnext)
  refine ⟨next, others, hothers, hnext, ?_⟩
  rw [State.handoff, State.deref_live _ (h.live (List.mem_of_getElem? hidx)), hlink,
    State.deref_live _ (h.live (List.mem_of_getElem? hnext)), State.check_true _ (.inr holder)]

/-- The exit hands the list over to the next leader. -/
theorem Sim.handoff (h : Sim c s v) {leader last : Nat} (hpc : s.pc x = .handoff leader last) :
    ∃ v', Sim c (s.handoff c x leader last) v' := by
  obtain ⟨g, rest, hfront, hphase, hexiting⟩ := h.exiting_of_pc hpc trivial
  have hexit := hexiting.exit
  simp only [Exit, hpc] at hexit
  obtain ⟨hgap, rfl, hlast, -, -⟩ := hexit
  have hx := hexiting.mem
  obtain ⟨next, others, hothers, hnext, hstep⟩ := h.handoff_eq hpc
  rw [hstep]
  have hnp : next ∈ v.pending := by simp [hothers]
  have hfn : ∀ w ∈ v.front, w ≠ next := fun w hw heq => h.front_not_pending hw (heq ▸ hnp)
  have hxn : next ≠ x := fun heq => hfn x hx heq.symm
  have hon : next ∉ others := by
    have hnodup := h.linked.nodup
    rw [Line.queue, hothers, List.nodup_append, List.nodup_cons] at hnodup
    exact hnodup.2.1.1
  obtain ⟨hnst, hnpc⟩ := h.pending next hnp
  have hlinked : (v.handed x next others).linked = v.linked := by
    simp [View.linked, Line.queue, View.handed, View.detach, hothers]
  have hdrop : (v.handed x next others).queue = v.queue.drop v.front.length := by
    simp [Line.queue, View.handed, hothers]
  refine ⟨v.handed x next others, ?_⟩
  refine ⟨h.fault, hlinked ▸ h.order, hlinked ▸ h.nodup, ?_, ?_, ?_, ?_, ?_, ?_, ?_, h.fits⟩
  · show s.newestWriter = _
    rw [hdrop, h.newest, Line.queue, List.drop_left, hothers,
      List.getLast?_append_of_ne_nil _ (List.cons_ne_nil next others)]
  · have hl := h.linked
    rw [hgap] at hl
    show Linked (Function.update s.linkOlder next none) s.linkNewer (v.handed x next others).queue
        none
    rw [hdrop]
    exact hl.drop hnext
  · intro w hw
    rw [hlinked] at hw
    have hne : w ≠ x := fun heq => hw (View.mem_linked.mpr (.inr (.inl (heq ▸ hx))))
    have hnn : w ≠ next := fun heq => hw (View.mem_linked.mpr (.inr (.inr (heq ▸ hnp))))
    exact (h.unlinked w hw).congr (State.goto_pc_of_ne _ _ _ hne)
      (State.setState_state_of_ne _ _ hnn _) rfl
  · intro w hw
    have hwp : w ∈ v.pending := by
      rw [hothers]
      exact List.mem_cons_of_mem _ hw
    have hne : w ≠ x := fun heq => h.front_not_pending hx (heq ▸ hwp)
    have hnn : w ≠ next := fun heq => hon (heq ▸ hw)
    exact (h.pending w hwp).congr (State.goto_pc_of_ne _ _ _ hne)
      (State.setState_state_of_ne _ _ hnn _)
  · refine Leading.front rfl rfl ?_
    unfold Leading
    rw [State.goto_pc_of_ne _ _ _ hxn]
    have hkeep : ((s.storeOlder next none).setState next .groupLeader).pc next = s.pc next := rfl
    obtain ⟨hp, hb⟩ | ⟨hp, hb⟩ := hnpc
    · rw [hkeep, hp]
      exact ⟨rfl, Function.update_self .., hb⟩
    · rw [hkeep, hp]
      exact ⟨rfl, Function.update_self .., hb⟩
  · intro d hd
    rcases List.mem_append.mp hd with hd | hd
    · have hout : ∀ w ∈ d.members, w ≠ x ∧ w ≠ next := fun w hw =>
        ⟨fun heq => h.queue_not_left hd hw (List.mem_append_left _ (heq ▸ hx)),
          fun heq => h.queue_not_left hd hw (List.mem_append_right _ (heq ▸ hnp))⟩
      exact (h.left d hd).congr (fun w hw => State.goto_pc_of_ne _ _ _ (hout w hw).1)
        (fun w hw => State.setState_state_of_ne _ _ (hout w hw).2 _)
        fun w hw => Function.update_of_ne (hout w hw).2 ..
    · rw [List.mem_singleton.mp hd]
      exact Exiting.detach h hfront hexiting hlast (State.goto_pc_self ..)
        (fun w _ hne => State.goto_pc_of_ne _ _ _ hne)
        (fun w hw => State.setState_state_of_ne _ _ (hfn w hw) _)
        fun w hw => Function.update_of_ne (hfn w hw) ..
  · show s.formed = _
    rw [h.closed]
    simp [View.closed, hphase, View.handed, View.detach]

end P2KVS.WriteThread
