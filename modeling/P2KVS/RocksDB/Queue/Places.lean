import P2KVS.RocksDB.Queue.View

/-!
# Where the writers stand in the queue

A writer is unlinked, behind the front group, in it, or in a group that has left the list, and its
place in the code tells which. A step in one of these parts leaves the others as they are
(`Sim.unlinked_step`, `Sim.front_step`, `Sim.left_step`).
-/

namespace P2KVS.WriteThread

open Transition Intrusive

section Places

variable {c : Config} {s : State} {v : View} {w x : Nat}

/-- A linked writer has left the list, is in the front group or waits behind it. -/
theorem View.mem_linked : w ∈ v.linked ↔
    (∃ d ∈ v.left, w ∈ d.members) ∨ w ∈ v.front ∨ w ∈ v.pending := by
  simp [View.linked, Line.queue]

/-- A writer that has left is not on the list. -/
theorem Sim.queue_not_left (h : Sim c s v) {d : Detached} (hd : d ∈ v.left) (hw : w ∈ d.members) :
    w ∉ v.queue := by
  have hnodup := h.nodup
  rw [View.linked, List.nodup_append] at hnodup
  exact fun hq => hnodup.2.2 w (List.mem_flatMap.mpr ⟨d, hd, hw⟩) w hq rfl

/-- A member of the front group does not wait behind it. -/
theorem Sim.front_not_pending (h : Sim c s v) (hw : w ∈ v.front) : w ∉ v.pending := by
  have hnodup := h.linked.nodup
  rw [Line.queue, List.nodup_append] at hnodup
  exact fun hp => hnodup.2.2 w hw w hp rfl

/-- The front group has no writer twice. -/
theorem Sim.front_nodup (h : Sim c s v) : v.front.Nodup := by
  have hnodup := h.linked.nodup
  rw [Line.queue, List.nodup_append] at hnodup
  exact hnodup.1

/-- Different groups that have left the list have different members. -/
theorem Sim.left_disjoint (h : Sim c s v) {l₁ l₂ : List Detached} {d e : Detached}
    (hleft : v.left = l₁ ++ d :: l₂) (he : e ∈ l₁ ++ l₂) (hw : w ∈ e.members) : w ∉ d.members := by
  have hnodup := h.nodup
  rw [View.linked, hleft, List.nodup_append] at hnodup
  have hflat := hnodup.1
  rw [List.flatMap_append, List.flatMap_cons, List.nodup_append] at hflat
  obtain ⟨_, htail, hdisj⟩ := hflat
  rw [List.nodup_append] at htail
  intro hd
  rcases List.mem_append.mp he with he | he
  · exact hdisj w (List.mem_flatMap.mpr ⟨e, he, hw⟩) w (List.mem_append_left _ hd) rfl
  · exact htail.2.2 w hd w (List.mem_flatMap.mpr ⟨e, he, hw⟩) rfl

/-- The members of a group that has left the list wait for their release, are released, or release
the others. -/
theorem Detached.Ok.pc {d : Detached} (h : d.Ok s) (hx : x ∈ d.members) :
    Held s x ∨ Released s x ∨ d.executor = x ∧
      ((∃ g w, s.pc x = .drain g w) ∨ ∃ g, s.pc x = .release g) := by
  obtain ⟨_, g, hg, h⟩ := h
  by_cases hexec : d.executor = x
  · cases hd : d.leaving with
    | draining rest =>
        rw [hd] at h
        obtain ⟨w, _, _, hpc⟩ := h.cur
        exact .inr (.inr ⟨hexec, .inl ⟨g, w, hexec ▸ hpc⟩⟩)
    | releasing =>
        rw [hd] at h
        exact .inr (.inr ⟨hexec, .inr ⟨g, hexec ▸ h.pc⟩⟩)
    | finished =>
        rw [hd] at h
        exact .inr (.inl (h x hx))
  · have hne : x ≠ d.executor := fun heq => hexec heq.symm
    cases hd : d.leaving with
    | draining rest =>
        rw [hd] at h
        obtain ⟨i, hi⟩ := List.mem_iff_getElem?.mp hx
        rcases Nat.lt_or_ge i rest with hlt | hge
        · exact .inl (h.held i x hlt hi hne)
        · exact .inr (.inl (h.released i x hge hi hne))
    | releasing =>
        rw [hd] at h
        by_cases hxg : x = g
        · exact .inl (hxg ▸ h.leader)
        · exact .inr (.inl (h.released x hx hxg hne))
    | finished =>
        rw [hd] at h
        exact .inr (.inl (h x hx))

/-- The places inside the front group that its members reach nowhere else. -/
def Pc.inFront : Pc → Prop
  | .idle | .load | .link _ | .await | .awaitAlone | .awaitCompleted | .drain .. | .release _
  | .returned => False
  | _ => True

/-- The places inside the front group. -/
theorem Sim.mem_front (h : Sim c s v) {p : Pc} (hp : s.pc x = p) (hx : p.inFront) :
    x ∈ v.front := by
  subst hp
  have hlinked : x ∈ v.linked := by
    by_contra hnot
    obtain ⟨_, _, hpc | hpc | ⟨_, hpc⟩⟩ := h.unlinked x hnot <;> simp [hpc, Pc.inFront] at hx
  obtain ⟨d, hd, hxd⟩ | hfront | hpending := View.mem_linked.mp hlinked
  · obtain hheld | hreleased | ⟨_, ⟨_, _, hpc⟩ | ⟨_, hpc⟩⟩ := (h.left d hd).pc hxd
    · obtain ⟨hpc, _⟩ | ⟨hpc, _⟩ := hheld <;> simp [hpc, Pc.inFront] at hx
    · obtain hpc | ⟨_, hpc | hpc⟩ := hreleased <;> simp [hpc, Pc.inFront] at hx
    · simp [hpc, Pc.inFront] at hx
    · simp [hpc, Pc.inFront] at hx
  · exact hfront
  · obtain ⟨_, ⟨hpc, _⟩ | ⟨hpc, _⟩⟩ := h.pending x hpending <;> simp [hpc, Pc.inFront] at hx

/-- The front group has a first member when it has any. -/
theorem Sim.front_eq (_h : Sim c s v) (hx : x ∈ v.front) : ∃ g rest, v.front = g :: rest := by
  cases hfront : v.front with
  | nil => simp [hfront] at hx
  | cons g rest => exact ⟨g, rest, rfl⟩

/-- The places of a leader that has not closed its group. -/
def Pc.leading : Pc → Prop
  | .selfLead | .awaitAlone | .alone | .preprocess | .enter | .createLinks .. | .gather .. => True
  | _ => False

/-- The places of a leader before it closes its group. -/
theorem Leading.pc {v : Line} {g : Nat} (h : Leading c s v g) :
    s.pc g = .await ∨ (s.pc g).leading := by
  unfold Leading at h
  cases hp : s.pc g <;> simp_all [Pc.leading]

/-- The places of the exit are none of those before it. -/
theorem Exit.pc {v : Line} {g : Nat} (h : Exit s v g x) : (s.pc x).inFront ∧ ¬ (s.pc x).leading ∧
    s.pc x ≠ .apply ∧ s.pc x ≠ .insertGroup ∧ s.pc x ≠ .insert ∧ s.pc x ≠ .report ∧
    s.pc x ≠ .complete ∧ ∀ w, s.pc x ≠ .launch w := by
  unfold Exit at h
  cases hp : s.pc x <;> simp_all [Pc.leading, Pc.inFront]

/-- Where the members of the front group stand, phase by phase. -/
theorem Sim.front_cases (h : Sim c s v) (hx : x ∈ v.front) : ∃ g rest, v.front = g :: rest ∧
    (v.phase = .leading ∧ rest = [] ∧ x = g ∧ Leading c s v.toLine g ∨
    v.phase = .serial ∧ Serial s v.toLine g ∧ (x = g ∨ Waiting s x) ∨
    (∃ told, v.phase = .launched told ∧ Launched s v.toLine g told ∧
      ((∃ w, x = g ∧ s.pc x = .launch w) ∨ s.pc x = .await ∨ Working (s.pc x))) ∨
    ∃ y, v.phase = .exiting y ∧ Exiting s v.toLine g y ∧ (x = y ∨ Held s x)) := by
  obtain ⟨g, rest, hfront⟩ := h.front_eq hx
  refine ⟨g, rest, hfront, ?_⟩
  have hf := h.front
  unfold Front at hf
  rw [hfront] at hf
  simp only at hf
  cases hphase : v.phase with
  | leading =>
      rw [hphase] at hf
      obtain ⟨hrest, hlead⟩ := hf
      refine .inl ⟨rfl, hrest, ?_, hlead⟩
      simpa [hfront, hrest] using hx
  | serial =>
      rw [hphase] at hf
      refine .inr (.inl ⟨rfl, hf, ?_⟩)
      by_cases hxg : x = g
      · exact .inl hxg
      · exact .inr (hf.waiting x hx hxg)
  | launched told =>
      rw [hphase] at hf
      refine .inr (.inr (.inl ⟨told, rfl, hf, ?_⟩))
      by_cases hxg : x = g
      · obtain ⟨w, _, hpc⟩ | ⟨_, hwork⟩ := hf.leader
        · exact .inl ⟨w, hxg, hxg ▸ hpc⟩
        · exact .inr (.inr (hxg ▸ hwork))
      · obtain ⟨i, hi⟩ := List.mem_iff_getElem?.mp hx
        rcases Nat.lt_or_ge i told with hlt | hge
        · exact .inr (hf.working i x hlt hi hxg)
        · exact .inr (.inl (hf.waiting i x hge hi hxg).1)
  | exiting y =>
      rw [hphase] at hf
      refine .inr (.inr (.inr ⟨y, rfl, hf, ?_⟩))
      by_cases hxy : x = y
      · exact .inl hxy
      · exact .inr (hf.held x hx hxy)

/-- A member of the front group is at a place of its own, or waits. -/
theorem Sim.front_pc (h : Sim c s v) (hx : x ∈ v.front) : (s.pc x).inFront ∨
    s.pc x = .await ∨ s.pc x = .awaitAlone ∨ s.pc x = .awaitCompleted := by
  obtain ⟨g, rest, _, ⟨_, _, rfl, hlead⟩ | ⟨_, hserial, rfl | hwait⟩ |
    ⟨_, _, _, ⟨_, _, hp⟩ | hp | hp⟩ | ⟨y, _, he, rfl | hheld⟩⟩ := h.front_cases hx
  · obtain hp | hp := hlead.pc
    · exact .inr (.inl hp)
    · cases hq : s.pc x <;> simp_all [Pc.leading, Pc.inFront]
  · obtain hp | hp := hserial.pc <;> simp [hp, Pc.inFront]
  · exact .inr (.inl hwait.1)
  · simp [hp, Pc.inFront]
  · exact .inr (.inl hp)
  · obtain hp | hp | hp | hp := hp <;> simp [hp, Pc.inFront]
  · exact .inl he.exit.pc.1
  · obtain ⟨hp, _⟩ | ⟨hp, _⟩ := hheld <;> simp [hp]

/-- Who leads without having closed the group is alone in front. -/
theorem Sim.leading_of_pc (h : Sim c s v) {p : Pc} (hp : s.pc x = p) (hpc : p.leading)
    (hx : x ∈ v.front) : v.phase = .leading ∧ v.front = [x] ∧ Leading c s v.toLine x := by
  subst hp
  obtain ⟨g, rest, hfront, ⟨hphase, rfl, rfl, hlead⟩ | ⟨_, hserial, rfl | hwait⟩ |
    ⟨_, _, hl, ⟨w, rfl, hw⟩ | hw | hw⟩ | ⟨y, _, he, rfl | hheld⟩⟩ := h.front_cases hx
  · exact ⟨hphase, hfront, hlead⟩
  · obtain hp | hp := hserial.pc <;> simp [hp, Pc.leading] at hpc
  · simp [hwait.1, Pc.leading] at hpc
  · simp [hw, Pc.leading] at hpc
  · simp [hw, Pc.leading] at hpc
  · obtain hp | hp | hp | hp := hw <;> simp [hp, Pc.leading] at hpc
  · exact absurd hpc he.exit.pc.2.1
  · obtain ⟨hp, _⟩ | ⟨hp, _⟩ := hheld <;> simp [hp, Pc.leading] at hpc

/-- Who applies a group or inserts for it leads the front group. -/
theorem Sim.serial_of_pc (h : Sim c s v) (hpc : s.pc x = .apply ∨ s.pc x = .insertGroup) :
    v.phase = .serial ∧ (∃ rest, v.front = x :: rest) ∧ Serial s v.toLine x := by
  have hx : x ∈ v.front := h.mem_front rfl (by obtain hp | hp := hpc <;> simp [hp, Pc.inFront])
  obtain ⟨g, rest, hfront, ⟨hphase, rfl, rfl, hlead⟩ | ⟨hphase, hserial, rfl | hwait⟩ |
    ⟨_, _, hl, ⟨w, rfl, hw⟩ | hw | hw⟩ | ⟨y, _, he, rfl | hheld⟩⟩ := h.front_cases hx
  · obtain hp | hp := hlead.pc <;> obtain hq | hq := hpc <;> simp [hq, Pc.leading] at hp
  · exact ⟨hphase, ⟨rest, hfront⟩, hserial⟩
  · obtain hq | hq := hpc <;> simp [hq, Waiting] at hwait
  · obtain hq | hq := hpc <;> simp [hq] at hw
  · obtain hq | hq := hpc <;> simp [hq] at hw
  · obtain hq | hq := hpc <;> simp [hq, Working] at hw
  · obtain ⟨_, _, h₁, h₂, _⟩ := he.exit.pc
    exact (hpc.elim h₁ h₂).elim
  · obtain ⟨hp, _⟩ | ⟨hp, _⟩ := hheld <;> obtain hq | hq := hpc <;> simp [hq] at hp

/-- The places of a member that inserts, before it has reported. -/
def Pc.launching : Pc → Prop
  | .launch _ | .insert | .report | .complete => True
  | _ => False

/-- Who launches or has been launched belongs to a parallel group in front. -/
theorem Sim.launched_of_pc (h : Sim c s v) {p : Pc} (hp : s.pc x = p) (hpc : p.launching) :
    ∃ g rest told, v.front = g :: rest ∧ v.phase = .launched told ∧ x ∈ v.front ∧
      Launched s v.toLine g told := by
  subst hp
  have hx : x ∈ v.front := h.mem_front rfl (by
    cases hp : s.pc x <;> simp_all [Pc.launching, Pc.inFront])
  obtain ⟨g, rest, hfront, ⟨hphase, rfl, rfl, hlead⟩ | ⟨hphase, hserial, rfl | hwait⟩ |
    ⟨told, hphase, hl, _⟩ | ⟨y, _, he, rfl | hheld⟩⟩ := h.front_cases hx
  · obtain hp | hp := hlead.pc
    · simp [hp, Pc.launching] at hpc
    · cases hq : s.pc x <;> simp_all [Pc.launching, Pc.leading]
  · obtain hp | hp := hserial.pc <;> simp [hp, Pc.launching] at hpc
  · simp [hwait.1, Pc.launching] at hpc
  · exact ⟨g, rest, told, hfront, hphase, hx, hl⟩
  · have hexit := he.exit.pc
    cases hq : s.pc x <;> simp_all [Pc.launching]
  · obtain ⟨hp, _⟩ | ⟨hp, _⟩ := hheld <;> simp [hp, Pc.launching] at hpc

/-- The places of the member that performs the exit. -/
def Pc.exiting : Pc → Prop
  | .publish | .exitLoad | .exitCas .. | .exitLinks .. | .handoff .. => True
  | _ => False

/-- Who exits belongs to the front group. -/
theorem Sim.exiting_of_pc (h : Sim c s v) {p : Pc} (hp : s.pc x = p) (hpc : p.exiting) :
    ∃ g rest, v.front = g :: rest ∧ v.phase = .exiting x ∧ Exiting s v.toLine g x := by
  subst hp
  have hx : x ∈ v.front := h.mem_front rfl (by
    cases hp : s.pc x <;> simp_all [Pc.exiting, Pc.inFront])
  obtain ⟨g, rest, hfront, ⟨hphase, rfl, rfl, hlead⟩ | ⟨hphase, hserial, rfl | hwait⟩ |
    ⟨told, _, hl, ⟨w, rfl, hw⟩ | hw | hw⟩ | ⟨y, hphase, he, rfl | hheld⟩⟩ := h.front_cases hx
  · obtain hp | hp := hlead.pc
    · simp [hp, Pc.exiting] at hpc
    · cases hq : s.pc x <;> simp_all [Pc.exiting, Pc.leading]
  · obtain hp | hp := hserial.pc <;> simp [hp, Pc.exiting] at hpc
  · simp [hwait.1, Pc.exiting] at hpc
  · simp [hw, Pc.exiting] at hpc
  · simp [hw, Pc.exiting] at hpc
  · obtain hp | hp | hp | hp := hw <;> simp [hp, Pc.exiting] at hpc
  · exact ⟨g, rest, hfront, hphase, he⟩
  · obtain ⟨hp, _⟩ | ⟨hp, _⟩ := hheld <;> simp [hp, Pc.exiting] at hpc

end Places

/-! ### Steps in one place -/

section Steps

variable {c : Config} {s s' : State} {v v' : View} {w x : Nat}

/-- A thread between its start and its return has a writer. -/
theorem State.live_of_pc {p : Pc} (h : s.pc w = p) (hidle : p ≠ .idle) (hret : p ≠ .returned) :
    s.live w = true := by
  simp [State.live, h, hidle, hret]

/-- A member that waits has a writer. -/
theorem Held.live (h : Held s w) : s.live w = true := by
  obtain ⟨hpc, _⟩ | ⟨hpc, _⟩ := h <;> exact State.live_of_pc hpc (by simp) (by simp)

/-- A thread in the front group has a writer. -/
theorem Pc.inFront.live (h : (s.pc w).inFront) : s.live w = true :=
  State.live_of_pc rfl (fun heq => by simp [heq, Pc.inFront] at h)
    (fun heq => by simp [heq, Pc.inFront] at h)

/-- The writers on the list exist. -/
theorem Sim.live (h : Sim c s v) (hw : w ∈ v.queue) : s.live w = true := by
  rcases List.mem_append.mp hw with hw | hw
  · obtain hp | hp | hp | hp := h.front_pc hw
    · exact hp.live
    all_goals exact State.live_of_pc hp (by simp) (by simp)
  · obtain ⟨_, ⟨hp, _⟩ | ⟨hp, _⟩⟩ := h.pending w hw <;>
      exact State.live_of_pc hp (by simp) (by simp)

/-- A step of a thread whose writer is not linked. -/
theorem Sim.unlinked_step (h : Sim c s v) (hx : x ∉ v.linked) (hnew : Unlinked s' x)
    (hpc : ∀ w, w ≠ x → s'.pc w = s.pc w) (holder : ∀ w, w ≠ x → s'.linkOlder w = s.linkOlder w)
    (hrest : (s'.fault, s'.order, s'.newestWriter, s'.linkNewer, s'.state, s'.writeGroup, s'.group,
      s'.formed) = (s.fault, s.order, s.newestWriter, s.linkNewer, s.state, s.writeGroup, s.group,
      s.formed)) : Sim c s' v := by
  simp only [Prod.mk.injEq] at hrest
  obtain ⟨hfault, horder, hnewest, hnewer, hstate, hwrite, hgroup, hformed⟩ := hrest
  have hne : ∀ w ∈ v.linked, w ≠ x := fun w hw heq => hx (heq ▸ hw)
  have hqueue : ∀ w ∈ v.queue, w ≠ x := fun w hw => hne w (List.mem_append_right _ hw)
  refine ⟨hfault ▸ h.fault, horder ▸ h.order, h.nodup, hnewest ▸ h.newest, ?_, ?_, ?_, ?_, ?_,
    hformed ▸ h.closed, hformed ▸ h.fits⟩
  · exact h.linked.congr (fun w hw => holder w (hqueue w hw)) fun w _ => by rw [hnewer]
  · intro w hw
    by_cases hwx : w = x
    · exact hwx ▸ hnew
    · exact (h.unlinked w hw).congr (hpc w hwx) (by rw [hstate]) (by rw [hnewer])
  · intro w hw
    exact (h.pending w hw).congr (hpc w (hqueue w (List.mem_append_right _ hw))) (by rw [hstate])
  · exact h.front.congr (fun w hw => hpc w (hqueue w (List.mem_append_left _ hw)))
      (fun w _ => by rw [hstate]) hnewer hgroup hwrite
  · intro d hd
    have hmem : ∀ w ∈ d.members, w ≠ x := fun w hw =>
      hne w (View.mem_linked.mpr (.inl ⟨d, hd, hw⟩))
    exact (h.left d hd).congr (fun w hw => hpc w (hmem w hw)) (fun w _ => by rw [hstate])
      fun w hw => holder w (hmem w hw)

/-- A step inside the front group: what lies outside it keeps its place and state. The step may
close the group, so the view may be split anew. -/
theorem Sim.front_step (h : Sim c s v) (hleft : v'.left = v.left) (hqueue : v'.queue = v.queue)
    (hpending : ∀ w ∈ v'.pending, w ∈ v.pending)
    (hsame : (s'.fault, s'.order, s'.newestWriter, s'.linkOlder) =
      (s.fault, s.order, s.newestWriter, s.linkOlder))
    (hnewer : ∀ w ∉ v.queue, s'.linkNewer w = s.linkNewer w)
    (hpc : ∀ w ∉ v.front, s'.pc w = s.pc w) (hstate : ∀ w ∉ v.front, s'.state w = s.state w)
    (hlinked : Linked s'.linkOlder s'.linkNewer v.queue v'.gap) (hfront : Front c s' v'.toLine)
    (hclosed : s'.formed = v'.closed) (hfits : ∀ group ∈ s'.formed, Fits c group) :
    Sim c s' v' := by
  simp only [Prod.mk.injEq] at hsame
  obtain ⟨hfault, horder, hnewest, holder⟩ := hsame
  have hlink : v'.linked = v.linked := by rw [View.linked, hleft, hqueue, View.linked]
  have hout : ∀ w ∉ v.queue, w ∉ v.front := fun w hw hf => hw (List.mem_append_left _ hf)
  refine ⟨hfault ▸ h.fault, ?_, hlink ▸ h.nodup, ?_, hqueue ▸ hlinked, ?_, ?_, hfront, ?_, hclosed,
    hfits⟩
  · rw [horder, h.order, hlink]
  · rw [hnewest, h.newest, hqueue]
  · intro w hw
    rw [hlink] at hw
    have hwq : w ∉ v.queue := fun hq => hw (List.mem_append_right _ hq)
    exact (h.unlinked w hw).congr (hpc w (hout w hwq)) (hstate w (hout w hwq)) (hnewer w hwq)
  · intro w hw
    have hw' := hpending w hw
    have hnot : w ∉ v.front := fun hf => h.front_not_pending hf hw'
    exact (h.pending w hw').congr (hpc w hnot) (hstate w hnot)
  · intro d hd
    rw [hleft] at hd
    have hnot : ∀ w ∈ d.members, w ∉ v.front := fun w hw => hout w (h.queue_not_left hd hw)
    exact (h.left d hd).congr (fun w hw => hpc w (hnot w hw)) (fun w hw => hstate w (hnot w hw))
      fun w _ => by rw [holder]

/-- A step inside one of the groups that have left the list. -/
theorem Sim.left_step (h : Sim c s v) {l₁ l₂ : List Detached} {d : Detached}
    (hleft : v.left = l₁ ++ d :: l₂) (d' : Detached) (hmembers : d'.members = d.members)
      (hok : d'.Ok s')
    (hsame : (s'.fault, s'.order, s'.newestWriter, s'.linkOlder, s'.linkNewer, s'.writeGroup,
      s'.group, s'.formed) = (s.fault, s.order, s.newestWriter, s.linkOlder, s.linkNewer,
      s.writeGroup, s.group, s.formed))
    (hpc : ∀ w ∉ d.members, s'.pc w = s.pc w) (hstate : ∀ w ∉ d.members, s'.state w = s.state w) :
    Sim c s' { v with left := l₁ ++ d' :: l₂ } := by
  simp only [Prod.mk.injEq] at hsame
  obtain ⟨hfault, horder, hnewest, holder, hnewer, hwrite, hgroup, hformed⟩ := hsame
  have hd : d ∈ v.left := by simp [hleft]
  have hlinked : View.linked { v with left := l₁ ++ d' :: l₂ } = v.linked := by
    simp [View.linked, Line.queue, hleft, hmembers]
  have hout : ∀ w ∈ v.queue, w ∉ d.members := fun w hw hm => h.queue_not_left hd hm hw
  refine ⟨hfault ▸ h.fault, ?_, hlinked ▸ h.nodup, hnewest ▸ h.newest, ?_, ?_, ?_, ?_, ?_, ?_,
    hformed ▸ h.fits⟩
  · rw [horder, h.order, hlinked]
  · rw [holder, hnewer]
    exact h.linked
  · intro w hw
    rw [hlinked] at hw
    have hnot : w ∉ d.members := fun hm => hw (View.mem_linked.mpr (.inl ⟨d, hd, hm⟩))
    exact (h.unlinked w hw).congr (hpc w hnot) (hstate w hnot) (by rw [hnewer])
  · intro w hw
    have hnot := hout w (List.mem_append_right _ hw)
    exact (h.pending w hw).congr (hpc w hnot) (hstate w hnot)
  · have hnot : ∀ w ∈ v.front, w ∉ d.members := fun w hw => hout w (List.mem_append_left _ hw)
    exact h.front.congr (fun w hw => hpc w (hnot w hw)) (fun w hw => hstate w (hnot w hw)) hnewer
      hgroup hwrite
  · intro e he
    have hcases : e = d' ∨ e ∈ l₁ ++ l₂ := by
      simp only [List.mem_append, List.mem_cons] at he ⊢
      tauto
    obtain rfl | he := hcases
    · exact hok
    · have hev : e ∈ v.left := by
        rw [hleft]
        simp only [List.mem_append, List.mem_cons] at he ⊢
        tauto
      have hnot : ∀ w ∈ e.members, w ∉ d.members := fun w hw => h.left_disjoint hleft he hw
      exact (h.left e hev).congr (fun w hw => hpc w (hnot w hw)) (fun w hw => hstate w (hnot w hw))
        fun w _ => by rw [holder]
  · rw [hformed, h.closed, View.closed, View.closed, hleft]
    simp [hmembers]

/-- A writer that joins behind the front group does not disturb it. -/
theorem Front.append {v : Line} (h : Front c s v) (hne : v.front ≠ []) :
    Front c s { v with pending := v.pending ++ [x] } := by
  have hqueue : Line.queue { v with pending := v.pending ++ [x] } = v.queue ++ [x] := by
    simp [Line.queue]
  have hget : ∀ (i : Nat) y, v.queue[i]? = some y →
      (Line.queue { v with pending := v.pending ++ [x] })[i]? = some y := by
    intro i y hy
    rw [hqueue, List.getElem?_append_left (List.getElem?_eq_some_iff.mp hy).1]
    exact hy
  have hback : ∀ i y, i < v.queue.length →
      (Line.queue { v with pending := v.pending ++ [x] })[i]? = some y → v.queue[i]? = some y := by
    intro i y hi hy
    rwa [hqueue, List.getElem?_append_left hi] at hy
  have hwalk : ∀ head e, Walk s v head e →
      Walk s { v with pending := v.pending ++ [x] } head e := by
    rintro head e ⟨he, i, hi, hgap, hhead, hlinks⟩
    refine ⟨by rw [hqueue]; simp; omega, i, hi, hgap, hget i head hhead, ?_⟩
    exact fun j y hij hje hy => hlinks j y hij hje (hback j y (by omega) hy)
  have hgathered : ∀ g k size, Gathered c s v g k size →
      Gathered c s { v with pending := v.pending ++ [x] } g k size := by
    rintro g k size ⟨h₁, h₂, h₃, h₄, h₅⟩
    have hk : k + 1 ≤ v.queue.length := (List.getElem?_eq_some_iff.mp h₁).1
    have htake : (Line.queue { v with pending := v.pending ++ [x] }).take (k + 1) =
        v.queue.take (k + 1) := by rw [hqueue, List.take_append_of_le_length hk]
    exact ⟨hget k _ h₁, h₂, by rwa [htake], by rwa [htake], by rwa [htake]⟩
  rcases v with ⟨_ | ⟨g, rest⟩, phase, pending, gap⟩
  · exact absurd rfl hne
  cases phase with
  | leading =>
      obtain ⟨hrest, hlead⟩ := h
      refine ⟨hrest, ?_⟩
      unfold Leading at hlead ⊢
      cases hp : s.pc g <;> simp only [hp] at hlead ⊢ <;>
        first
        | exact hlead
        | skip
      · obtain ⟨h₁, h₂, e, h₃, h₄⟩ := hlead
        exact ⟨h₁, hgathered _ _ _ h₂, e, hget e _ h₃, hwalk _ _ h₄⟩
      · obtain ⟨h₁, h₂, k, e, h₃, h₄, h₅, h₆, h₇⟩ := hlead
        have he := (List.getElem?_eq_some_iff.mp h₅).1
        exact ⟨h₁, h₂, k, e, hgathered _ _ _ h₃, hget k _ h₄, hget e _ h₅, h₆,
          fun i y hi hy => h₇ i y hi (hback i y (by omega) hy)⟩
  | serial =>
      obtain ⟨h₁, ⟨h₂, h₃, h₄, h₅⟩, h₆, h₇, h₈⟩ := h
      exact ⟨h₁, ⟨h₂, h₃, h₄, h₅⟩, h₆, h₇, h₈⟩
  | launched told =>
      obtain ⟨h₁, ⟨h₂, h₃, h₄, h₅⟩, h₆, h₇, h₈, h₉, h₁₀, h₁₁, h₁₂⟩ := h
      exact ⟨h₁, ⟨h₂, h₃, h₄, h₅⟩, h₆, h₇, h₈, h₉, h₁₀, h₁₁, h₁₂⟩
  | exiting y =>
      obtain ⟨h₁, h₂, h₃, h₄⟩ := h
      refine ⟨h₁, h₂, h₃, ?_⟩
      unfold Exit at h₄ ⊢
      cases hp : s.pc y <;> simp only [hp] at h₄ ⊢ <;>
        first
        | exact h₄
        | exact ⟨h₄.1, ⟨h₄.2.1, h₄.2.2, h₄.2.3, h₄.2.4⟩⟩
        | skip
      · obtain ⟨h₅, h₆, e, h₇, h₈⟩ := h₄
        exact ⟨h₅, h₆, e, h₇, hwalk _ _ h₈⟩
      · obtain ⟨h₅, h₆, h₇, h₈, h₉⟩ := h₄
        exact ⟨h₅, h₆, h₇, by simp, h₉⟩

end Steps

end P2KVS.WriteThread
