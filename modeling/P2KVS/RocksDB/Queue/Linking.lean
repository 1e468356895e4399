import P2KVS.RocksDB.Queue.Places

/-!
# Linking and leading

The steps up to the closing of a group keep the queue: a thread links its writer, the first one
leads, and the leader walks down the list to create the links that are missing.
-/

namespace P2KVS.WriteThread

open Transition Intrusive

namespace State

variable (s : State) (x : Nat) (p : Pc)

/-- The thread is where it went. -/
@[simp] theorem goto_pc_self : (s.goto x p).pc x = p := Function.update_self ..

/-- The other threads stay where they are. -/
@[simp] theorem goto_pc_of_ne {w : Nat} (h : w ≠ x) : (s.goto x p).pc w = s.pc w :=
  Function.update_of_ne h ..

/-- `SetState` sets the state. -/
@[simp] theorem setState_state_self (new : WriterState) : (s.setState x new).state x = new :=
  Function.update_self ..

/-- `SetState` leaves the other states alone. -/
@[simp] theorem setState_state_of_ne {w : Nat} (h : w ≠ x) (new : WriterState) :
    (s.setState x new).state w = s.state w :=
  Function.update_of_ne h ..

/-- A pointer to a writer on the stack of a running thread can be followed. -/
theorem deref_live {w : Nat} (h : s.live w = true) (k : Nat → State) :
    s.deref (some w) k = k w := by
  simp [deref, h]

/-- An assertion that holds does nothing. -/
theorem check_true {condition : Prop} [Decidable condition] (h : condition) (k : State) :
    s.check condition k = k := by
  simp [check, h]

end State

variable {c : Config} {s t : State} {v : View} {x : Nat}

/-! ### Linking -/

/-- The places before a writer is linked. -/
def Pc.outside : Pc → Prop
  | .idle | .load | .link _ => True
  | _ => False

/-- A thread before `LinkOne` has no linked writer. -/
theorem Sim.not_linked (h : Sim c s v) (hpc : (s.pc x).outside) : x ∉ v.linked := by
  intro hx
  obtain ⟨d, hd, hxd⟩ | hx | hx := View.mem_linked.mp hx
  · obtain (⟨hp, _⟩ | ⟨hp, _⟩) | (hp | ⟨_, hp | hp⟩) | ⟨_, ⟨_, _, hp⟩ | ⟨_, hp⟩⟩ :=
      (h.left d hd).pc hxd <;> simp [hp, Pc.outside] at hpc
  · obtain hp | hp | hp | hp := h.front_pc hx
    · cases hq : s.pc x <;> simp_all [Pc.inFront, Pc.outside]
    all_goals simp [hp, Pc.outside] at hpc
  · obtain ⟨_, ⟨hp, _⟩ | ⟨hp, _⟩⟩ := h.pending x hx <;> simp [hp, Pc.outside] at hpc

/-- A thread that stays unlinked goes on, and may write its own older link. -/
theorem Sim.outside (h : Sim c s v) (hpc : (s.pc x).outside) {p : Pc}
    (hp : p = .load ∨ ∃ writers, p = .link writers) (older : Option Nat) :
    Sim c ((s.storeOlder x older).goto x p) v ∧
      Sim c (s.goto x p) v := by
  have hx := h.not_linked hpc
  obtain ⟨hnewer, hstate, _⟩ := h.unlinked x hx
  constructor
  · refine h.unlinked_step hx ⟨hnewer, hstate, ?_⟩ (fun w hw => State.goto_pc_of_ne _ _ _ hw)
      (fun w hw => Function.update_of_ne hw ..) rfl
    rw [State.goto_pc_self]
    exact .inr hp
  · refine h.unlinked_step hx ⟨hnewer, hstate, ?_⟩ (fun w hw => State.goto_pc_of_ne _ _ _ hw)
      (fun _ _ => rfl) rfl
    rw [State.goto_pc_self]
    exact .inr hp

/-- The exchange succeeds: whatever the writer becomes, it is the newest on the list. -/
theorem Sim.link_as (h : Sim c s v) (hpc : (s.pc x).outside) {v' : View}
    (ht : t = ((s.storeOlder x s.newestWriter).push x).goto x (c.linked x s.newestWriter))
    (hleft : v'.left = v.left) (hgap : v'.gap = v.gap) (hqueue : v'.queue = v.queue ++ [x])
    (hpending : ∀ w ∈ v'.pending, Pending c t w) (hfront : Front c t v'.toLine)
    (hclosed : v'.closed = v.closed) : Sim c t v' := by
  subst ht
  have hx := h.not_linked hpc
  have hxq : x ∉ v.queue := fun hq => hx (List.mem_append_right _ hq)
  have hlinked : v'.linked = v.linked ++ [x] := by
    simp [View.linked, hleft, hqueue]
  have hne : ∀ w ∈ v.linked, w ≠ x := fun w hw heq => hx (heq ▸ hw)
  have hpush := h.linked.push hxq (h.unlinked x hx).1
  rw [← h.newest] at hpush
  refine ⟨h.fault, ?_, ?_, ?_, ?_, ?_, hpending, hfront, ?_, h.closed.trans hclosed.symm, h.fits⟩
  · rw [hlinked, ← h.order]
    rfl
  · rw [hlinked, List.nodup_append]
    refine ⟨h.nodup, List.nodup_singleton x, fun a ha b hb => ?_⟩
    rw [List.mem_singleton.mp hb]
    exact hne a ha
  · show some x = _
    rw [hqueue]
    simp
  · rw [hqueue, hgap]
    exact hpush
  · intro w hw
    rw [hlinked, List.mem_append, List.mem_singleton, not_or] at hw
    exact (h.unlinked w hw.1).congr (State.goto_pc_of_ne _ _ _ hw.2) rfl rfl
  · intro d hd
    rw [hleft] at hd
    have hmem : ∀ w ∈ d.members, w ≠ x := fun w hw =>
      hne w (View.mem_linked.mpr (.inl ⟨d, hd, hw⟩))
    exact (h.left d hd).congr (fun w hw => State.goto_pc_of_ne _ _ _ (hmem w hw)) (fun _ _ => rfl)
      fun w hw => Function.update_of_ne (hmem w hw) ..

/-- The exchange succeeds: the writer leads if the list was empty, and waits otherwise. -/
theorem Sim.link (h : Sim c s v) (hpc : (s.pc x).outside) :
    ∃ v', Sim c (((s.storeOlder x s.newestWriter).push x).goto x
      (c.linked x s.newestWriter)) v' := by
  obtain ⟨_, hstate, _⟩ := h.unlinked x (h.not_linked hpc)
  by_cases hfront : v.front = []
  · have hf := h.front
    unfold Front at hf
    rw [hfront] at hf
    obtain ⟨hpending, hgap, hphase⟩ := hf
    have hnewest : s.newestWriter = none := by
      rw [h.newest]
      simp [Line.queue, hfront, hpending]
    refine ⟨{ v with front := [x] }, h.link_as hpc rfl rfl rfl ?_ ?_ ?_ ?_⟩
    · simp [Line.queue, hfront, hpending]
    · intro w hw
      simp [hpending] at hw
    · unfold Front
      simp only [hphase]
      refine ⟨trivial, ?_⟩
      unfold Leading
      rw [State.goto_pc_self, hnewest]
      cases hb : (c.request x).batch with
      | none =>
          simp only [Config.linked, hb]
          exact ⟨hgap, trivial⟩
      | some b =>
          simp only [Config.linked, hb]
          exact ⟨hgap, hstate, by simp⟩
    · simp [View.closed, hphase]
  · obtain ⟨newest, hnewest⟩ : ∃ w, s.newestWriter = some w := by
      rw [h.newest]
      refine Option.isSome_iff_exists.mp (List.getLast?_isSome.mpr ?_)
      simp [Line.queue, hfront]
    have hne : ∀ w ∈ v.linked, w ≠ x := fun w hw heq => h.not_linked hpc (heq ▸ hw)
    refine ⟨{ v with pending := v.pending ++ [x] }, h.link_as hpc rfl rfl rfl ?_ ?_ ?_ rfl⟩
    · simp [Line.queue]
    · intro w hw
      rcases List.mem_append.mp hw with hw | hw
      · have hwx := hne w (View.mem_linked.mpr (.inr (.inr hw)))
        exact (h.pending w hw).congr (State.goto_pc_of_ne _ _ _ hwx) rfl
      · rw [List.mem_singleton.mp hw]
        refine ⟨hstate, ?_⟩
        rw [State.goto_pc_self, hnewest]
        cases hb : (c.request x).batch with
        | none =>
            simp only [Config.linked, hb]
            exact .inr ⟨trivial, trivial⟩
        | some b =>
            simp only [Config.linked, hb]
            exact .inl ⟨trivial, by simp⟩
    · refine (h.front.append hfront).congr ?_ (fun _ _ => rfl) rfl rfl rfl
      intro w hw
      exact State.goto_pc_of_ne _ _ _ (hne w (View.mem_linked.mpr (.inr (.inl hw))))

/-! ### The leader of the front group -/

/-- A step of the leader before it has closed its group. -/
theorem Sim.lead_step (h : Sim c s v) (hphase : v.phase = .leading) (hfront : v.front = [x])
    {gap : Option Nat}
    (hsame : (t.fault, t.order, t.newestWriter, t.linkOlder, t.formed) =
      (s.fault, s.order, s.newestWriter, s.linkOlder, s.formed))
    (hnewer : ∀ w ∉ v.queue, t.linkNewer w = s.linkNewer w)
    (hpc : ∀ w, w ≠ x → t.pc w = s.pc w) (hstate : ∀ w, w ≠ x → t.state w = s.state w)
    (hlinked : Linked t.linkOlder t.linkNewer v.queue gap)
    (hlead : Leading c t { v.toLine with gap := gap } x) : Sim c t { v with gap := gap } := by
  simp only [Prod.mk.injEq] at hsame
  obtain ⟨hfault, horder, hnewest, holder, hformed⟩ := hsame
  have hne : ∀ w ∉ v.front, w ≠ x := fun w hw heq => hw (by simp [hfront, heq])
  refine h.front_step rfl rfl (fun _ hw => hw) (by rw [hfault, horder, hnewest, holder]) hnewer
    (fun w hw => hpc w (hne w hw)) (fun w hw => hstate w (hne w hw)) hlinked ?_ ?_
    (hformed ▸ h.fits)
  · exact hlead.front hfront hphase
  · rw [hformed, h.closed]
    rfl

/-- The leader goes on without touching the list. -/
theorem Sim.lead_goto (h : Sim c s v) (hphase : v.phase = .leading) (hfront : v.front = [x])
    (hgap : v.gap = none) {p : Pc} (hlead : Leading c (s.goto x p) v.toLine x) :
    Sim c (s.goto x p) v := by
  have hv : v = { v with gap := none } := by rw [← hgap]
  rw [hv]
  refine h.lead_step hphase hfront rfl (fun _ _ => rfl)
    (fun w hw => State.goto_pc_of_ne _ _ _ hw) (fun _ _ => rfl) (hgap ▸ h.linked) ?_
  rw [← hgap]
  exact hlead

/-- A writer that found the list empty makes itself the leader. -/
theorem Sim.selfLead (h : Sim c s v) (hpc : s.pc x = .selfLead) :
    Sim c ((s.setState x .groupLeader).goto x .preprocess) v := by
  obtain ⟨hphase, hfront, hlead⟩ := h.leading_of_pc hpc trivial (h.mem_front hpc trivial)
  simp only [Leading, hpc] at hlead
  obtain ⟨hgap, _, hbatch⟩ := hlead
  have hv : v = { v with gap := none } := by rw [← hgap]
  rw [hv]
  refine h.lead_step hphase hfront rfl (fun _ _ => rfl)
    (fun w hw => State.goto_pc_of_ne _ _ _ hw) (fun w hw => State.setState_state_of_ne _ _ hw _)
    (hgap ▸ h.linked) ?_
  unfold Leading
  rw [State.goto_pc_self]
  exact ⟨rfl, State.setState_state_self .., hbatch⟩

/-- A writer that is about to be linked has its first state. -/
theorem Sim.load_eq (h : Sim c s v) (hpc : s.pc x = .load) :
    s.check (s.state x = .init) (s.goto x (.link s.newestWriter)) =
      s.goto x (.link s.newestWriter) :=
  State.check_true _ (h.unlinked x (h.not_linked (by simp [hpc, Pc.outside]))).2.1 _

/-- A writer that prepares its group is a leader. -/
theorem Sim.preprocess_eq (h : Sim c s v) (hpc : s.pc x = .preprocess) :
    s.check (s.state x = .groupLeader) (s.goto x .enter) = s.goto x .enter := by
  obtain ⟨_, _, hlead⟩ := h.leading_of_pc hpc trivial (h.mem_front hpc trivial)
  simp only [Leading, hpc] at hlead
  exact State.check_true _ hlead.2.1 _

/-- A leader prepares its group. -/
theorem Sim.preprocess (h : Sim c s v) (hpc : s.pc x = .preprocess) :
    Sim c (s.check (s.state x = .groupLeader) (s.goto x .enter)) v := by
  obtain ⟨hphase, hfront, hlead⟩ := h.leading_of_pc hpc trivial (h.mem_front hpc trivial)
  simp only [Leading, hpc] at hlead
  rw [h.preprocess_eq hpc]
  refine h.lead_goto hphase hfront hlead.1 ?_
  unfold Leading
  rw [State.goto_pc_self]
  exact hlead

/-- The newest writer is the last one of the queue. -/
theorem Sim.newest_eq (h : Sim c s v) (hfront : v.front ≠ []) : ∃ newest e,
    s.newestWriter = some newest ∧ v.queue[e]? = some newest ∧ e + 1 = v.queue.length := by
  have hne : v.queue ≠ [] := by simp [Line.queue, hfront]
  refine ⟨v.queue.getLast hne, v.queue.length - 1, ?_, ?_, ?_⟩
  · rw [h.newest, List.getLast?_eq_some_getLast hne]
  · rw [← List.getLast?_eq_getElem?, List.getLast?_eq_some_getLast hne]
  · have := List.length_pos_of_ne_nil hne
    omega

/-- `EnterAsBatchGroupLeader` finds the newest writer at the end of the list. -/
theorem Sim.enter_eq (h : Sim c s v) (hpc : s.pc x = .enter) : ∃ newest e,
    v.queue[e]? = some newest ∧ e + 1 = v.queue.length ∧
      s.enterAsBatchGroupLeader c x = (s.openGroup x).goto x (.createLinks newest newest) := by
  obtain ⟨_, hfront, hlead⟩ := h.leading_of_pc hpc trivial (h.mem_front hpc trivial)
  simp only [Leading, hpc] at hlead
  have hhead : v.queue[0]? = some x := by simp [Line.queue, hfront]
  obtain ⟨newest, e, hnewest, he, hlen⟩ := h.newest_eq (by simp [hfront])
  refine ⟨newest, e, he, hlen, ?_⟩
  rw [State.enterAsBatchGroupLeader, State.check_true _ ⟨h.linked.older_first hhead, hlead.2.2⟩]
  simp only [hnewest]

/-- The leader opens its group. -/
theorem Sim.enter (h : Sim c s v) (hpc : s.pc x = .enter) :
    ∃ v', Sim c (s.enterAsBatchGroupLeader c x) v' := by
  obtain ⟨hphase, hfront, hlead⟩ := h.leading_of_pc hpc trivial (h.mem_front hpc trivial)
  simp only [Leading, hpc] at hlead
  obtain ⟨hgap, hstate, hbatch⟩ := hlead
  have hhead : v.queue[0]? = some x := by simp [Line.queue, hfront]
  obtain ⟨newest, e, he, hlen, hstep⟩ := h.enter_eq hpc
  refine ⟨{ v with gap := some e }, ?_⟩
  rw [hstep]
  refine h.lead_step hphase hfront rfl (fun _ _ => rfl)
    (fun w hw => State.goto_pc_of_ne _ _ _ hw) (fun _ _ => rfl) ?_ ?_
  · have hl := h.linked
    rw [hgap] at hl
    exact hl.beginWalk e
  · have htake : v.queue.take 1 = [x] := by simp [Line.queue, hfront]
    unfold Leading
    rw [State.goto_pc_self]
    refine ⟨hstate, ⟨?_, ?_, ?_, ?_, ?_⟩, e, he, by simpa using hlen.symm ▸ Nat.lt_succ_self e, e,
      Nat.le_refl e, rfl, he, fun i y hei hie => absurd hei (by omega)⟩
    · show v.queue[0]? = some (Function.update s.group x _ x).lastWriter
      rw [Function.update_self, hhead]
    · show (Function.update s.group x _ x).size = 0 + 1
      rw [Function.update_self]
    · show ∀ w ∈ v.queue.take 1, Function.update s.writeGroup x _ w = some x
      rw [htake]
      intro w hw
      rw [List.mem_singleton.mp hw, Function.update_self]
    · show c.byteSize x = bytes c (v.queue.take 1)
      simp [htake, bytes]
    · show Fits c (v.queue.take 1)
      rw [htake]
      intro g rest hgr
      obtain ⟨_, rfl⟩ := List.cons.inj hgr
      exact ⟨by simp, by simp⟩

/-! ### The walk over the links -/

/-- One round of `CreateMissingNewerLinks`: it stores the next link, or all links below the newest
writer exist. -/
theorem Sim.walk (h : Sim c s v) {head e : Nat} (hwalk : Walk s v.toLine head e)
    (next : Nat → Pc) (stop : Pc) :
    (∃ below, s.createMissingNewerLink x head next stop =
        (s.storeNewer below head).goto x (next below) ∧ below ∈ v.queue ∧
      s.linkNewer below = none ∧ ∃ gap,
        Linked s.linkOlder (s.storeNewer below head).linkNewer v.queue gap ∧
        Walk (s.storeNewer below head) { v.toLine with gap := gap } below e) ∨
    s.createMissingNewerLink x head next stop = s.goto x stop ∧
      Linked s.linkOlder s.linkNewer v.queue none ∧
      ∀ i y, i < e → v.queue[i]? = some y → s.linkNewer y ≠ none := by
  obtain ⟨he, i, hie, hgap, hhead, hlinks⟩ := hwalk
  have hl := h.linked
  rw [hgap] at hl
  have hlive := h.live (List.mem_of_getElem? hhead)
  cases i with
  | zero =>
      -- the oldest writer: nothing below it
      right
      refine ⟨?_, hl.endWalk (by simp), fun j y hj hy => hlinks j y (Nat.zero_le j) hj hy⟩
      rw [State.createMissingNewerLink, State.deref_live _ hlive]
      simp only [hl.older_first hhead]
  | succ i =>
      have hlt := (List.getElem?_eq_some_iff.mp hhead).1
      obtain ⟨below, hbelow⟩ : ∃ y, v.queue[i]? = some y :=
        ⟨_, List.getElem?_eq_getElem (by omega)⟩
      have hbl := h.live (List.mem_of_getElem? hbelow)
      have holder := hl.older_next hbelow hhead
      cases hnewer : s.linkNewer below with
      | none =>
          left
          refine ⟨below, ?_, List.mem_of_getElem? hbelow, hnewer, some i, hl.connect hbelow hhead,
            he, i, by omega, rfl, hbelow, ?_⟩
          · rw [State.createMissingNewerLink, State.deref_live _ hlive]
            simp only [holder]
            rw [State.deref_live _ hbl]
            simp only [hnewer]
          · intro j y hij hje hy
            show Function.update s.linkNewer below (some head) y ≠ none
            by_cases hyb : y = below
            · simp [hyb]
            · rw [Function.update_of_ne hyb]
              refine hlinks j y ?_ hje hy
              have hne : j ≠ i := fun heq => hyb (Option.some.inj (hy.symm.trans (heq ▸ hbelow)))
              omega
      | some y =>
          right
          have hsome : s.linkNewer below ≠ none := by simp [hnewer]
          have hy : y = head := by
            have := hl.newer_eq hbelow hsome
            rw [hnewer, hhead] at this
            exact Option.some.inj this
          have hl' : Linked s.linkOlder s.linkNewer v.queue none := by
            refine hl.endWalk ?_
            intro j z hj hz
            obtain rfl : i = j := by omega
            rwa [← Option.some.inj (hbelow.symm.trans hz)]
          refine ⟨?_, hl', ?_⟩
          · rw [State.createMissingNewerLink, State.deref_live _ hlive]
            simp only [holder]
            rw [State.deref_live _ hbl]
            simp only [hnewer]
            exact State.check_true _ hy _
          · intro j z hj hz
            rcases Nat.lt_or_ge i j with hlt' | hge
            · exact hlinks j z (by omega) hj hz
            · exact hl'.newer_of_le hz hbelow hge hsome

/-- A step of the walk that links the writers behind the leader. -/
theorem Sim.createLinks (h : Sim c s v) {head newest : Nat}
    (hpc : s.pc x = .createLinks head newest) :
    ∃ v', Sim c (s.createMissingNewerLink x head (.createLinks · newest)
      (.gather x newest (c.byteSize x))) v' := by
  obtain ⟨hphase, hfront, hlead⟩ := h.leading_of_pc hpc trivial (h.mem_front hpc trivial)
  simp only [Leading, hpc] at hlead
  obtain ⟨hstate, hgathered, e, he, hwalk⟩ := hlead
  obtain ⟨below, hstep, hmem, _, gap, hlinked, hwalk'⟩ | ⟨hstep, hlinked, hlinks⟩ :=
    h.walk (x := x) hwalk (.createLinks · newest) (.gather x newest (c.byteSize x))
  · rw [hstep]
    refine ⟨{ v with gap := gap }, h.lead_step hphase hfront rfl ?_
      (fun w hw => State.goto_pc_of_ne _ _ _ hw) (fun _ _ => rfl) hlinked ?_⟩
    · intro w hw
      have hne : w ≠ below := fun heq => hw (heq ▸ hmem)
      exact Function.update_of_ne hne ..
    · unfold Leading
      rw [State.goto_pc_self]
      obtain ⟨h₁, h₂, h₃, h₄, h₅⟩ := hgathered
      exact ⟨hstate, ⟨h₁, h₂, h₃, h₄, h₅⟩, e, he, hwalk'⟩
  · rw [hstep]
    refine ⟨{ v with gap := none }, h.lead_step hphase hfront rfl (fun _ _ => rfl)
      (fun w hw => State.goto_pc_of_ne _ _ _ hw) (fun _ _ => rfl) hlinked ?_⟩
    unfold Leading
    rw [State.goto_pc_self]
    obtain ⟨h₁, h₂, h₃, h₄, h₅⟩ := hgathered
    refine ⟨rfl, hstate, 0, e, ⟨h₁, h₂, h₃, h₄, h₅⟩, ?_, he, Nat.zero_le e, hlinks⟩
    show v.queue[0]? = some x
    simp [Line.queue, hfront]

end P2KVS.WriteThread
