import P2KVS.RocksDB.Queue.Exit

/-!
# The members of a group are released

Behind the hand-over the executor releases the followers from the newest to the oldest. A follower
that executes the exit releases the leader last. Meanwhile the next leader may be at work.
-/

namespace P2KVS.WriteThread

open Transition Intrusive

variable {c : Config} {s t : State} {v : View} {x : Nat}

/-- A thread at one of these places belongs to a group that has left the list. -/
theorem Sim.left_of_pc (h : Sim c s v)
    (hpc : (∃ g w, s.pc x = .drain g w) ∨ ∃ g, s.pc x = .release g) :
    ∃ l₁ d l₂, v.left = l₁ ++ d :: l₂ ∧ d.Ok s ∧ d.executor = x := by
  have hnf : x ∉ v.front := by
    intro hx
    obtain hp | hp | hp | hp := h.front_pc hx <;>
      obtain ⟨_, _, hq⟩ | ⟨_, hq⟩ := hpc <;> simp [hq, Pc.inFront] at hp
  have hlinked : x ∈ v.linked := by
    by_contra hnot
    obtain ⟨_, _, hp | hp | ⟨_, hp⟩⟩ := h.unlinked x hnot <;>
      obtain ⟨_, _, hq⟩ | ⟨_, hq⟩ := hpc <;> simp [hq] at hp
  obtain ⟨d, hd, hxd⟩ | hx | hx := View.mem_linked.mp hlinked
  · obtain ⟨l₁, l₂, hleft⟩ := List.append_of_mem hd
    refine ⟨l₁, d, l₂, hleft, h.left d hd, ?_⟩
    obtain (⟨hp, _⟩ | ⟨hp, _⟩) | (hp | ⟨_, hp | hp⟩) | ⟨hexec, _⟩ := (h.left d hd).pc hxd
    iterate 5 (obtain ⟨_, _, hq⟩ | ⟨_, hq⟩ := hpc <;> simp [hq] at hp)
    exact hexec
  · exact absurd hx hnf
  · obtain ⟨_, ⟨hp, _⟩ | ⟨hp, _⟩⟩ := h.pending x hx <;>
      obtain ⟨_, _, hq⟩ | ⟨_, hq⟩ := hpc <;> simp [hq] at hp

/-- A group that has left has no writer twice. -/
theorem Sim.members_nodup (h : Sim c s v) {d : Detached} (hd : d ∈ v.left) : d.members.Nodup := by
  have hnodup := h.nodup
  rw [View.linked, List.nodup_append] at hnodup
  exact (List.nodup_flatMap.mp hnodup.1).1 d hd

/-- The thread that releases the members of a group executes one of the groups that have left. -/
theorem Sim.draining_of_pc (h : Sim c s v) {leader last : Nat} (hpc : s.pc x = .drain leader last) :
    ∃ l₁ d l₂ rest, v.left = l₁ ++ d :: l₂ ∧ d.executor = x ∧ x ∈ d.members ∧
      d.members[0]? = some leader ∧ d.members[rest - 1]? = some last ∧ 0 < rest ∧
      Draining s d leader rest := by
  obtain ⟨l₁, d, l₂, hleft, ⟨hx, g, hg, hok⟩, rfl⟩ := h.left_of_pc (.inl ⟨_, _, hpc⟩)
  cases hd : d.leaving with
  | releasing =>
      rw [hd] at hok
      have hp := hok.pc
      simp [hpc] at hp
  | finished =>
      rw [hd] at hok
      obtain hp | ⟨_, hp | hp⟩ := hok _ hx <;> simp [hpc] at hp
  | draining rest =>
      rw [hd] at hok
      obtain ⟨w, hpos, hw, hp⟩ := hok.cur
      obtain ⟨rfl, rfl⟩ : leader = g ∧ last = w := by simpa [hpc] using hp
      exact ⟨l₁, d, l₂, rest, hleft, rfl, hx, by rwa [← List.head?_eq_getElem?], hw, hpos, hok⟩

/-- One round of the loop that releases the followers: the follower waits in one of the two places,
or is the executor itself. -/
theorem Draining.drain_eq {d : Detached} {leader last rest : Nat} (hok : Draining s d leader rest)
    (hpc : s.pc d.executor = .drain leader last) (hg : d.members[0]? = some leader)
    (hw : d.members[rest - 1]? = some last) (hpos : 0 < rest) (hne : last ≠ leader) :
    2 ≤ rest ∧ ∃ older, d.members[rest - 2]? = some older ∧
      (s.state last = .init ∨ s.state last = .parallelMemtableWriter) ∧
      s.drain d.executor leader last =
        (s.setState last .completed).goto d.executor (.drain leader older) := by
  have hrest : 2 ≤ rest := by
    by_contra hlt
    obtain rfl : rest = 1 := by omega
    exact hne (Option.some.inj (hw.symm.trans hg))
  have hlen := (List.getElem?_eq_some_iff.mp hw).1
  obtain ⟨older, hold⟩ : ∃ y, d.members[rest - 2]? = some y :=
    ⟨_, List.getElem?_eq_getElem (by omega)⟩
  have hidx : rest - 2 + 1 = rest - 1 := by omega
  have hlink : s.linkOlder last = some older :=
    hok.older (rest - 2) older last (by omega) hold (by rw [hidx]; exact hw)
  have hplace : s.live last = true ∧
      (s.state last = .init ∨ s.state last = .parallelMemtableWriter) := by
    by_cases hlx : last = d.executor
    · rw [hlx]
      refine ⟨State.live_of_pc hpc (by simp) (by simp), .inr ?_⟩
      exact hok.follower (fun heq => hne (hlx.trans heq)) (rest - 1) (by omega) (hlx ▸ hw)
    · have hheld := hok.held (rest - 1) last (by omega) hw hlx
      exact ⟨hheld.live, hheld.imp And.right And.right⟩
  refine ⟨hrest, older, hold, hplace.2, ?_⟩
  rw [State.drain, if_neg hne, State.deref_live _ hplace.1]
  simp only [hlink]

/-- When only the leader is left, every other follower is released. -/
theorem Draining.released_others {d : Detached} {leader : Nat} (hok : Draining s d leader 1)
    (hg : d.members[0]? = some leader) {w : Nat} (hw : w ∈ d.members) (hne : w ≠ leader)
    (hnx : w ≠ d.executor) : Released s w := by
  obtain ⟨i, hi⟩ := List.mem_iff_getElem?.mp hw
  refine hok.released i w ?_ hi hnx
  by_contra hlt
  obtain rfl : i = 0 := by omega
  exact hne (Option.some.inj (hi.symm.trans hg))

/-- The round keeps what the thread relies on, for one follower less. -/
theorem Draining.advance {d : Detached} {leader last older rest : Nat}
    (hok : Draining s d leader rest) (hnodup : d.members.Nodup) (hrest : 2 ≤ rest)
    (hw : d.members[rest - 1]? = some last) (hold : d.members[rest - 2]? = some older) :
    Draining ((s.setState last .completed).goto d.executor (.drain leader older))
      ⟨d.members, d.executor, .draining (rest - 1)⟩ leader (rest - 1) := by
  obtain ⟨-, holder, hheld, hreleased, hfollower, hexec, hleader⟩ := hok
  have hlater : ∀ {i w}, rest - 1 ≤ i → d.members[i]? = some w → w ≠ last → rest ≤ i := by
    intro i w hi hw' hne
    by_contra hlt
    have heq : i = rest - 1 := by omega
    exact hne (Option.some.inj (hw'.symm.trans (heq ▸ hw)))
  have hearlier : ∀ {i w}, i < rest - 1 → d.members[i]? = some w → w ≠ last := by
    intro i w hi hw' heq
    have := index_inj hnodup (heq ▸ hw') hw
    omega
  refine ⟨⟨older, by omega, ?_, State.goto_pc_self ..⟩, ?_, ?_, ?_, ?_, ?_, ?_⟩
  · show d.members[rest - 1 - 1]? = some older
    rw [show rest - 1 - 1 = rest - 2 by omega]
    exact hold
  · intro i a b hi ha hb
    exact holder i a b (by omega) ha hb
  · intro i w hi hw' hne
    exact (hheld i w (by omega) hw' hne).congr (State.goto_pc_of_ne _ _ _ hne)
      (State.setState_state_of_ne _ _ (hearlier hi hw') _)
  · intro i w hi hw' hne
    by_cases hwl : w = last
    · -- this one: it waited in one of the two places
      have hheld' := hheld (rest - 1) last (by omega) hw (hwl ▸ hne)
      right
      refine ⟨by rw [hwl]; exact State.setState_state_self .., ?_⟩
      rw [hwl, State.goto_pc_of_ne _ _ _ (hwl ▸ hne)]
      exact hheld'.imp And.left And.left
    · exact (hreleased i w (hlater hi hw' hwl) hw' hne).congr (State.goto_pc_of_ne _ _ _ hne)
        (State.setState_state_of_ne _ _ hwl _)
  · intro hne i hi hw'
    exact (State.setState_state_of_ne _ _ (hearlier hi hw') _).trans
      (hfollower hne i (Nat.lt_of_lt_of_le hi (Nat.sub_le ..)) hw')
  · intro i hi hw'
    show Function.update s.state last .completed d.executor = .completed
    by_cases hxl : d.executor = last
    · rw [hxl, Function.update_self]
    · rw [Function.update_of_ne hxl]
      exact hexec i (hlater hi hw' hxl) hw'
  · intro hne
    have hgx : leader ≠ d.executor := fun heq => hne heq.symm
    exact (State.goto_pc_of_ne _ _ _ hgx).trans (hleader hne)

/-- All followers are released: the leader returns, or is left to be released by a follower. -/
theorem Sim.drained (h : Sim c s v) {l₁ l₂ : List Detached} {d : Detached} {leader : Nat}
    (hleft : v.left = l₁ ++ d :: l₂) (hx : d.executor ∈ d.members)
    (hg0 : d.members[0]? = some leader) (hok : Draining s d leader 1) :
    ∃ v', Sim c (s.goto d.executor
      (if d.executor = leader then .returned else .release leader)) v' := by
  have hg : d.members.head? = some leader := by rwa [List.head?_eq_getElem?]
  have hpcs : ∀ p w, w ∉ d.members → (s.goto d.executor p).pc w = s.pc w := fun p w hw =>
    State.goto_pc_of_ne _ _ _ fun heq => hw (heq ▸ hx)
  by_cases hself : d.executor = leader
  · rw [if_pos hself]
    refine ⟨_, h.left_step hleft ⟨d.members, d.executor, .finished⟩ rfl
      ⟨hx, leader, hg, ?_⟩ rfl (hpcs _) (fun _ _ => rfl)⟩
    intro w hw'
    by_cases hwx : w = d.executor
    · exact .inl (by rw [hwx, State.goto_pc_self])
    · exact (hok.released_others hg0 hw' (hself ▸ hwx) hwx).congr
        (State.goto_pc_of_ne _ _ _ hwx) rfl
  · rw [if_neg hself]
    have hgx : leader ≠ d.executor := fun heq => hself heq.symm
    have hkeep := State.goto_pc_of_ne s d.executor (.release leader) hgx
    refine ⟨_, h.left_step hleft ⟨d.members, d.executor, .releasing⟩ rfl
      ⟨hx, leader, hg, hself, State.goto_pc_self .., ?_, ?_, ?_, ?_⟩ rfl (hpcs _)
      (fun _ _ => rfl)⟩
    · obtain ⟨i, hi⟩ := List.mem_iff_getElem?.mp hx
      refine hok.executor i ?_ hi
      by_contra hlt
      obtain rfl : i = 0 := by omega
      exact hself (Option.some.inj (hi.symm.trans hg0))
    · exact (hok.held 0 leader (by omega) hg0 hgx).congr hkeep rfl
    · exact hkeep.trans (hok.leader hself)
    · intro w hw' hne hnx
      exact (hok.released_others hg0 hw' hne hnx).congr (State.goto_pc_of_ne _ _ _ hnx) rfl

/-- One round of the loop that releases the followers, or its end. -/
theorem Sim.drain (h : Sim c s v) {leader last : Nat} (hpc : s.pc x = .drain leader last) :
    ∃ v', Sim c (s.drain x leader last) v' := by
  obtain ⟨l₁, d, l₂, rest, hleft, rfl, hx, hg0, hw, hpos, hok⟩ := h.draining_of_pc hpc
  have hnodup := h.members_nodup (show d ∈ v.left by simp [hleft])
  by_cases hlast : last = leader
  · obtain rfl : rest = 1 := by
      have := index_inj hnodup hw (hlast ▸ hg0)
      omega
    rw [State.drain, if_pos hlast]
    exact h.drained hleft hx hg0 hok
  · obtain ⟨hrest, older, hold, _, hstep⟩ := hok.drain_eq hpc hg0 hw hpos hlast
    have hlm : last ∈ d.members := List.mem_of_getElem? hw
    rw [hstep]
    refine ⟨_, h.left_step hleft ⟨d.members, d.executor, .draining (rest - 1)⟩ rfl
      ⟨hx, leader, by rwa [List.head?_eq_getElem?], hok.advance hnodup hrest hw hold⟩ rfl
      (fun w hw' => ?_) (fun w hw' => ?_)⟩
    · exact State.goto_pc_of_ne _ _ _ fun heq => hw' (heq ▸ hx)
    · have hne : w ≠ last := fun heq => hw' (heq ▸ hlm)
      exact State.setState_state_of_ne _ _ hne _

/-- The leader that a follower releases is there and waits. -/
theorem Sim.release_eq (h : Sim c s v) {leader : Nat} (hpc : s.pc x = .release leader) :
    ∃ l₁ d l₂, v.left = l₁ ++ d :: l₂ ∧ d.executor = x ∧ x ∈ d.members ∧
      d.members.head? = some leader ∧ Releasing s d leader ∧
      s.releaseLeader x leader = (s.setState leader .completed).goto x .returned := by
  obtain ⟨l₁, d, l₂, hleft, ⟨hx, g, hg, hok⟩, rfl⟩ := h.left_of_pc (.inr ⟨_, hpc⟩)
  cases hd : d.leaving with
  | draining rest =>
      rw [hd] at hok
      obtain ⟨w, _, _, hp⟩ := hok.cur
      simp [hpc] at hp
  | finished =>
      rw [hd] at hok
      obtain hp | ⟨_, hp | hp⟩ := hok _ hx <;> simp [hpc] at hp
  | releasing =>
      rw [hd] at hok
      obtain rfl : leader = g := by simpa [hpc] using hok.pc
      refine ⟨l₁, d, l₂, hleft, rfl, hx, hg, hok, ?_⟩
      rw [State.releaseLeader, State.check_true _ hok.state, State.deref_live _ hok.leader.live]

/-- A follower that performed the exit releases the leader and returns. -/
theorem Sim.release (h : Sim c s v) {leader : Nat} (hpc : s.pc x = .release leader) :
    ∃ v', Sim c (s.releaseLeader x leader) v' := by
  obtain ⟨l₁, d, l₂, hleft, rfl, hx, hg, ⟨hne, hp, hstate, hheld, hleader, hreleased⟩, hstep⟩ :=
    h.release_eq hpc
  have hgm : leader ∈ d.members := List.mem_of_head? hg
  have hgx : leader ≠ d.executor := fun heq => hne heq.symm
  rw [hstep]
  refine ⟨_, h.left_step hleft ⟨d.members, d.executor, .finished⟩ rfl
    ⟨hx, leader, hg, ?_⟩ rfl ?_ ?_⟩
  · intro w hw
    by_cases hwx : w = d.executor
    · exact .inl (by rw [hwx, State.goto_pc_self])
    by_cases hwg : w = leader
    · right
      refine ⟨by rw [hwg]; exact State.setState_state_self .., .inr ?_⟩
      rw [State.goto_pc_of_ne _ _ _ hwx, hwg]
      exact hleader
    · exact (hreleased w hw hwg hwx).congr (State.goto_pc_of_ne _ _ _ hwx)
        (State.setState_state_of_ne _ _ hwg _)
  · exact fun w hw => State.goto_pc_of_ne _ _ _ fun heq => hw (heq ▸ hx)
  · intro w hw
    have hwg : w ≠ leader := fun heq => hw (heq ▸ hgm)
    exact State.setState_state_of_ne _ _ hwg _

/-- A writer that finds itself completed is in a group that has left the list. -/
theorem Sim.left_of_completed (h : Sim c s v) (hstate : s.state x = .completed)
    (hpc : s.pc x = .await ∨ s.pc x = .awaitCompleted) :
    ∃ l₁ d l₂, v.left = l₁ ++ d :: l₂ ∧ x ∈ d.members := by
  have hlinked : x ∈ v.linked := by
    by_contra hnot
    have := (h.unlinked x hnot).2.1
    simp [hstate] at this
  obtain ⟨d, hd, hxd⟩ | hx | hx := View.mem_linked.mp hlinked
  · obtain ⟨l₁, l₂, hleft⟩ := List.append_of_mem hd
    exact ⟨l₁, d, l₂, hleft, hxd⟩
  · exfalso
    obtain ⟨g, rest, _, ⟨_, _, rfl, hlead⟩ | ⟨_, hserial, rfl | hwait⟩ |
      ⟨_, _, hl, ⟨_, _, hp⟩ | hp⟩ | ⟨y, _, he, rfl | hheld⟩⟩ := h.front_cases hx
    · unfold Leading at hlead
      obtain hq | hq := hpc <;> simp [hq, hstate] at hlead
    · have := hserial.state
      simp [hstate] at this
    · have := hwait.2
      simp [hstate] at this
    · obtain hq | hq := hpc <;> simp [hq] at hp
    · have htold : Working (s.pc x) ∨ s.pc x = .await ∧ s.state x ≠ .init := by
        obtain hp | hp := hp
        · exact .inr ⟨hp, by simp [hstate]⟩
        · exact .inl hp
      obtain ⟨_, i, hi, hix⟩ := hl.told_of_pc hx htold
      have := hl.state i x hi hix
      simp [hstate] at this
    · have := he.exit.pc.1
      obtain hq | hq := hpc <;> simp [hq, Pc.inFront] at this
    · obtain ⟨_, hp⟩ | ⟨_, hp⟩ := hheld <;> simp [hstate] at hp
  · have := (h.pending x hx).1
    simp [hstate] at this

/-- A member that has been released returns. -/
theorem Sim.returned (h : Sim c s v) (hstate : s.state x = .completed)
    (hpc : s.pc x = .await ∨ s.pc x = .awaitCompleted) : ∃ v', Sim c (s.goto x .returned) v' := by
  obtain ⟨l₁, d, l₂, hleft, hxd⟩ := h.left_of_completed hstate hpc
  obtain ⟨hx, g, hg, hok⟩ := h.left d (by simp [hleft])
  have hpcs : ∀ w, w ∉ d.members → ((s.goto x .returned)).pc w = s.pc w := fun w hw =>
    State.goto_pc_of_ne _ _ _ fun heq => hw (heq ▸ hxd)
  have hrel : ∀ w, Released s w → Released (s.goto x .returned) w := by
    intro w hw
    by_cases hwx : w = x
    · exact .inl (by rw [hwx, State.goto_pc_self])
    · exact hw.congr (State.goto_pc_of_ne _ _ _ hwx) rfl
  have hheld : ∀ w, Held s w → w ≠ x := by
    rintro w (⟨_, hw⟩ | ⟨_, hw⟩) rfl <;> simp [hstate] at hw
  refine ⟨_, h.left_step hleft d rfl ⟨hx, g, hg, ?_⟩ rfl hpcs (fun _ _ => rfl)⟩
  cases hleaving : d.leaving with
  | draining rest =>
      rw [hleaving] at hok
      obtain ⟨⟨w, hpos, hw, hp⟩, h₂, h₃, h₄, h₀, h₅, h₆⟩ := hok
      have hex : d.executor ≠ x := by
        rintro rfl
        obtain hq | hq := hpc <;> simp [hp] at hq
      refine ⟨⟨w, hpos, hw, (State.goto_pc_of_ne _ _ _ hex).trans hp⟩, h₂, ?_, ?_, h₀, h₅, ?_⟩
      · intro i w hi hw hne
        exact (h₃ i w hi hw hne).congr
          (State.goto_pc_of_ne _ _ _ (hheld w (h₃ i w hi hw hne))) rfl
      · exact fun i w hi hw hne => hrel w (h₄ i w hi hw hne)
      · intro hne
        have hg0 : d.members[0]? = some g := by rwa [← List.head?_eq_getElem?]
        have hgx : g ≠ x := hheld g (h₃ 0 g (by omega) hg0 fun heq => hne heq.symm)
        exact (State.goto_pc_of_ne _ _ _ hgx).trans (h₆ hne)
  | releasing =>
      rw [hleaving] at hok
      obtain ⟨h₁, hp, h₃, h₄, h₅, h₆⟩ := hok
      have hex : d.executor ≠ x := by
        rintro rfl
        obtain hq | hq := hpc <;> simp [hp] at hq
      have hkeep := State.goto_pc_of_ne s x .returned (hheld g h₄)
      refine ⟨h₁, (State.goto_pc_of_ne _ _ _ hex).trans hp, h₃, h₄.congr hkeep rfl,
        hkeep.trans h₅, ?_⟩
      exact fun w hw hwg hwx => hrel w (h₆ w hw hwg hwx)
  | finished =>
      rw [hleaving] at hok
      exact fun w hw => hrel w (hok w hw)

end P2KVS.WriteThread
