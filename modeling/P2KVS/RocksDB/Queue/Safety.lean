import P2KVS.RocksDB.Queue.Release

/-!
# What the write thread guarantees

Every step keeps the queue, so it is there in every reachable state. No step fails, the groups
follow the order of linking, and one thread at a time manages the list.
-/

namespace P2KVS.WriteThread

open Transition Intrusive

variable {c : Config} {s t : State} {v : View} {x : Nat}

/-! ### All steps -/

/-- A writer that waits in `JoinBatchGroup` is linked. -/
theorem Sim.linked_of_await (h : Sim c s v) (hpc : s.pc x = .await) : x ∈ v.linked := by
  by_contra hnot
  obtain ⟨_, _, hp | hp | ⟨_, hp⟩⟩ := h.unlinked x hnot <;> simp [hpc] at hp

/-- A waiting writer that has become the leader is the front group. -/
theorem Sim.leading_of_await (h : Sim c s v) (hpc : s.pc x = .await)
    (hstate : s.state x = .groupLeader) :
    v.phase = .leading ∧ v.front = [x] ∧ Leading c s v.toLine x := by
  obtain ⟨d, hd, hxd⟩ | hx | hx := View.mem_linked.mp (h.linked_of_await hpc)
  · obtain (⟨_, hp⟩ | ⟨hp, _⟩) | (hp | ⟨hp, _⟩) | ⟨_, ⟨_, _, hp⟩ | ⟨_, hp⟩⟩ :=
      (h.left d hd).pc hxd <;> simp [hpc, hstate] at hp
  · obtain ⟨g, rest, hfront, ⟨hphase, rfl, rfl, hlead⟩ | ⟨_, hserial, rfl | hwait⟩ |
      ⟨_, _, hl, ⟨_, _, hp⟩ | hp⟩ | ⟨y, _, he, rfl | hheld⟩⟩ := h.front_cases hx
    · exact ⟨hphase, hfront, hlead⟩
    · obtain hp | hp := hserial.pc <;> simp [hpc] at hp
    · have := hwait.2
      simp [hstate] at this
    · simp [hpc] at hp
    · obtain ⟨_, i, hi, hix⟩ := hl.told_of_pc hx (.inr ⟨hpc, by simp [hstate]⟩)
      have := hl.state i x hi hix
      simp [hstate] at this
    · have := he.exit.pc.1
      simp [hpc, Pc.inFront] at this
    · obtain ⟨_, hp⟩ | ⟨_, hp⟩ := hheld <;> simp [hstate] at hp
  · have := (h.pending x hx).1
    simp [hstate] at this

/-- A waiting writer that has been told to insert is a member of the front group. -/
theorem Sim.launched_of_await (h : Sim c s v) (hpc : s.pc x = .await)
    (hstate : s.state x = .parallelMemtableWriter) :
    ∃ g rest told, v.front = g :: rest ∧ v.phase = .launched told ∧ x ∈ v.front ∧
      Launched s v.toLine g told := by
  obtain ⟨d, hd, hxd⟩ | hx | hx := View.mem_linked.mp (h.linked_of_await hpc)
  · obtain (⟨_, hp⟩ | ⟨hp, _⟩) | (hp | ⟨hp, _⟩) | ⟨_, ⟨_, _, hp⟩ | ⟨_, hp⟩⟩ :=
      (h.left d hd).pc hxd <;> simp [hpc, hstate] at hp
  · obtain ⟨g, rest, hfront, ⟨hphase, rfl, rfl, hlead⟩ | ⟨_, hserial, rfl | hwait⟩ |
      ⟨told, hphase, hl, hp⟩ | ⟨y, _, he, rfl | hheld⟩⟩ := h.front_cases hx
    · simp [Leading, hpc, hstate] at hlead
    · obtain hp | hp := hserial.pc <;> simp [hpc] at hp
    · have := hwait.2
      simp [hstate] at this
    · exact ⟨g, rest, told, hfront, hphase, hx, hl⟩
    · have := he.exit.pc.1
      simp [hpc, Pc.inFront] at this
    · obtain ⟨_, hp⟩ | ⟨hp, _⟩ := hheld <;> simp [hpc, hstate] at hp
  · have := (h.pending x hx).1
    simp [hstate] at this

/-- A waiting writer sees the state it was set to. -/
theorem Sim.joinBatchGroup (h : Sim c s v) (hpc : s.pc x = .await)
    (hstep : s.joinBatchGroup x = some t) : ∃ v', Sim c t v' := by
  unfold State.joinBatchGroup at hstep
  cases hstate : s.state x with
  | init => simp [hstate] at hstep
  | completed =>
      simp only [hstate, Option.some.injEq] at hstep
      subst hstep
      exact h.returned hstate (.inl hpc)
  | groupLeader =>
      simp only [hstate, Option.some.injEq] at hstep
      subst hstep
      obtain ⟨hphase, hfront, hlead⟩ := h.leading_of_await hpc hstate
      simp only [Leading, hpc] at hlead
      refine ⟨v, h.lead_goto hphase hfront hlead.1 ?_⟩
      unfold Leading
      rw [State.goto_pc_self]
      exact hlead
  | parallelMemtableWriter =>
      simp only [hstate, Option.some.injEq] at hstep
      subst hstep
      obtain ⟨g, rest, told, hfront, hphase, hx, hl⟩ := h.launched_of_await hpc hstate
      exact ⟨v, h.work hfront hphase hl hx (.inr ⟨hpc, by simp [hstate]⟩) (by simp [hpc])
        (.inl rfl) (by simp)⟩

/-- A writer that wants to be alone and has become the leader is the front group. -/
theorem Sim.leading_of_awaitAlone (h : Sim c s v) (hpc : s.pc x = .awaitAlone)
    (hstate : s.state x = .groupLeader) :
    v.phase = .leading ∧ v.front = [x] ∧ Leading c s v.toLine x := by
  have hlinked : x ∈ v.linked := by
    by_contra hnot
    obtain ⟨_, _, hp | hp | ⟨_, hp⟩⟩ := h.unlinked x hnot <;> simp [hpc] at hp
  obtain ⟨d, hd, hxd⟩ | hx | hx := View.mem_linked.mp hlinked
  · obtain (⟨hp, _⟩ | ⟨hp, _⟩) | (hp | ⟨_, hp | hp⟩) | ⟨_, ⟨_, _, hp⟩ | ⟨_, hp⟩⟩ :=
      (h.left d hd).pc hxd <;> simp [hpc] at hp
  · exact h.leading_of_pc hpc trivial hx
  · have := (h.pending x hx).1
    simp [hstate] at this

/-- A writer without a batch comes to the front. -/
theorem Sim.awaitAlone (h : Sim c s v) (hpc : s.pc x = .awaitAlone)
    (hstate : s.state x = .groupLeader) : Sim c (s.goto x .alone) v := by
  obtain ⟨hphase, hfront, hlead⟩ := h.leading_of_awaitAlone hpc hstate
  simp only [Leading, hpc] at hlead
  refine h.lead_goto hphase hfront hlead.1 ?_
  unfold Leading
  rw [State.goto_pc_self]
  exact ⟨hlead.1, hlead.2.2⟩

/-- Every step of a thread keeps the queue. -/
theorem Sim.move (h : Sim c s v) {path : Path} (hstep : s.move c x path = some t) :
    ∃ v', Sim c t v' := by
  unfold State.move at hstep
  cases hpc : s.pc x with
  | idle => simp [hpc] at hstep
  | load =>
      simp only [hpc, Option.some.injEq] at hstep
      subst hstep
      rw [h.load_eq hpc]
      exact ⟨v, (h.outside (by simp [hpc, Pc.outside]) (.inr ⟨_, rfl⟩) none).2⟩
  | link writers =>
      simp only [hpc] at hstep
      have hout : (s.pc x).outside := by simp [hpc, Pc.outside]
      split_ifs at hstep with hnewest
      · cases hstep
        subst hnewest
        exact h.link hout
      · cases hstep
        exact ⟨v, (h.outside hout (.inr ⟨_, rfl⟩) writers).1⟩
  | selfLead =>
      simp only [hpc, Option.some.injEq] at hstep
      exact hstep ▸ ⟨v, h.selfLead hpc⟩
  | await =>
      simp only [hpc] at hstep
      exact h.joinBatchGroup hpc hstep
  | awaitAlone =>
      simp only [hpc] at hstep
      split_ifs at hstep with hstate
      cases hstep
      exact ⟨v, h.awaitAlone hpc hstate⟩
  | alone =>
      simp only [hpc, Option.some.injEq] at hstep
      exact hstep ▸ h.alone hpc
  | preprocess =>
      simp only [hpc, Option.some.injEq] at hstep
      exact hstep ▸ ⟨v, h.preprocess hpc⟩
  | enter =>
      simp only [hpc, Option.some.injEq] at hstep
      exact hstep ▸ h.enter hpc
  | createLinks head newest =>
      simp only [hpc, Option.some.injEq] at hstep
      exact hstep ▸ h.createLinks hpc
  | gather w newest size =>
      simp only [hpc, Option.some.injEq] at hstep
      exact hstep ▸ h.gather hpc
  | apply =>
      simp only [hpc] at hstep
      exact h.apply hpc hstep
  | insertGroup =>
      simp only [hpc, Option.some.injEq] at hstep
      exact hstep ▸ h.serial_exit (.inr hpc) (.inl rfl)
  | launch w =>
      simp only [hpc, Option.some.injEq] at hstep
      exact hstep ▸ h.launch hpc
  | insert =>
      simp only [hpc, Option.some.injEq] at hstep
      exact hstep ▸ ⟨v, h.insert hpc⟩
  | report =>
      simp only [hpc, Option.some.injEq] at hstep
      exact hstep ▸ ⟨v, h.report hpc⟩
  | complete =>
      simp only [hpc, Option.some.injEq] at hstep
      exact hstep ▸ h.complete hpc
  | awaitCompleted =>
      simp only [hpc] at hstep
      split_ifs at hstep with hstate
      cases hstep
      exact h.returned hstate (.inr hpc)
  | publish =>
      simp only [hpc, Option.some.injEq] at hstep
      exact hstep ▸ h.publish hpc
  | exitLoad =>
      simp only [hpc, Option.some.injEq] at hstep
      exact hstep ▸ h.exitLoad hpc
  | exitCas leader last =>
      simp only [hpc, Option.some.injEq] at hstep
      exact hstep ▸ h.exitCas hpc
  | exitLinks leader last head =>
      simp only [hpc, Option.some.injEq] at hstep
      exact hstep ▸ h.exitLinks hpc
  | handoff leader last =>
      simp only [hpc, Option.some.injEq] at hstep
      exact hstep ▸ h.handoff hpc
  | drain leader last =>
      simp only [hpc, Option.some.injEq] at hstep
      exact hstep ▸ h.drain hpc
  | release leader =>
      simp only [hpc, Option.some.injEq] at hstep
      exact hstep ▸ h.release hpc
  | returned => simp [hpc] at hstep

/-- Every step keeps a view of the list. -/
theorem Sim.step (h : Sim c s v) {a : Action} (hstep : step c s a = some t) : ∃ v', Sim c t v' := by
  cases a with
  | start x =>
      simp only [WriteThread.step] at hstep
      split_ifs at hstep with hpc
      cases hstep
      exact ⟨v, (h.outside (by simp [hpc, Pc.outside]) (.inl rfl) none).2⟩
  | retry x =>
      simp only [WriteThread.step] at hstep
      split at hstep
      · next writers hpc =>
          cases hstep
          exact ⟨v, (h.outside (by simp [hpc, Pc.outside]) (.inr ⟨_, rfl⟩) writers).1⟩
      · cases hstep
  | move x path => exact h.move hstep

/-- Every reachable state shows a queue. -/
theorem sim_reachable {allowed : State → Action → Prop} (h : (system c).Reachable allowed s) :
    ∃ v, Sim c s v := by
  refine h.invariant (I := fun s => ∃ v, Sim c s v) ?_ ?_
  · refine ⟨⟨⟨[], .leading, [], none⟩, []⟩, rfl, rfl, List.nodup_nil, rfl, Linked.nil, ?_, by simp,
      ⟨rfl, rfl, rfl⟩, by simp, rfl, by simp [system]⟩
    exact fun w _ => ⟨rfl, rfl, .inl rfl⟩
  · rintro s a t _ ⟨v, hv⟩ _ hstep
    exact hv.step hstep

/-! ### What the write thread guarantees -/

/-- In no interleaving of any number of writers without a write stall does the write thread follow a
null pointer, touch a writer whose function has returned, or fail an assertion about links and
states. -/
theorem write_thread_never_faults {c : Config} {s : State}
    (h : (system c).Reachable (fun _ _ => True) s) : s.fault = false := by
  obtain ⟨v, hv⟩ := sim_reachable h
  exact hv.fault

/-- Two writers with a batch of 20 bytes each, and a third one that wants to be alone. -/
def threeWriters : Config where
  request w := ⟨if w = 2 then none else some ⟨20, 1, false⟩, false, false, false, false, none⟩
  maxWriteBatchGroupSizeBytes := 1024

/-- Consecutive steps of one thread. -/
def moves (x n : Nat) : List Action :=
  List.replicate n (.move x .parallel)

/-- The three writers start. -/
def threeStart : List Action :=
  [.start 0, .start 1, .start 2]

/-- The writers are linked in order; writer 0 leads a group with writer 1 and waits for it; writer 1
has inserted its batch. -/
def threeInsert : List Action :=
  moves 0 2 ++ moves 1 2 ++ moves 2 2 ++ moves 0 14 ++ moves 1 3

/-- No step has failed when writer 1 has inserted its batch. -/
theorem write_thread_never_faults_three :
    let s := (system threeWriters).after (threeStart ++ threeInsert)
    s.fault = false ∧ s.formed = [[0, 1]] :=
  ⟨write_thread_never_faults (System.reachable_after_free (by decide)), by decide⟩

/-- The group of a closed phase is not empty. -/
theorem Sim.closed_ne_nil (h : Sim c s v) {group : List Nat} (hg : group ∈ v.closed) :
    group ≠ [] := by
  rcases List.mem_append.mp hg with hg | hg
  · obtain ⟨d, hd, rfl⟩ := List.mem_map.mp hg
    obtain ⟨hx, -⟩ := h.left d hd
    exact List.ne_nil_of_mem hx
  · split_ifs at hg with hphase
    · cases hg
    · rw [List.mem_singleton.mp hg]
      intro hnil
      have hf := h.front
      unfold Front at hf
      rw [hnil] at hf
      exact hphase hf.2.2

/-- The members of closed groups: those that have left, and the front group once it is closed. -/
theorem Sim.formed_flatten (h : Sim c s v) : s.formed.flatten =
    v.left.flatMap Detached.members ++ if v.phase = .leading then [] else v.front := by
  rw [h.closed, View.closed, List.flatten_append, List.flatMap_def]
  split_ifs <;> simp

/-- A writer returns as a member of a group. -/
theorem Sim.formed_of_returned (h : Sim c s v) (hx : s.pc x = .returned) :
    x ∈ s.formed.flatten := by
  have hlinked : x ∈ v.linked := by
    by_contra hnot
    obtain ⟨_, _, hp | hp | ⟨_, hp⟩⟩ := h.unlinked x hnot <;> simp [hx] at hp
  obtain hmem | hmem | hmem := View.mem_linked.mp hlinked
  · rw [h.formed_flatten]
    exact List.mem_append_left _ (List.mem_flatMap.mpr hmem)
  · obtain hp | hp | hp | hp := h.front_pc hmem <;> simp [hx, Pc.inFront] at hp
  · obtain ⟨_, ⟨hp, _⟩ | ⟨hp, _⟩⟩ := h.pending x hmem <;> simp [hx] at hp

/-- Without write stalls, the groups are runs of the order in which the writers were linked: every
writer is in at most one group, and in that order; the members of a group are compatible with its
leader and keep to the bound on its bytes; and a writer returns only as a member of a group. -/
theorem groups_follow_link_order {c : Config} {s : State}
    (h : (system c).Reachable (fun _ _ => True) s) :
    s.order.Nodup ∧ s.formed.flatten <+: s.order ∧
      (∀ group ∈ s.formed, group ≠ [] ∧ Fits c group) ∧
      ∀ w, s.pc w = .returned → w ∈ s.formed.flatten := by
  obtain ⟨v, hv⟩ := sim_reachable h
  refine ⟨hv.order ▸ hv.nodup, ?_, ?_, fun w hw => hv.formed_of_returned hw⟩
  · rw [hv.formed_flatten, hv.order, View.linked]
    split_ifs
    · exact ⟨v.queue, by simp⟩
    · exact ⟨v.pending, by simp [Line.queue]⟩
  · intro group hg
    exact ⟨hv.closed_ne_nil (hv.closed ▸ hg), hv.fits group hg⟩

/-- The first group is the beginning of the order of linking. -/
theorem groups_follow_link_order_three :
    let s := (system threeWriters).after (threeStart ++ threeInsert)
    s.order = [0, 1, 2] ∧ s.formed = [[0, 1]] ∧ s.formed.flatten <+: s.order :=
  ⟨by decide, by decide,
    (groups_follow_link_order (System.reachable_after_free (by decide))).2.1⟩

/-- The places in which a thread changes the list, the log or the last sequence on behalf of a
group, up to the hand-over. Behind it, at `drain` and `release`, the executor only touches the
members of its own group. -/
def Pc.manages : Pc → Prop
  | .selfLead | .alone | .preprocess | .enter | .createLinks .. | .gather .. | .apply | .insertGroup
  | .launch _ | .publish | .exitLoad | .exitCas .. | .exitLinks .. | .handoff .. => True
  | _ => False

/-- The thread that manages the list leads, applies, launches or exits. -/
theorem Pc.manages.cases {p : Pc} (h : p.manages) : p.leading ∨ (p = .apply ∨ p = .insertGroup) ∨
    (∃ w, p = .launch w) ∨ p.exiting := by
  cases p <;> simp_all [Pc.manages, Pc.leading, Pc.exiting]

/-- The thread that manages the list is in the front group. -/
theorem Pc.manages.inFront {p : Pc} (h : p.manages) : p.inFront := by
  cases p <;> simp_all [Pc.manages, Pc.inFront]

/-- At most one thread at a time leads or applies a group, or leaves it up to the hand-over. While a
member of a group inserts its batch, nobody does but the leader of that group, who is still telling
the members. -/
theorem one_thread_manages {c : Config} {s : State} (h : (system c).Reachable (fun _ _ => True) s)
    {x : Nat} (hx : (s.pc x).manages) :
    (∀ y, (s.pc y).manages → y = x) ∧
      ∀ y, (s.pc y = .insert ∨ s.pc y = .report ∨ s.pc y = .complete) →
        s.writeGroup y = some x ∧ ∃ w, s.pc x = .launch w := by
  obtain ⟨v, hv⟩ := sim_reachable h
  -- the phase of the front group determines who can manage
  have hphase : ∀ y, (s.pc y).manages → v.phase = .leading ∧ v.front = [y] ∨
      v.phase = .serial ∧ v.front.head? = some y ∨
      (∃ told w, v.phase = .launched told ∧ v.front.head? = some y ∧ s.pc y = .launch w ∧
        Closed s v.toLine y) ∨ v.phase = .exiting y := by
    intro y hy
    obtain hp | hp | ⟨w, hp⟩ | hp := hy.cases
    · obtain ⟨h₁, h₂, _⟩ := hv.leading_of_pc rfl hp (hv.mem_front rfl hy.inFront)
      exact .inl ⟨h₁, h₂⟩
    · obtain ⟨h₁, ⟨rest, h₂⟩, _⟩ := hv.serial_of_pc hp
      exact .inr (.inl ⟨h₁, by simp [h₂]⟩)
    · obtain ⟨rest, told, _, h₁, h₂, hl, _⟩ := hv.launch_eq hp
      exact .inr (.inr (.inl ⟨told, w, h₂, by simp [h₁], hp, hl.closed⟩))
    · obtain ⟨g, rest, _, h₂, _⟩ := hv.exiting_of_pc rfl hp
      exact .inr (.inr (.inr h₂))
  constructor
  · intro y hy
    obtain ⟨h₁, h₂⟩ | ⟨h₁, h₂⟩ | ⟨_, _, h₁, h₂, _⟩ | h₁ := hphase x hx <;>
      obtain ⟨h₃, h₄⟩ | ⟨h₃, h₄⟩ | ⟨_, _, h₃, h₄, _⟩ | h₃ := hphase y hy <;> simp_all
  · intro y hy
    obtain ⟨g, rest, told, hfront, hlaunched, hyf, _⟩ :=
      hv.launched_of_pc (x := y) rfl (by obtain hp | hp | hp := hy <;> simp [hp, Pc.launching])
    obtain ⟨h₁, _⟩ | ⟨h₁, _⟩ | ⟨_, w, h₁, _, h₃, h₄⟩ | h₁ := hphase x hx
    · simp [hlaunched] at h₁
    · simp [hlaunched] at h₁
    · exact ⟨h₄.group y hyf, w, h₃⟩
    · simp [hlaunched] at h₁

/-- While writer 0 tells its group to insert, it alone manages the list. -/
theorem one_thread_manages_three :
    let s := (system threeWriters).after (threeStart ++ moves 0 2 ++ moves 1 2 ++ moves 0 8)
    (s.pc 0).manages ∧ ∀ y, (s.pc y).manages → y = 0 := by
  intro s
  have hx : (s.pc 0).manages := trivial
  exact ⟨hx, (one_thread_manages (System.reachable_after_free (by decide)) hx).1⟩

end P2KVS.WriteThread
