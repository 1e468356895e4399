import P2KVS.RocksDB.Queue.Progress

/-!
# Every write comes to an end

When no thread can take a step, nobody is on the list and nobody waits for a release. With the
potential this bounds every run in which no further writer starts.
-/

namespace P2KVS.WriteThread

open Transition Intrusive

variable {c : Config} {s t : State} {v : View} {x : Nat} {W : Finset Nat}

/-! ### No deadlock -/

/-- A thread that cannot move has not begun, has returned, or waits for a state that it does not
have. -/
theorem blocked_of_stuck (h : s.move c x .skip = none) : s.pc x = .idle ∨ s.pc x = .returned ∨
    s.pc x = .await ∧ s.state x = .init ∨ s.pc x = .awaitAlone ∧ s.state x ≠ .groupLeader ∨
    s.pc x = .awaitCompleted ∧ s.state x ≠ .completed := by
  unfold State.move at h
  cases hpc : s.pc x <;> simp only [hpc] at h <;> try cases h
  · simp
  · split_ifs at h
  · right; right; left
    unfold State.joinBatchGroup at h
    cases hstate : s.state x <;> simp [hstate] at h
    exact ⟨rfl, rfl⟩
  · split_ifs at h with hstate
    simp [hstate]
  · split_ifs at h with hstate
    simp [hstate]
  · simp

/-- The places at which a thread that cannot move may be. -/
def Pc.blocks : Pc → Prop
  | .idle | .returned | .await | .awaitAlone | .awaitCompleted => True
  | _ => False

/-- A thread at any other place can move. -/
theorem not_stuck_of_pc {p : Pc} (hpc : s.pc x = p) (hp : ¬ p.blocks) :
    s.move c x .skip ≠ none := by
  intro h
  refine hp (hpc ▸ ?_)
  obtain hp | hp | ⟨hp, _⟩ | ⟨hp, _⟩ | ⟨hp, _⟩ := blocked_of_stuck h <;> rw [hp] <;> trivial

/-- A thread that waits and cannot move does not have the state it waits for. -/
theorem state_of_stuck (h : s.move c x .skip = none) : (s.pc x = .await → s.state x = .init) ∧
    (s.pc x = .awaitCompleted → s.state x ≠ .completed) := by
  obtain hp | hp | ⟨hp, hst⟩ | ⟨hp, hst⟩ | ⟨hp, hst⟩ := blocked_of_stuck h
  · simp [hp]
  · simp [hp]
  · simp [hp, hst]
  · simp [hp]
  · simp [hp, hst]

/-- A member that was told to insert and cannot move has completed. -/
theorem Working.awaits (hwork : Working (s.pc x)) (h : s.move c x .skip = none) :
    s.pc x = .awaitCompleted := by
  obtain hp | hp | hp | hp := hwork
  · exact absurd h (not_stuck_of_pc hp id)
  · exact absurd h (not_stuck_of_pc hp id)
  · exact absurd h (not_stuck_of_pc hp id)
  · exact hp

/-- In a group whose members insert, somebody still has to finish, and can move. -/
theorem Launched.not_stuck {v : Line} {g told : Nat} (h : Launched s v g told)
    (hstuck : ∀ x, s.move c x .skip = none) : False := by
  -- the leader has told all members
  obtain ⟨w, _, hp⟩ | ⟨htold, hlead⟩ := h.leader
  · exact absurd (hstuck g) (not_stuck_of_pc hp id)
  have hrun := h.running_pos
  rw [h.running, List.countP_pos_iff] at hrun
  obtain ⟨y, hy, hpy⟩ := hrun
  simp only [ne_eq, decide_eq_true_eq] at hpy
  by_cases hyg : y = g
  · exact hpy (hyg ▸ hlead.awaits (hstuck g))
  · obtain ⟨i, hi⟩ := List.mem_iff_getElem?.mp hy
    have hlt : i < told := htold ▸ (List.getElem?_eq_some_iff.mp hi).1
    obtain hp | hwork := h.working i y hlt hi hyg
    · have hinit := (state_of_stuck (hstuck y)).1 hp
      cases hinit.symm.trans (h.state i y hlt hi)
    · exact hpy (hwork.awaits (hstuck y))

/-- When no thread can move, there is no front group. -/
theorem Sim.front_eq_nil (h : Sim c s v) (hstuck : ∀ x, s.move c x .skip = none) :
    v.front = [] := by
  by_contra hne
  obtain ⟨g, hgf⟩ := List.exists_mem_of_ne_nil _ hne
  obtain ⟨g', rest, hfront, ⟨_, _, rfl, hlead⟩ | ⟨_, hserial, _⟩ | ⟨told, _, hl, _⟩ |
    ⟨y, _, he, _⟩⟩ := h.front_cases hgf
  · unfold Leading at hlead
    obtain hp | hp | ⟨hp, hst⟩ | ⟨hp, hst⟩ | ⟨hp, hst⟩ := blocked_of_stuck (hstuck g) <;>
      simp_all
  · obtain hp | hp := hserial.pc <;> exact absurd (hstuck g') (not_stuck_of_pc hp id)
  · exact hl.not_stuck hstuck
  · have hin := he.exit.pc.1
    obtain hp | hp | ⟨hp, _⟩ | ⟨hp, _⟩ | ⟨hp, _⟩ := blocked_of_stuck (hstuck y) <;>
      simp [hp, Pc.inFront] at hin

/-- When no thread can move, the members of a group that has left have returned. -/
theorem Sim.left_returned (h : Sim c s v) (hstuck : ∀ x, s.move c x .skip = none) {d : Detached}
    (hd : d ∈ v.left) {w : Nat} (hw : w ∈ d.members) : s.pc w = .returned := by
  obtain ⟨_, g, _, hok⟩ := h.left d hd
  cases hleaving : d.leaving with
  | draining rest =>
      rw [hleaving] at hok
      obtain ⟨_, _, _, hp⟩ := hok.cur
      exact absurd (hstuck d.executor) (not_stuck_of_pc hp id)
  | releasing =>
      rw [hleaving] at hok
      exact absurd (hstuck d.executor) (not_stuck_of_pc hok.pc id)
  | finished =>
      rw [hleaving] at hok
      obtain ⟨hinit, hcompleted⟩ := state_of_stuck (hstuck w)
      obtain hp | ⟨hst, hp | hp⟩ := hok w hw
      · exact hp
      · cases (hinit hp).symm.trans hst
      · exact absurd hst (hcompleted hp)

/-- When no thread can move, nobody is left on the list or waits for a release. -/
theorem Sim.all_returned (h : Sim c s v) (hstuck : ∀ x, s.move c x .skip = none) :
    s.newestWriter = none ∧ ∀ w, s.pc w = .idle ∨ s.pc w = .returned := by
  have hfront := h.front_eq_nil hstuck
  have hf := h.front
  unfold Front at hf
  rw [hfront] at hf
  have hqueue : v.queue = [] := by simp [Line.queue, hfront, hf.1]
  refine ⟨by rw [h.newest, hqueue]; rfl, fun w => ?_⟩
  by_cases hw : w ∈ v.linked
  · obtain ⟨d, hd, hwd⟩ | hw | hw := View.mem_linked.mp hw
    · exact .inr (h.left_returned hstuck hd hwd)
    · simp [hfront] at hw
    · simp [hf.1] at hw
  · obtain ⟨_, _, hp | hp | ⟨_, hp⟩⟩ := h.unlinked w hw
    · exact .inl hp
    · exact absurd (hstuck w) (not_stuck_of_pc hp id)
    · exact absurd (hstuck w) (not_stuck_of_pc hp id)

/-! ### Whole runs -/

/-- The places at which a thread calls `SetState`. -/
def Pc.sets : Pc → Prop
  | .selfLead | .launch _ | .handoff .. | .drain .. | .release _ => True
  | _ => False

/-- Thread `x` has gone on to another place, or the step has failed. States change only by
`SetState`. -/
inductive Goes (s : State) (x : Nat) : State → Prop where
  | failed : Goes s x s.failed
  | goto {u : State} {p : Pc} : u.pc = s.pc → u.state = s.state → p ≠ .idle → Goes s x (u.goto x p)
  | set {u : State} {p : Pc} : u.pc = s.pc → (s.pc x).sets → p ≠ .idle → Goes s x (u.goto x p)

/-- Through a pointer. -/
theorem goes_deref {p : Option Nat} {k : Nat → State} (h : ∀ y, Goes s x (k y)) :
    Goes s x (s.deref p k) := by
  unfold State.deref
  cases p with
  | none => exact .failed
  | some y =>
      simp only
      split_ifs
      · exact h y
      · exact .failed

/-- Behind an assertion. -/
theorem goes_check {condition : Prop} [Decidable condition] {k : State} (h : Goes s x k) :
    Goes s x (s.check condition k) := by
  unfold State.check
  split_ifs
  · exact h
  · exact .failed

/-- A step of `CreateMissingNewerLinks` goes on to the next link or behind the walk. -/
theorem goes_createMissingNewerLink {head : Nat} {next : Nat → Pc} {stop : Pc}
    (hnext : ∀ w, next w ≠ .idle) (hstop : stop ≠ .idle) :
    Goes s x (s.createMissingNewerLink x head next stop) := by
  refine goes_deref fun head => ?_
  split
  · exact .goto rfl rfl hstop
  · refine goes_deref fun older => ?_
    split
    · exact goes_check (.goto rfl rfl hstop)
    · exact .goto rfl rfl (hnext _)

/-- A step moves its own thread only, and not back to the start. -/
theorem goes_move {path : Path} (hstep : s.move c x path = some t) : Goes s x t := by
  unfold State.move at hstep
  cases hpc : s.pc x <;> simp only [hpc] at hstep <;> try cases hstep
  case load => exact goes_check (.goto rfl rfl (by simp))
  case link =>
    split_ifs at hstep <;> cases hstep
    · refine .goto rfl rfl ?_
      unfold Config.linked
      split <;> simp
    · exact .goto rfl rfl (by simp)
  case selfLead => exact .set rfl (by simp [hpc, Pc.sets]) (by simp)
  case await =>
    unfold State.joinBatchGroup at hstep
    cases hstate : s.state x <;> simp only [hstate] at hstep <;> cases hstep <;>
      exact .goto rfl rfl (by simp)
  case awaitAlone =>
    split_ifs at hstep
    cases hstep
    exact .goto rfl rfl (by simp)
  case alone => exact .goto rfl rfl (by simp)
  case preprocess => exact goes_check (.goto rfl rfl (by simp))
  case enter =>
    refine goes_check ?_
    split
    · exact .failed
    · exact .goto rfl rfl (by simp)
  case createLinks => exact goes_createMissingNewerLink (by simp) (by simp)
  case gather =>
    unfold State.gather
    split_ifs
    · exact .goto rfl rfl (by simp)
    · refine goes_deref fun w => goes_deref fun y => ?_
      split_ifs <;> exact .goto rfl rfl (by simp)
  case apply =>
    cases path with
    | skip => cases hstep; exact .goto rfl rfl (by simp)
    | serial => cases hstep; exact .goto rfl rfl (by simp)
    | parallel =>
        simp only [State.apply] at hstep
        split_ifs at hstep
        cases hstep
        exact .goto rfl rfl (by simp)
  case insertGroup => exact .goto rfl rfl (by simp)
  case launch =>
    refine goes_deref fun y => ?_
    simp only
    split_ifs
    · exact .set rfl (by simp [hpc, Pc.sets]) (by simp)
    · split
      · exact .failed
      · exact .set rfl (by simp [hpc, Pc.sets]) (by simp)
  case insert => exact .goto rfl rfl (by simp)
  case report => exact goes_deref fun _ => .goto rfl rfl (by simp)
  case complete => exact goes_deref fun _ => .goto rfl rfl (by split_ifs <;> simp)
  case awaitCompleted =>
    split_ifs at hstep
    cases hstep
    exact .goto rfl rfl (by simp)
  case publish => exact goes_deref fun _ => .goto rfl rfl (by simp)
  case exitLoad =>
    refine goes_deref fun leader => goes_check ?_
    split
    · exact .failed
    · exact .goto rfl rfl (by split_ifs <;> simp)
  case exitCas =>
    unfold State.emptyList
    split_ifs
    · exact .goto rfl rfl (by simp)
    · split
      · exact .failed
      · exact .goto rfl rfl (by simp)
  case exitLinks => exact goes_createMissingNewerLink (by simp) (by simp)
  case handoff =>
    exact goes_deref fun last => goes_deref fun next =>
      goes_check (.set rfl (by simp [hpc, Pc.sets]) (by simp))
  case drain =>
    unfold State.drain
    split_ifs
    · exact .goto rfl rfl (by simp)
    · exact .goto rfl rfl (by simp)
    · refine goes_deref fun last => ?_
      split
      · exact .failed
      · exact .set rfl (by simp [hpc, Pc.sets]) (by simp)
  case release =>
    exact goes_check (goes_deref fun leader => .set rfl (by simp [hpc, Pc.sets]) (by simp))

/-- The other threads stay where they are. -/
theorem Goes.pc_of_ne (h : Goes s x t) {w : Nat} (hw : w ≠ x) : t.pc w = s.pc w := by
  cases h with
  | failed => rfl
  | goto hu | set hu => rw [State.goto_pc_of_ne _ _ _ hw, hu]

/-- The threads that have started are the same behind a step. -/
theorem move_idle_iff {path : Path} (hstep : s.move c x path = some t) (w : Nat) :
    t.pc w = .idle ↔ s.pc w = .idle := by
  by_cases hw : w = x
  · subst hw
    have hne : s.pc w ≠ .idle := fun heq => by simp [State.move, heq] at hstep
    cases goes_move hstep with
    | failed => exact Iff.rfl
    | goto _ _ hp | set _ _ hp => simp [hp, hne]
  · rw [(goes_move hstep).pc_of_ne hw]

/-- What a weak exchange that fails without a reason does: its thread reads the newest writer
again. -/
theorem retry_cases (hstep : step c s (.retry x) = some t) : ∃ writers, s.pc x = .link writers ∧
    t = (s.storeOlder x writers).goto x (.link s.newestWriter) := by
  simp only [step] at hstep
  split at hstep
  next writers hpc => exact ⟨writers, hpc, (Option.some.inj hstep).symm⟩
  next => cases hstep

/-- Such a failure does not raise the potential: the view of its thread is new behind it. -/
theorem potential_retry (hstep : step c s (.retry x) = some t) :
    t.potential W ≤ s.potential W := by
  obtain ⟨writers, hpc, rfl⟩ := retry_cases hstep
  refine Finset.sum_le_sum fun w _ => ?_
  unfold State.weight
  have hplace : ((s.storeOlder x writers).goto x (.link s.newestWriter)).place W.card w ≤
      s.place W.card w := by
    by_cases hw : w = x
    · subst hw
      simp [State.place, State.room, State.stale, hpc, Pc.rank, State.goto, State.storeOlder]
    · exact (place_eq (State.goto_pc_of_ne _ _ _ hw) rfl rfl).le
  exact Nat.add_le_add_right (Nat.add_le_add_right hplace _) _

/-- The threads that have started are the same behind such a failure. -/
theorem retry_idle_iff (hstep : step c s (.retry x) = some t) (w : Nat) :
    t.pc w = .idle ↔ s.pc w = .idle := by
  obtain ⟨writers, hpc, rfl⟩ := retry_cases hstep
  by_cases hw : w = x
  · subst hw
    simp [hpc]
  · rw [State.goto_pc_of_ne _ _ _ hw]
    rfl

/-- A thread constructs its writer. -/
def Action.isStart : Action → Bool
  | .start _ => true
  | _ => false

/-- A thread takes a step, as opposed to the start of one and to a spurious failure. -/
def Action.isMove : Action → Bool
  | .move .. => true
  | _ => false

/-- A step or a failure, in a run without starts. -/
theorem step_idle_iff {a : Action} (ha : a.isStart = false) (hstep : step c s a = some t)
    (w : Nat) : t.pc w = .idle ↔ s.pc w = .idle := by
  cases a with
  | start x => cases ha
  | retry x => exact retry_idle_iff hstep w
  | move x path => exact move_idle_iff hstep w

/-- A run without starts starts nobody. -/
theorem run_idle_iff {actions : List Action} (hstarts : ∀ a ∈ actions, a.isStart = false)
    (hrun : (system c).run actions s = some t) (w : Nat) : t.pc w = .idle ↔ s.pc w = .idle := by
  induction actions generalizing s with
  | nil =>
      cases hrun
      exact Iff.rfl
  | cons a rest ih =>
      simp only [System.run, bind, Option.bind_eq_some_iff] at hrun
      obtain ⟨u, hu, hrest⟩ := hrun
      exact (ih (fun b hb => hstarts b (List.mem_cons_of_mem _ hb)) hrest).trans
        (step_idle_iff (hstarts a List.mem_cons_self) hu w)

/-- A run without starts has no more steps than the potential at its beginning. -/
theorem Sim.run_length (h : Sim c s v) (hW : ∀ w ∉ W, s.pc w = .idle) {actions : List Action}
    (hstarts : ∀ a ∈ actions, a.isStart = false) (hrun : (system c).run actions s = some t) :
    actions.countP Action.isMove + t.potential W ≤ s.potential W ∧ ∃ v', Sim c t v' := by
  induction actions generalizing s v with
  | nil =>
      cases hrun
      exact ⟨by simp, v, h⟩
  | cons a rest ih =>
      simp only [System.run, bind, Option.bind_eq_some_iff] at hrun
      obtain ⟨u, hu, hrest⟩ := hrun
      have ha := hstarts a List.mem_cons_self
      obtain ⟨v', hv'⟩ := h.step hu
      obtain ⟨hle, hend⟩ := ih hv' (fun w hw => (step_idle_iff ha hu w).mpr (hW w hw))
        (fun b hb => hstarts b (List.mem_cons_of_mem _ hb)) hrest
      refine ⟨?_, hend⟩
      rw [List.countP_cons]
      cases a with
      | start x => cases ha
      | retry x =>
          have hkeep : u.potential W ≤ s.potential W := potential_retry (c := c) hu
          simp only [Action.isMove, Bool.false_eq_true, if_false]
          omega
      | move x path =>
          have hlt := h.potential_move hW hu
          simp only [Action.isMove, if_true]
          omega

/-- Every write comes to an end, as long as no write stall begins. From any reachable state, the
threads of the writers that have started take only so many steps, whatever the order of these steps
and however often a weak exchange fails without a reason; and when none of them can go on, all have
returned and the list is empty. -/
theorem every_write_completes {c : Config} {s t : State} {W : Finset Nat} {actions : List Action}
    (h : (system c).Reachable (fun _ _ => True) s) (hW : ∀ w ∉ W, s.pc w = .idle)
    (hstarts : ∀ a ∈ actions, a.isStart = false) (hrun : (system c).run actions s = some t) :
    actions.countP Action.isMove ≤ W.card * (4 * W.card + 25) ∧
      ((∀ x path, step c t (.move x path) = none) →
        t.newestWriter = none ∧ ∀ w, s.pc w ≠ .idle → t.pc w = .returned) := by
  obtain ⟨v, hv⟩ := sim_reachable h
  obtain ⟨hle, v', hv'⟩ := hv.run_length hW hstarts hrun
  have hbound := s.potential_le W
  refine ⟨by omega, fun hstuck => ?_⟩
  obtain ⟨hempty, hall⟩ := hv'.all_returned fun x => hstuck x .skip
  refine ⟨hempty, fun w hw => (hall w).resolve_left fun heq => hw ?_⟩
  exact (run_idle_iff hstarts hrun w).mp heq

/-- The steps by which the writers 0 and 1 return as a group, and then writer 2. The exchange of
writer 0 fails once without a reason. -/
def threeReturn : List Action :=
  moves 0 1 ++ .retry 0 :: threeInsert.drop 1 ++ moves 1 8 ++ moves 2 4 ++ moves 0 1

/-- After these steps all three have returned. -/
theorem every_write_completes_three :
    ∃ t, (system threeWriters).run threeReturn ((system threeWriters).after threeStart) = some t ∧
      threeReturn.countP Action.isMove ≤ 3 * (4 * 3 + 25) ∧ t.newestWriter = none ∧
      ∀ w ∈ [0, 1, 2], t.pc w = .returned := by
  have hrun : ((system threeWriters).run threeReturn
      ((system threeWriters).after threeStart)).isSome := by decide
  obtain ⟨t, ht⟩ := Option.isSome_iff_exists.mp hrun
  have hstarts : ∀ a ∈ threeReturn, a.isStart = false := by decide
  have hW : ∀ w ∉ ({0, 1, 2} : Finset Nat),
      ((system threeWriters).after threeStart).pc w = .idle := by
    intro w hw
    simp only [Finset.mem_insert, Finset.mem_singleton, not_or] at hw
    show Function.update (Function.update (Function.update (fun _ => Pc.idle) 0 _) 1 _) 2 _ w = _
    rw [Function.update_of_ne hw.2.2, Function.update_of_ne hw.2.1, Function.update_of_ne hw.1]
  have hstuck : ∀ x path, step threeWriters t (.move x path) = none := by
    intro x path
    have hidle := run_idle_iff hstarts ht x
    have hlast : ∀ w ∈ [0, 1, 2], ((system threeWriters).run threeReturn
        ((system threeWriters).after threeStart)).map (fun t => t.pc w) = some .returned := by
      decide
    by_cases hx : x ∈ ({0, 1, 2} : Finset Nat)
    · have hpc := hlast x (by simpa using hx)
      rw [ht] at hpc
      simp [step, State.move, Option.some.inj hpc]
    · simp [step, State.move, hidle.mpr (hW x hx)]
  have hend := every_write_completes (System.reachable_after_free (by decide)) hW hstarts ht
  refine ⟨t, ht, hend.1, (hend.2 hstuck).1, fun w hw => (hend.2 hstuck).2 w ?_⟩
  revert w
  decide

end P2KVS.WriteThread
