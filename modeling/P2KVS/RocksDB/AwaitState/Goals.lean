import P2KVS.RocksDB.AwaitState.Wakeup
import P2KVS.RocksDB.Queue.Completion

/-!
# What the threads wait for

What `Wait.set_state_wakes_waiter` assumes about a call of `SetState` holds of every one that the
write thread makes on the writer of another thread. `BlockingAwaitState` rests on this: it takes a
changed state as the one it waits for.
-/

namespace P2KVS.WriteThread

open Transition

/-- The goal mask with which a thread waits: in `JoinBatchGroup` for every state behind the first
one, in `EnterUnbatched` to lead, and in `CompleteParallelMemTableWriter` for its release. -/
def Pc.goal : Pc → Option (WriterState → Bool)
  | .await => some fun state => state ≠ .init
  | .awaitAlone => some fun state => state = .groupLeader
  | .awaitCompleted => some fun state => state = .completed
  | _ => none

section Goals

variable {c : Config} {s t : State} {v : View} {x w : Nat}

/-- A thread that waits goes on when its state is one that it waits for, as in `Wait.atomic`. -/
theorem isSome_move_of_goal {goal : WriterState → Bool} (hgoal : (s.pc x).goal = some goal)
    (path : Path) : (s.move c x path).isSome = goal (s.state x) := by
  cases hpc : s.pc x <;> simp only [hpc, Pc.goal, Option.some.injEq, reduceCtorEq] at hgoal <;>
    subst hgoal <;> simp only [State.move, State.joinBatchGroup, hpc]
  · cases s.state x <;> rfl
  · split_ifs with hstate <;> simp [hstate]
  · split_ifs with hstate <;> simp [hstate]

/-- A member that waits for its release has it in its goal, and its state is another one. -/
theorem Held.goal (h : Held s w) : ∃ goal, (s.pc w).goal = some goal ∧
    goal (s.state w) = false ∧ goal .completed = true := by
  obtain ⟨hpc, hstate⟩ | ⟨hpc, hstate⟩ := h <;> rw [hpc, hstate] <;> exact ⟨_, rfl, rfl, rfl⟩

/-- A writer behind the front group has the leadership in its goal, and its state is another one. -/
theorem Pending.goal (h : Pending c s w) : ∃ goal, (s.pc w).goal = some goal ∧
    goal (s.state w) = false ∧ goal .groupLeader = true := by
  obtain ⟨hstate, ⟨hpc, _⟩ | ⟨hpc, _⟩⟩ := h <;> rw [hpc, hstate] <;> exact ⟨_, rfl, rfl, rfl⟩

/-- The only state that a `SetState` changes is that of its writer. -/
theorem eq_of_setState {y : Nat} {new : WriterState} {p : Pc} {u : State}
    (hstate : u.state = s.state)
    (hchange : ((u.setState y new).goto x p).state w ≠ s.state w) : w = y := by
  by_contra hne
  refine hchange ?_
  show (u.setState y new).state w = s.state w
  rw [State.setState_state_of_ne _ _ hne, hstate]

/-- A `SetState` on the writer of another thread finds it waiting for the new state. -/
theorem Sim.meets_goal (h : Sim c s v) {path : Path} (hstep : s.move c x path = some t)
    (hne : w ≠ x) (hchange : t.state w ≠ s.state w) : ∃ goal, (s.pc w).goal = some goal ∧
      goal (s.state w) = false ∧ goal (t.state w) = true := by
  have hsets : (s.pc x).sets := by
    cases goes_move hstep with
    | failed => exact absurd rfl hchange
    | goto _ hstate => exact absurd (congrFun hstate w) hchange
    | set _ hsets => exact hsets
  cases hpc : s.pc x <;> simp only [hpc, Pc.sets] at hsets <;>
    simp only [State.move, hpc, Option.some.injEq] at hstep <;> subst hstep
  case selfLead => exact absurd (eq_of_setState rfl hchange) hne
  case launch y =>
    obtain ⟨rest, told, p, hfront, -, hl, hy, -, hstep⟩ := h.launch_eq hpc
    rw [hstep] at hchange ⊢
    obtain rfl := eq_of_setState rfl hchange
    obtain ⟨hwait, hstate⟩ := hl.waiting told w (Nat.le_refl _) hy hne
    rw [hwait, hstate]
    exact ⟨_, rfl, rfl, by simp [State.goto]⟩
  case handoff leader last =>
    obtain ⟨next, others, hothers, -, hstep⟩ := h.handoff_eq hpc
    rw [hstep] at hchange ⊢
    obtain rfl := eq_of_setState rfl hchange
    obtain ⟨goal, hgoal, hold, hnew⟩ := (h.pending w (by simp [hothers])).goal
    exact ⟨goal, hgoal, hold, by simpa [State.goto] using hnew⟩
  case drain leader last =>
    obtain ⟨l₁, d, l₂, rest, -, rfl, -, hg, hlast, hpos, hok⟩ := h.draining_of_pc hpc
    by_cases hend : last = leader
    · simp [State.drain, hend, State.goto] at hchange
    obtain ⟨-, older, -, -, hstep⟩ := hok.drain_eq hpc hg hlast hpos hend
    rw [hstep] at hchange ⊢
    obtain rfl := eq_of_setState rfl hchange
    obtain ⟨goal, hgoal, hold, hnew⟩ := (hok.held _ w (by omega) hlast hne).goal
    exact ⟨goal, hgoal, hold, by simpa [State.goto] using hnew⟩
  case release leader =>
    obtain ⟨l₁, d, l₂, -, -, -, -, hok, hstep⟩ := h.release_eq hpc
    rw [hstep] at hchange ⊢
    obtain rfl := eq_of_setState rfl hchange
    obtain ⟨goal, hgoal, hold, hnew⟩ := hok.leader.goal
    exact ⟨goal, hgoal, hold, by simpa [State.goto] using hnew⟩

end Goals

/-- The write thread never waits for a transition across intermediate states. In every reachable
state, when a step changes the state of another thread's writer, that thread waits, its old state is
not one it waits for, and the new one is; so it could not go on before the step and can behind
it. -/
theorem set_state_meets_goal {c : Config} {s t : State} {x w : Nat} {path : Path}
    (h : (system c).Reachable (fun _ _ => True) s) (hstep : step c s (.move x path) = some t)
    (hne : w ≠ x) (hchange : t.state w ≠ s.state w) : ∃ goal, (s.pc w).goal = some goal ∧
      goal (s.state w) = false ∧ goal (t.state w) = true ∧
      ∀ path', (step c s (.move w path')).isSome = false ∧
        (step c t (.move w path')).isSome = true := by
  obtain ⟨v, hv⟩ := sim_reachable h
  obtain ⟨goal, hgoal, hold, hnew⟩ := hv.meets_goal hstep hne hchange
  have hpc : t.pc w = s.pc w := (goes_move hstep).pc_of_ne hne
  refine ⟨goal, hgoal, hold, hnew, fun path' => ⟨?_, ?_⟩⟩
  · exact (isSome_move_of_goal hgoal path').trans hold
  · exact (isSome_move_of_goal (hpc ▸ hgoal) path').trans hnew

/-- Writer 0 tells writer 1 to insert its batch. -/
def threeTold : List Action :=
  threeStart ++ moves 0 2 ++ moves 1 2 ++ moves 2 2 ++ moves 0 10

/-- Writer 1 waits in `JoinBatchGroup` when it is told. -/
theorem set_state_meets_goal_three :
    let s := (system threeWriters).after threeTold
    ∃ t goal, step threeWriters s (.move 0 .parallel) = some t ∧ (s.pc 1).goal = some goal ∧
      goal (s.state 1) = false ∧ goal (t.state 1) = true ∧
      ∀ path', (step threeWriters s (.move 1 path')).isSome = false ∧
        (step threeWriters t (.move 1 path')).isSome = true := by
  intro s
  have htold : (step threeWriters s (.move 0 .parallel)).map (fun t => t.state 1) =
      some .parallelMemtableWriter := by decide
  obtain ⟨t, hstep, hstate⟩ := Option.map_eq_some_iff.mp htold
  have hinit : s.state 1 = .init := by decide
  have hchange : t.state 1 ≠ s.state 1 := by
    rw [hstate, hinit]
    decide
  obtain ⟨goal, hgoal⟩ := set_state_meets_goal (System.reachable_after_free (by decide)) hstep
    (by decide) hchange
  exact ⟨t, goal, hstep, hgoal⟩

end P2KVS.WriteThread
