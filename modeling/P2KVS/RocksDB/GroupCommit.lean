import Mathlib.Algebra.GroupWithZero.Nat
import Mathlib.Algebra.BigOperators.Group.List.Basic
import Mathlib.Data.List.GetD
import P2KVS.Foundation.Transition

/-!
# Group commit in the modified RocksDB

`DBImpl::WriteImpl` with `allow_concurrent_memtable_write`, without pipelined, unordered or
two-queue writes, without write callbacks, and with sequence numbers per key. A leader forms a group
of writers, assigns sequence numbers and writes the WAL. A group without merges is then applied by
its writers in parallel: each inserts its batch and decrements `running`, and the one that finds it
at one publishes the last sequence. The leader publishes its local variable; a follower publishes
the field `last_sequence` of the write group. p2KVS has commented out the assignment of that field,
so it holds whatever the leader's stack held before.

Sequence numbers are natural numbers: RocksDB limits them to 56 bits.
-/

namespace P2KVS.GroupCommit

open Transition

/-- What `WriteImpl` reads of a `WriteThread::Writer` and its batch. -/
structure Writer where
  count : Nat
  hasMerge : Bool
  disableMemtable : Bool
  deriving DecidableEq, Repr

/-- The entries of the writer's batch that take a sequence number: those of a batch that should be
written to the memtable. -/
def Writer.entries (w : Writer) : Nat :=
  if w.disableMemtable then 0 else w.count

/-- Where a member of a parallel group stands. -/
inductive Phase where
  | inserting
  | inserted
  | waiting
  deriving DecidableEq, Repr

/-- `WriteThread::WriteGroup` together with what its members hold: the assigned sequence numbers,
the leader's local `last_sequence`, and where each member stands. The leader is member 0. -/
structure WriteGroup where
  writers : List Writer
  sequences : List Nat
  parallel : Bool
  lastSequence : Nat
  leaderSequence : Nat
  running : Nat
  phase : Nat → Phase

/-- `versions_->LastSequence()`, the group being written, and the sequence numbers in the
memtable. -/
structure State where
  lastSequence : Nat
  group : Option WriteGroup
  memtable : List Nat

/-- A leader forms a group, where `stale` is what the uninitialised field `last_sequence` holds; a
member inserts its batch; a member completes. -/
inductive Action where
  | lead (writers : List Writer) (stale : Nat)
  | insert (i : Nat)
  | complete (i : Nat)
  deriving DecidableEq, Repr

/-- The loop that sets `writer->sequence`. -/
def assign (nextSequence : Nat) : List Writer → List Nat
  | [] => []
  | w :: rest => nextSequence :: assign (nextSequence + w.entries) rest

/-- `total_count`. -/
def totalCount (writers : List Writer) : Nat :=
  (writers.map Writer.entries).sum

/-- The group that a leader forms and launches, when the last sequence is `last`. -/
def launch (last : Nat) (writers : List Writer) (stale : Nat) : WriteGroup where
  writers := writers
  sequences := assign (last + 1) writers
  parallel := 1 < writers.length && writers.all fun w => w.disableMemtable || !w.hasMerge
  lastSequence := stale
  leaderSequence := last + totalCount writers
  running := writers.length
  phase := fun _ => .inserting

/-- The sequence numbers that `InsertInto` gives to the entries of one batch. -/
def numbers (w : Writer) (sequence : Nat) : List Nat :=
  List.range' sequence w.entries

namespace WriteGroup

/-- The sequence numbers given to the entries of each batch of the group. -/
def batches (g : WriteGroup) : List (List Nat) :=
  g.writers.zipWith numbers g.sequences

/-- The sequence numbers that member `i` inserts. The leader of a group that is not parallel inserts
all batches. -/
def inserts (g : WriteGroup) (i : Nat) : List Nat :=
  if g.parallel then g.batches.getD i [] else g.batches.flatten

/-- Member `i` acts on its own: every member of a parallel group, the leader of another one. -/
def Acts (g : WriteGroup) (i : Nat) : Prop :=
  i < g.writers.length ∧ (g.parallel = true ∨ i = 0)

/-- Which members act can be computed. -/
instance decidableActs (g : WriteGroup) (i : Nat) : Decidable (g.Acts i) :=
  inferInstanceAs (Decidable (_ ∧ _))

/-- `CompleteParallelMemTableWriter`: whether the member that completes now performs the exit. A
group that is not parallel is left by its leader. -/
def isLast (g : WriteGroup) : Bool :=
  !g.parallel || g.running ≤ 1

/-- The value that member `i` passes to `SetLastSequence` when it performs the exit. -/
def publishes (g : WriteGroup) (i : Nat) : Nat :=
  if i = 0 then g.leaderSequence else g.lastSequence

end WriteGroup

/-- One step of the writers. -/
def step (s : State) : Action → Option State
  | .lead writers stale =>
      if s.group.isNone ∧ writers ≠ [] then
        some { s with group := some (launch s.lastSequence writers stale) }
      else none
  | .insert i => do
      let g ← s.group
      if g.Acts i ∧ g.phase i = .inserting then
        some { s with
          memtable := s.memtable ++ g.inserts i
          group := some { g with phase := Function.update g.phase i .inserted } }
      else none
  | .complete i => do
      let g ← s.group
      if g.Acts i ∧ g.phase i = .inserted then
        if g.isLast then some { s with lastSequence := g.publishes i, group := none }
        else some { s with
          group := some { g with
            running := g.running - 1
            phase := Function.update g.phase i .waiting } }
      else none

/-- The writers of an instance whose last sequence is `start` and whose memtable is empty. -/
def system (start : Nat) : System State Action where
  init := ⟨start, none, []⟩
  step := step

/-- What a step can do: launch a group, insert, complete behind others, or leave the group. -/
theorem step_cases {s t : State} {a : Action} (h : step s a = some t) :
    (∃ writers stale, a = .lead writers stale ∧ s.group = none ∧
      t = { s with group := some (launch s.lastSequence writers stale) }) ∨
    ∃ g i, s.group = some g ∧ g.Acts i ∧
      (a = .insert i ∧ g.phase i = .inserting ∧ t = { s with
          memtable := s.memtable ++ g.inserts i
          group := some { g with phase := Function.update g.phase i .inserted } } ∨
      a = .complete i ∧ g.phase i = .inserted ∧
        (g.isLast = false ∧ t = { s with
          group := some { g with
            running := g.running - 1
            phase := Function.update g.phase i .waiting } } ∨
        g.isLast = true ∧ t = { s with lastSequence := g.publishes i, group := none })) := by
  cases a with
  | lead writers stale =>
      simp only [step] at h
      split_ifs at h with hlead
      cases h
      exact .inl ⟨writers, stale, rfl, Option.isNone_iff_eq_none.mp hlead.1, rfl⟩
  | insert i =>
      simp only [step, bind, Option.bind_eq_some_iff] at h
      obtain ⟨g, hg, h⟩ := h
      split_ifs at h with hguard
      cases h
      exact .inr ⟨g, i, hg, hguard.1, .inl ⟨rfl, hguard.2, rfl⟩⟩
  | complete i =>
      simp only [step, bind, Option.bind_eq_some_iff] at h
      obtain ⟨g, hg, h⟩ := h
      split_ifs at h with hguard hlast
      · cases h
        exact .inr ⟨g, i, hg, hguard.1, .inr ⟨rfl, hguard.2, .inr ⟨hlast, rfl⟩⟩⟩
      · cases h
        exact .inr ⟨g, i, hg, hguard.1, .inr ⟨rfl, hguard.2, .inl ⟨by simpa using hlast, rfl⟩⟩⟩

/-- What a group keeps from its launch. -/
structure Launched (last : Nat) (g : WriteGroup) : Prop where
  leader : g.leaderSequence = last + totalCount g.writers
  sequences : g.sequences = assign (last + 1) g.writers

/-- In every reachable state the group was launched from the current last sequence. -/
theorem launched_reachable {start : Nat} {allowed : State → Action → Prop} {s : State}
    (h : (system start).Reachable allowed s) :
    ∀ g, s.group = some g → Launched s.lastSequence g := by
  refine h.invariant (I := fun s => ∀ g, s.group = some g → Launched s.lastSequence g) ?_ ?_
  · intro g hg
    cases hg
  intro s a t _ hinv _ hstep g' hg'
  obtain ⟨writers, stale, _, _, rfl⟩ | ⟨g, i, hg, _, ⟨_, _, rfl⟩ | ⟨_, _, ⟨_, rfl⟩ | ⟨_, rfl⟩⟩⟩ :=
    step_cases hstep
  · cases hg'
    exact ⟨rfl, rfl⟩
  · cases hg'
    exact ⟨(hinv g hg).leader, (hinv g hg).sequences⟩
  · cases hg'
    exact ⟨(hinv g hg).leader, (hinv g hg).sequences⟩
  · cases hg'

/-- The numbers assigned behind `last` lie above it and within the total count. -/
theorem mem_assigned {writers : List Writer} {last n : Nat}
    (h : n ∈ (writers.zipWith numbers (assign (last + 1) writers)).flatten) :
    last < n ∧ n ≤ last + totalCount writers := by
  induction writers generalizing last with
  | nil => simp at h
  | cons w rest ih =>
      rw [assign, List.zipWith_cons_cons, List.flatten_cons, List.mem_append,
        Nat.add_right_comm] at h
      have htotal : totalCount (w :: rest) = w.entries + totalCount rest := by
        simp [totalCount]
      obtain hhead | hrest := h
      · rw [numbers, List.mem_range'_1] at hhead
        omega
      · have := ih hrest
        omega

/-- The numbers of a launched group lie within its total count. -/
theorem Launched.batches_le {last : Nat} {g : WriteGroup} (h : Launched last g) {n : Nat}
    (hn : n ∈ g.batches.flatten) : n ≤ last + totalCount g.writers := by
  rw [WriteGroup.batches, h.sequences] at hn
  exact (mem_assigned hn).2

/-- A member inserts numbers of its group. -/
theorem inserts_subset {g : WriteGroup} {i n : Nat} (h : n ∈ g.inserts i) :
    n ∈ g.batches.flatten := by
  unfold WriteGroup.inserts at h
  split_ifs at h
  · rcases Nat.lt_or_ge i g.batches.length with hi | hi
    · rw [List.getD_eq_getElem _ _ hi] at h
      exact List.mem_flatten.mpr ⟨_, List.getElem_mem hi, h⟩
    · rw [List.getD_eq_default _ _ hi] at h
      cases h
  · exact h

/-- The condition under which a parallel group is left correctly: the leader completes last, or the
field that the follower publishes holds the right value anyway. -/
def LeaderCompletesLast (s : State) : Action → Prop
  | .complete i => ∀ g, s.group = some g → g.parallel = true → g.isLast = true →
      i = 0 ∨ g.lastSequence = s.lastSequence + totalCount g.writers
  | _ => True

/-- The condition is about the state before the step, and can be computed. -/
instance decidableLeaderCompletesLast (s : State) :
    (a : Action) → Decidable (LeaderCompletesLast s a)
  | .lead _ _ => isTrue trivial
  | .insert _ => isTrue trivial
  | .complete i =>
      match hg : s.group with
      | none => isTrue (by simp [LeaderCompletesLast, hg])
      | some g =>
          decidable_of_iff (g.parallel = true → g.isLast = true →
            i = 0 ∨ g.lastSequence = s.lastSequence + totalCount g.writers)
            (by simp [LeaderCompletesLast, hg])

/-- Leaving a group under the condition publishes the sequence number of its last entry. -/
theorem Launched.publishes_eq {s : State} {g : WriteGroup} (h : Launched s.lastSequence g) {i : Nat}
    (hg : s.group = some g) (hacts : g.Acts i) (hlast : g.isLast = true)
    (hgood : LeaderCompletesLast s (.complete i)) :
    g.publishes i = s.lastSequence + totalCount g.writers := by
  unfold WriteGroup.publishes
  split_ifs with hi
  · exact h.leader
  · -- only a parallel group has a follower that acts
    have hparallel : g.parallel = true := hacts.2.resolve_right hi
    exact (hgood g hg hparallel hlast).resolve_left hi

/-- What a step under the condition does to the last sequence. -/
theorem step_lastSequence {s t : State} {a : Action}
    (hinv : ∀ g, s.group = some g → Launched s.lastSequence g) (hgood : LeaderCompletesLast s a)
    (hstep : step s a = some t) :
    t.lastSequence = s.lastSequence ∧ (∀ g, s.group = some g → t.group ≠ none) ∨
      ∃ g, s.group = some g ∧ t.group = none ∧ t.memtable = s.memtable ∧
        t.lastSequence = s.lastSequence + totalCount g.writers := by
  obtain ⟨writers, stale, _, _, rfl⟩ |
    ⟨g, i, hg, hi, ⟨_, _, rfl⟩ | ⟨rfl, _, ⟨_, rfl⟩ | ⟨hl, rfl⟩⟩⟩ := step_cases hstep
  · exact .inl ⟨rfl, by simp⟩
  · exact .inl ⟨rfl, by simp⟩
  · exact .inl ⟨rfl, by simp⟩
  · exact .inr ⟨g, hg, rfl, rfl, (hinv g hg).publishes_eq hg hi hl hgood⟩

/-- The last sequence that the group being written will have taken. -/
def State.reserved (s : State) : Nat :=
  match s.group with
  | none => s.lastSequence
  | some g => s.lastSequence + totalCount g.writers

/-- In a run under the condition, no entry of the memtable has a number above the reserved ones. -/
theorem memtable_le_reserved {start : Nat} {s : State}
    (h : (system start).Reachable LeaderCompletesLast s) : ∀ n ∈ s.memtable, n ≤ s.reserved := by
  refine h.invariant (I := fun s => ∀ n ∈ s.memtable, n ≤ s.reserved) ?_ ?_
  · intro n hn
    cases hn
  intro s a t hs hinv hgood hstep n hn
  have hlaunched := launched_reachable hs
  obtain ⟨writers, stale, _, hnone, rfl⟩ |
    ⟨g, i, hg, hi, ⟨_, _, rfl⟩ | ⟨rfl, _, ⟨_, rfl⟩ | ⟨hl, rfl⟩⟩⟩ := step_cases hstep
  · have hold := hinv n hn
    simp only [State.reserved, hnone, launch] at hold ⊢
    omega
  · simp only [State.reserved]
    rcases List.mem_append.mp hn with hn | hn
    · have hold := hinv n hn
      simpa only [State.reserved, hg] using hold
    · exact (hlaunched g hg).batches_le (inserts_subset hn)
  · have hold := hinv n hn
    simpa only [State.reserved, hg] using hold
  · have hold := hinv n hn
    simp only [State.reserved, hg] at hold ⊢
    rwa [(hlaunched g hg).publishes_eq hg hi hl hgood]

/-- A run under the condition never takes the last sequence back. -/
theorem run_lastSequence_mono {start : Nat} {actions : List Action} {s t : State}
    (h : (system start).Reachable LeaderCompletesLast s)
    (hgood : (system start).Always LeaderCompletesLast actions s)
    (hrun : (system start).run actions s = some t) : s.lastSequence ≤ t.lastSequence := by
  induction actions generalizing s with
  | nil =>
      cases hrun
      exact Nat.le_refl _
  | cons a rest ih =>
      simp only [System.run, bind, Option.bind_eq_some_iff] at hrun
      obtain ⟨u, hu, hrest⟩ := hrun
      simp only [System.Always, hu] at hgood
      have hstep : s.lastSequence ≤ u.lastSequence := by
        obtain ⟨heq, _⟩ | ⟨g, _, _, _, heq⟩ :=
          step_lastSequence (launched_reachable h) hgood.1 hu <;> omega
      exact Nat.le_trans hstep (ih (h.step hgood.1 hu) hgood.2 hrest)

/-- A parallel group is left with the right last sequence exactly when its leader completes last, or
when the uninitialised field holds the right value. In every run in which each group is left so:
leaving a group publishes the sequence number of its last entry, which no number of the group
exceeds; between groups no entry of the memtable has a number above the published one; and the
published one never decreases. -/
theorem group_commit_publishes {start : Nat} :
    (∀ {s t : State} {g : WriteGroup} {i : Nat}, (system start).Reachable (fun _ _ => True) s →
      s.group = some g → g.parallel = true → g.isLast = true → step s (.complete i) = some t →
      (t.lastSequence = s.lastSequence + totalCount g.writers ↔
        i = 0 ∨ g.lastSequence = s.lastSequence + totalCount g.writers)) ∧
    (∀ {s : State}, (system start).Reachable LeaderCompletesLast s →
      (∀ {a : Action} {t : State} {g : WriteGroup}, LeaderCompletesLast s a → step s a = some t →
        s.group = some g → t.group = none →
        t.lastSequence = s.lastSequence + totalCount g.writers ∧
          ∀ n ∈ g.batches.flatten, n ≤ t.lastSequence) ∧
      (s.group = none → ∀ n ∈ s.memtable, n ≤ s.lastSequence) ∧
      ∀ {actions : List Action} {t : State}, (system start).Always LeaderCompletesLast actions s →
        (system start).run actions s = some t → s.lastSequence ≤ t.lastSequence) := by
  refine ⟨?_, ?_⟩
  · intro s t g i h hg _ hlast hstep
    have hlaunched := launched_reachable h g hg
    simp only [step, hg, bind, Option.bind_some, hlast, if_true] at hstep
    split_ifs at hstep
    cases hstep
    simp only [WriteGroup.publishes]
    split_ifs with hi
    · simp [hi, hlaunched.leader]
    · simp [hi]
  · intro s h
    have hlaunched := launched_reachable h
    refine ⟨?_, ?_, fun hgood hrun => run_lastSequence_mono h hgood hrun⟩
    · intro a t g hgood hstep hg hleft
      obtain ⟨_, hkept⟩ | ⟨g', hg', _, _, heq⟩ := step_lastSequence hlaunched hgood hstep
      · exact absurd hleft (hkept g hg)
      · obtain rfl : g' = g := Option.some.inj (hg'.symm.trans hg)
        exact ⟨heq, fun n hn => heq ▸ (hlaunched g' hg).batches_le hn⟩
    · intro hnone n hn
      have hle := memtable_le_reserved h n hn
      simpa only [State.reserved, hnone] using hle

/-- Two plain writers. -/
def twoWriters : List Writer :=
  [⟨1, false, false⟩, ⟨1, false, false⟩]

/-- The follower completes first and the leader leaves the group. -/
def leaderLast : List Action :=
  [.lead twoWriters 0, .insert 0, .insert 1, .complete 1]

/-- The leader completes last and publishes the numbers of both writers. -/
theorem group_commit_publishes_leader_last :
    let s := (system 10).after leaderLast
    ∃ g t, s.group = some g ∧ step s (.complete 0) = some t ∧
      t.lastSequence = s.lastSequence + totalCount g.writers ∧
      ∀ n ∈ g.batches.flatten, n ≤ t.lastSequence := by
  intro s
  have hreach : (system 10).Reachable LeaderCompletesLast s :=
    System.reachable_after (by decide) (by decide)
  have hexit : LeaderCompletesLast s (.complete 0) := fun _ _ _ _ => .inl rfl
  exact ⟨_, _, rfl, rfl, (group_commit_publishes.2 hreach).1 hexit rfl rfl rfl⟩

/-- The leader completes first and the follower leaves the group. -/
def followerLast : List Action :=
  [.lead twoWriters 0, .insert 0, .insert 1, .complete 0, .complete 1]

/-- When the follower leaves the group it publishes the uninitialised field: the last sequence falls
from 10 to 0, below the numbers 11 and 12 of the entries in the memtable. -/
theorem follower_publishes_stale_sequence :
    ((system 10).run followerLast (system 10).init).map (fun s => (s.lastSequence, s.memtable)) =
      some (0, [11, 12]) ∧ 10 + totalCount twoWriters = 12 := by
  decide

end P2KVS.GroupCommit
