import Mathlib.Data.List.Pairwise
import P2KVS.RocksDB.Queue.Safety

/-!
# What a step does to the closed groups

`Turn` says, place by place, what a step of one thread does to the groups that have been closed: who
the members are, which states change, and where the thread goes on. Everything that `WriteImpl` adds
to the write thread is proved by cases on it.
-/

namespace P2KVS.WriteThread

open Intrusive

/-- A closed group that is still on the list, led by `g`. -/
structure Current (s : State) (M : List Nat) (g : Nat) : Prop where
  last : s.formed.getLast? = some M
  head : M.head? = some g
  nodup : M.Nodup
  size : (s.group g).size = M.length
  group : ∀ w ∈ M, s.writeGroup w = some g
  members : s.members g = M

/-- A closed group whose members insert their batches. -/
structure Inserting (s : State) (M : List Nat) (g : Nat) : Prop extends Current s M g where
  leader : (∃ w, s.pc g = .launch w) ∨ Working (s.pc g)
  place : ∀ w ∈ M, s.pc w = .await ∨ (∃ y, s.pc w = .launch y) ∨ Working (s.pc w)
  state : ∀ w ∈ M, s.state w ≠ .completed
  told : (∃ w, s.pc g = .launch w) ∨ ∀ w ∈ M, s.state w = .parallelMemtableWriter

/-- A closed group that has left the list, led by `g`. -/
structure Past (s : State) (M : List Nat) (g : Nat) : Prop where
  formed : M ∈ s.formed
  head : M.head? = some g

/-- Thread `x` is in no closed group, and its step changes nothing for the members of one. Only
writers with a batch join a write group. -/
structure Outside (c : Config) (s : State) (x : Nat) (t : State) : Prop where
  not_mem : x ∉ s.formed.flatten
  formed : t.formed = s.formed
  pc : ∀ w, w ≠ x → t.pc w = s.pc w
  state : ∀ w ∈ s.formed.flatten, t.state w = s.state w
  writeGroup : ∀ w ∈ s.formed.flatten, t.writeGroup w = s.writeGroup w
  group : ∀ w ∈ s.formed.flatten, t.group w = s.group w
  batch : ∀ w, t.writeGroup w = s.writeGroup w ∨ (c.request w).batch ≠ none

/-- The places before a writer leads. -/
def Pc.early : Pc → Prop
  | .idle | .load | .link _ | .selfLead | .await | .awaitAlone | .alone | .preprocess => True
  | _ => False

/-- The places in which a leader gathers its group. -/
def Pc.gathering : Pc → Prop
  | .createLinks .. | .gather .. => True
  | _ => False

/-- The places between the load of the newest writer at the exit of the group of `g` and the end of
the release. -/
def Pc.leaving (g : Nat) : Pc → Prop
  | .exitCas leader _ | .exitLinks leader _ _ | .handoff leader _ | .drain leader _ => leader = g
  | _ => False

/-- What a step of thread `x` does. -/
inductive Turn (c : Config) (s : State) (x : Nat) : Path → State → Prop where
  | early {path : Path} {t : State} : Outside c s x t → (s.pc x).early → s.pc x ≠ .preprocess →
      (t.pc x).early → Turn c s x path t
  | preprocess {path : Path} {t : State} : Outside c s x t → s.pc x = .preprocess →
      t.pc x = .enter →
      Turn c s x path t
  | enter {path : Path} {t : State} : Outside c s x t → s.pc x = .enter → (t.pc x).gathering →
      Turn c s x path t
  | gather {path : Path} {t : State} : Outside c s x t → (s.pc x).gathering → (t.pc x).gathering →
      Turn c s x path t
  | close {path : Path} : (s.pc x).gathering → (s.members x).head? = some x →
      (s.members x).Nodup → (s.group x).size = (s.members x).length →
      (∀ w ∈ s.members x, s.writeGroup w = some x ∧ w ∉ s.formed.flatten) →
      (∀ w ∈ s.members x, w ≠ x → Waiting s w) → Turn c s x path (s.close x)
  | alone {path : Path} : s.pc x = .alone → (c.request x).batch = none → x ∉ s.formed.flatten →
      Turn c s x path ({ s with formed := s.formed ++ [[x]] }.goto x (.exitCas x x))
  | apply {path : Path} {M : List Nat} {t : State} : Current s M x → s.pc x = .apply →
      (∀ w ∈ M, w ≠ x → Waiting s w) → s.state x = .groupLeader → s.apply x path = some t →
      Turn c s x path t
  | insertGroup {path : Path} {M : List Nat} : Current s M x → s.pc x = .insertGroup →
      (∀ w ∈ M, w ≠ x → Waiting s w) → Turn c s x path (s.goto x .publish)
  | launch {path : Path} {M : List Nat} {w : Nat} {p : Pc} : Inserting s M x → s.pc x = .launch w →
      w ∈ M → (p = .insert ∨ ∃ y, p = .launch y) →
      Turn c s x path ((s.setState w .parallelMemtableWriter).goto x p)
  | join {path : Path} {M : List Nat} {g : Nat} : Inserting s M g → x ∈ M → s.pc x = .await →
      s.state x = .parallelMemtableWriter → Turn c s x path (s.goto x .insert)
  | insert {path : Path} {M : List Nat} {g : Nat} : Inserting s M g → x ∈ M → s.pc x = .insert →
      Turn c s x path (s.goto x .report)
  | report {path : Path} {M : List Nat} {g : Nat} : Inserting s M g → x ∈ M → s.pc x = .report →
      Turn c s x path (s.goto x .complete)
  | wait {path : Path} {M : List Nat} {g : Nat} : Inserting s M g → x ∈ M → s.pc x = .complete →
      1 < (s.group g).running → (∃ w ∈ M, w ≠ x ∧ s.pc w ≠ .awaitCompleted) →
      Turn c s x path ((s.setRunning g ((s.group g).running - 1)).goto x .awaitCompleted)
  | last {path : Path} {M : List Nat} {g : Nat} : Inserting s M g → x ∈ M → s.pc x = .complete →
      (s.group g).running = 1 → (∀ w ∈ M, w ≠ x → s.pc w = .awaitCompleted) →
      Turn c s x path ((s.setRunning g ((s.group g).running - 1)).goto x .publish)
  | publish {path : Path} {M : List Nat} {g : Nat} : Current s M g → x ∈ M → s.pc x = .publish →
      (∀ w ∈ M, w ≠ x → Held s w) → (x ≠ g → s.pc g = .awaitCompleted) →
        Turn c s x path (s.goto x .exitLoad)
  | exitLoad {path : Path} {M : List Nat} {g : Nat} {p : Pc} : Current s M g → x ∈ M →
      s.pc x = .exitLoad → (∀ w ∈ M, w ≠ x → Held s w) → (x ≠ g → s.pc g = .awaitCompleted) →
      p.leaving g →
      Turn c s x path (s.goto x p)
  | exit {path : Path} {M : List Nat} {g : Nat} {t : State} : s.formed.getLast? = some M →
      M.head? = some g → x ∈ M → (s.pc x).leaving g → (s.pc x).exiting →
      (∀ w ∈ M, w ≠ x → Held s w) → t.formed = s.formed → (∀ w, w ≠ x → t.pc w = s.pc w) →
        (t.pc x).leaving g →
      (∀ w ∈ s.formed.flatten, t.state w = s.state w) → t.writeGroup = s.writeGroup →
      t.group = s.group → Turn c s x path t
  | drain {path : Path} {M : List Nat} {g w older : Nat} : Past s M g → x ∈ M →
      s.pc x = .drain g w → w ∈ M → w ≠ g → (w ≠ x → Held s w) →
      Turn c s x path ((s.setState w .completed).goto x (.drain g older))
  | drained {path : Path} {M : List Nat} : Past s M x → s.pc x = .drain x x →
      Turn c s x path (s.goto x .returned)
  | follower {path : Path} {M : List Nat} {g : Nat} : Past s M g → x ∈ M → x ≠ g →
      s.pc x = .drain g g → Turn c s x path (s.goto x (.release g))
  | release {path : Path} {M : List Nat} {g : Nat} : Past s M g → x ∈ M → x ≠ g →
      s.pc x = .release g → s.state x = .completed → s.pc g = .awaitCompleted →
      Turn c s x path ((s.setState g .completed).goto x .returned)
  | returned {path : Path} {M : List Nat} {g : Nat} : Past s M g → x ∈ M →
      s.pc x = .await ∨ s.pc x = .awaitCompleted → s.state x = .completed →
      Turn c s x path (s.goto x .returned)

section Turns

variable {c : Config} {s t : State} {v : View} {x : Nat}

/-! ### The members of closed groups -/

/-- Groups are closed in the order in which their members were linked. -/
theorem Sim.formed_sublist (h : Sim c s v) : s.formed.flatten.Sublist v.linked := by
  rw [h.formed_flatten]
  refine List.Sublist.append_left ?_ _
  split_ifs
  · exact List.nil_sublist _
  · exact List.sublist_append_left ..

/-- No writer is in two closed groups. -/
theorem Sim.formed_nodup (h : Sim c s v) : s.formed.flatten.Nodup :=
  h.formed_sublist.nodup h.nodup

/-- The members of closed groups were linked. -/
theorem Sim.linked_of_formed (h : Sim c s v) (hx : x ∈ s.formed.flatten) : x ∈ v.linked :=
  h.formed_sublist.subset hx

/-- A writer that has not been linked is in no closed group. -/
theorem Sim.not_formed_of_unlinked (h : Sim c s v) (hx : x ∉ v.linked) : x ∉ s.formed.flatten :=
  fun hmem => hx (h.linked_of_formed hmem)

/-- Neither is one behind the front group. -/
theorem Sim.not_formed_of_pending (h : Sim c s v) (hx : x ∈ v.pending) : x ∉ s.formed.flatten := by
  have hq : x ∈ v.queue := List.mem_append_right _ hx
  rw [h.formed_flatten]
  intro hmem
  rcases List.mem_append.mp hmem with hmem | hmem
  · obtain ⟨d, hd, hw⟩ := List.mem_flatMap.mp hmem
    exact h.queue_not_left hd hw hq
  · split_ifs at hmem
    · cases hmem
    · exact h.front_not_pending hmem hx

/-- Neither is a leader that has not closed its group. -/
theorem Sim.not_formed_of_leading (h : Sim c s v) (hphase : v.phase = .leading) (hx : x ∈ v.front) :
    x ∉ s.formed.flatten := by
  rw [h.formed_flatten, if_pos hphase, List.append_nil]
  intro hmem
  obtain ⟨d, hd, hw⟩ := List.mem_flatMap.mp hmem
  exact h.queue_not_left hd hw (List.mem_append_left _ hx)

/-- The front group is the last one that was closed. -/
theorem Sim.formed_last (h : Sim c s v) (hphase : v.phase ≠ .leading) :
    s.formed.getLast? = some v.front := by
  rw [h.closed, View.closed, if_neg hphase]
  simp

/-- The front group behind its closing. -/
theorem Sim.current (h : Sim c s v) {g : Nat} {rest : List Nat} (hfront : v.front = g :: rest)
    (hphase : v.phase ≠ .leading) (hclosed : Closed s v.toLine g) : Current s v.front g := by
  have hlen : v.front.length = rest.length + 1 := by simp [hfront]
  have hget : ∀ i, i < v.front.length → v.queue[i]? = v.front[i]? := fun i hi => by
    rw [Line.queue, List.getElem?_append_left hi]
  have hidx : v.queue[rest.length]? = some (s.group g).lastWriter := by
    rw [hget _ (by omega), ← hclosed.last, List.getLast?_eq_getElem?, hlen, Nat.add_sub_cancel]
  refine ⟨h.formed_last hphase, by simp [hfront], h.front_nodup, hclosed.size, hclosed.group, ?_⟩
  rw [State.members, hclosed.size, hlen]
  rw [State.iterate_eq h.linked.nodup ?_ hidx rest.length 0 g (by omega)
    (by simp [Line.queue, hfront])]
  · rw [List.drop_zero, Line.queue, ← hlen, List.take_left]
  · intro i y hi hy
    exact h.linked.newer_eq hy (hclosed.links i y (by omega) (by rwa [← hget i (by omega)]))

/-- The front group while its members insert. -/
theorem Sim.inserting (h : Sim c s v) {g told : Nat} {rest : List Nat}
    (hfront : v.front = g :: rest)
    (hphase : v.phase = .launched told) (hl : Launched s v.toLine g told) :
    Inserting s v.front g := by
  have hleader : (∃ w, s.pc g = .launch w) ∨ Working (s.pc g) :=
    hl.leader.imp (fun ⟨w, _, hw⟩ => ⟨w, hw⟩) And.right
  refine ⟨h.current hfront (by simp [hphase]) hl.closed, hleader, ?_, ?_, ?_⟩
  · intro w hw
    by_cases hwg : w = g
    · exact .inr (hwg ▸ hleader)
    · obtain ⟨i, hi⟩ := List.mem_iff_getElem?.mp hw
      rcases Nat.lt_or_ge i told with hlt | hge
      · exact (hl.working i w hlt hi hwg).imp_right .inr
      · exact .inl (hl.waiting i w hge hi hwg).1
  · intro w hw
    obtain ⟨i, hi⟩ := List.mem_iff_getElem?.mp hw
    rcases Nat.lt_or_ge i told with hlt | hge
    · simp [hl.state i w hlt hi]
    · by_cases hwg : w = g
      · -- only a group in which nobody has been told has its leader behind `told`
        have hzero : i = 0 := index_inj h.front_nodup hi (by simp [hfront, hwg])
        rw [hwg, hl.first (by omega)]
        simp
      · simp [(hl.waiting i w hge hi hwg).2]
  · refine hl.leader.imp (fun ⟨w, _, hw⟩ => ⟨w, hw⟩) ?_
    rintro ⟨htold, _⟩ w hw
    obtain ⟨i, hi⟩ := List.mem_iff_getElem?.mp hw
    exact hl.state i w (htold ▸ (List.getElem?_eq_some_iff.mp hi).1) hi

/-- A group that has left the list is a past one. -/
theorem Sim.past (h : Sim c s v) {l₁ l₂ : List Detached} {d : Detached} {g : Nat}
    (hleft : v.left = l₁ ++ d :: l₂) (hg : d.members.head? = some g) : Past s d.members g := by
  refine ⟨?_, hg⟩
  rw [h.closed, View.closed, hleft]
  simp

/-! ### The steps outside closed groups -/

/-- A thread outside closed groups goes on and leaves their members alone. -/
theorem Outside.goto (hx : x ∉ s.formed.flatten) {u : State} (hformed : u.formed = s.formed)
    (hpc : u.pc = s.pc) (hstate : ∀ w ∈ s.formed.flatten, u.state w = s.state w)
    (hwrite : ∀ w ∈ s.formed.flatten, u.writeGroup w = s.writeGroup w)
    (hgroup : ∀ w ∈ s.formed.flatten, u.group w = s.group w)
    (hbatch : ∀ w, u.writeGroup w = s.writeGroup w ∨ (c.request w).batch ≠ none) (p : Pc) :
    Outside c s x (u.goto x p) :=
  ⟨hx, hformed, fun w hw => (State.goto_pc_of_ne _ _ _ hw).trans (congrFun hpc w), hstate, hwrite,
    hgroup, hbatch⟩

/-- Only the place of the thread and links change. -/
theorem Outside.of_links (hx : x ∉ s.formed.flatten) {u : State}
    (hsame : (u.formed, u.pc, u.state, u.writeGroup, u.group) =
      (s.formed, s.pc, s.state, s.writeGroup, s.group)) (p : Pc) : Outside c s x (u.goto x p) := by
  simp only [Prod.mk.injEq] at hsame
  obtain ⟨h₁, h₂, h₃, h₄, h₅⟩ := hsame
  exact .goto hx h₁ h₂ (fun w _ => by rw [h₃]) (fun w _ => by rw [h₄]) (fun w _ => by rw [h₅])
    (fun w => .inl (by rw [h₄])) p

/-- A step before leading that only changes links. -/
theorem Turn.of_early {path : Path} {u : State} {p q : Pc} (hx : x ∉ s.formed.flatten)
    (hpc : s.pc x = q) (hq : q.early) (hne : q ≠ .preprocess) (hp : p.early)
    (hsame : (u.formed, u.pc, u.state, u.writeGroup, u.group) =
      (s.formed, s.pc, s.state, s.writeGroup, s.group)) : Turn c s x path (u.goto x p) :=
  .early (.of_links hx hsame p) (hpc ▸ hq) (hpc ▸ hne) (by rwa [State.goto_pc_self])

/-- A writer outside the list is in no closed group. -/
theorem Sim.not_formed_of_outside (h : Sim c s v) {q : Pc} (hpc : s.pc x = q) (hq : q.outside) :
    x ∉ s.formed.flatten :=
  h.not_formed_of_unlinked (h.not_linked (hpc ▸ hq))

/-- A leader's step that touches itself and the writers behind it. -/
theorem Sim.lead_outside (h : Sim c s v) {p : Pc} (hp : s.pc x = p) (hpc : p.leading)
    (hfront : p.inFront) : v.phase = .leading ∧ v.front = [x] ∧ Leading c s v.toLine x ∧
      x ∉ s.formed.flatten := by
  have hx := h.mem_front hp hfront
  obtain ⟨h₁, h₂, h₃⟩ := h.leading_of_pc hp hpc hx
  exact ⟨h₁, h₂, h₃, h.not_formed_of_leading h₁ hx⟩

/-- A leader without a batch of its own marks itself as one. -/
theorem Sim.turn_selfLead (h : Sim c s v) (hpc : s.pc x = .selfLead) {path : Path} :
    Turn c s x path ((s.setState x .groupLeader).goto x .preprocess) := by
  obtain ⟨_, _, _, hx⟩ := h.lead_outside hpc trivial trivial
  refine .early (.goto (u := s.setState x .groupLeader) hx rfl rfl (fun w hw => ?_)
    (fun _ _ => rfl) (fun _ _ => rfl) (fun _ => .inl rfl) _) (by simp [hpc, Pc.early])
      (by simp [hpc]) (by simp [Pc.early])
  have hne : w ≠ x := fun heq => hx (heq ▸ hw)
  exact State.setState_state_of_ne _ _ hne _

/-- A leader opens its group. -/
theorem Sim.turn_enter (h : Sim c s v) (hpc : s.pc x = .enter) {path : Path} :
    Turn c s x path (s.enterAsBatchGroupLeader c x) := by
  obtain ⟨_, _, hlead, hx⟩ := h.lead_outside hpc trivial trivial
  simp only [Leading, hpc] at hlead
  obtain ⟨newest, e, _, _, hstep⟩ := h.enter_eq hpc
  have hne : ∀ w ∈ s.formed.flatten, w ≠ x := fun w hw heq => hx (heq ▸ hw)
  rw [hstep]
  refine .enter (.goto (u := s.openGroup x) hx rfl rfl (fun _ _ => rfl)
    (fun w hw => Function.update_of_ne (hne w hw) _ _)
    (fun w hw => Function.update_of_ne (hne w hw) _ _) (fun w => ?_) _) hpc
      (by simp [Pc.gathering])
  by_cases hwx : w = x
  · exact .inr (hwx ▸ hlead.2.2)
  · exact .inl (Function.update_of_ne hwx _ _)

/-- A leader walks over the links of those behind it. -/
theorem Sim.turn_createLinks (h : Sim c s v) {head newest : Nat}
    (hpc : s.pc x = .createLinks head newest) {path : Path} :
    Turn c s x path (s.createMissingNewerLink x head (.createLinks · newest)
      (.gather x newest (c.byteSize x))) := by
  obtain ⟨_, _, hlead, hx⟩ := h.lead_outside hpc trivial trivial
  simp only [Leading, hpc] at hlead
  obtain ⟨_, _, e, _, hwalk⟩ := hlead
  have hgathering : (s.pc x).gathering := by simp [hpc, Pc.gathering]
  obtain ⟨below, hstep, _⟩ | ⟨hstep, _⟩ := h.walk (x := x) hwalk (.createLinks · newest)
    (.gather x newest (c.byteSize x))
  · rw [hstep]
    exact .gather (.of_links (u := s.storeNewer below head) hx rfl _) hgathering
      (by simp [Pc.gathering])
  · rw [hstep]
    exact .gather (.of_links (u := s) hx rfl _) hgathering (by simp [Pc.gathering])

/-- A leader gathers one more member, or closes its group. -/
theorem Sim.turn_gather (h : Sim c s v) {w newest size : Nat} (hpc : s.pc x = .gather w newest size)
    {path : Path} : Turn c s x path (s.gather c x w newest size) := by
  obtain ⟨hphase, hfront, hlead, hx⟩ := h.lead_outside hpc trivial trivial
  simp only [Leading, hpc] at hlead
  obtain ⟨hgap, hstate, k, e, hgathered, hw, he, hke, hlinks⟩ := hlead
  have hgathering : (s.pc x).gathering := by simp [hpc, Pc.gathering]
  have hclose : Turn c s x path (s.close x) := by
    obtain ⟨hlast, hlength, hgroup, -, hfits⟩ := hgathered
    have hhead : v.queue[0]? = some x := by simp [Line.queue, hfront]
    have hk := (List.getElem?_eq_some_iff.mp hlast).1
    have hqueue : v.queue = x :: v.pending := by simp [Line.queue, hfront]
    have htake : v.queue.take (k + 1) = x :: v.pending.take k := by
      rw [hqueue, List.take_succ_cons]
    have hmembers : s.members x = v.queue.take (k + 1) := by
      rw [State.members, hlength]
      refine State.iterate_eq h.linked.nodup (fun i y hi hy => ?_) hlast k 0 x (by omega) hhead
      exact h.linked.newer_eq hy (hlinks i y (by omega) hy)
    have hbehind : ∀ w ∈ s.members x, w ≠ x → w ∈ v.pending.take k := by
      intro w hw hne
      rw [hmembers, htake] at hw
      exact (List.mem_cons.mp hw).resolve_left hne
    refine .close hgathering (by rw [hmembers, htake]; rfl) ?_ ?_ ?_ ?_
    · rw [hmembers]
      exact h.linked.nodup.sublist (List.take_sublist ..)
    · rw [hmembers, List.length_take, Nat.min_eq_left (by omega), hlength]
    · intro w hw
      refine ⟨hgroup w (hmembers ▸ hw), ?_⟩
      by_cases hwx : w = x
      · exact hwx ▸ hx
      · exact h.not_formed_of_pending (List.mem_of_mem_take (hbehind w hw hwx))
    · intro w hw hne
      have hmem := hbehind w hw hne
      obtain ⟨hst, ⟨hpc, _⟩ | ⟨_, hb⟩⟩ := h.pending w (List.mem_of_mem_take hmem)
      · exact ⟨hpc, hst⟩
      · exact absurd hb ((hfits x _ htake).1 w hmem).batch
  obtain hstep | ⟨y, hlt, hy, hstep⟩ := h.gather_eq x size hw he hke hlinks
  · rw [hstep]
    exact hclose
  · rw [hstep]
    split_ifs with hadmits
    · have hyp : y ∈ v.pending := by
        have hqueue : v.queue = x :: v.pending := by simp [Line.queue, hfront]
        rw [hqueue, List.getElem?_cons_succ] at hy
        exact List.mem_of_getElem? hy
      have hyx := h.not_formed_of_pending hyp
      refine .gather (.goto (u := s.addMember x y) hx rfl rfl (fun _ _ => rfl) ?_ ?_ ?_ _)
          hgathering ?_
      · intro w hw
        have hne : w ≠ y := fun heq => hyx (heq ▸ hw)
        exact Function.update_of_ne hne _ _
      · intro w hw
        have hne : w ≠ x := fun heq => hx (heq ▸ hw)
        exact Function.update_of_ne hne _ _
      · intro w
        by_cases hwy : w = y
        · exact .inr (hwy ▸ (Config.admits_iff.mp hadmits).1.batch)
        · exact .inl (Function.update_of_ne hwy _ _)
      · rw [State.goto_pc_self]
        trivial
    · exact hclose

/-! ### The steps inside closed groups -/

/-- The launch tells one more member. -/
theorem Sim.turn_launch (h : Sim c s v) {w : Nat} (hpc : s.pc x = .launch w) {path : Path} :
    Turn c s x path (s.launch x w) := by
  obtain ⟨rest, told, p, hfront, hphase, hl, hw, hcase, hstep⟩ := h.launch_eq hpc
  rw [hstep]
  refine .launch (h.inserting hfront hphase hl) hpc (List.mem_of_getElem? hw) ?_
  obtain ⟨y, _, hp⟩ | ⟨_, hp⟩ := hcase
  · exact .inr ⟨y, hp⟩
  · exact .inl hp

/-- A member completes its insertion. -/
theorem Sim.turn_complete (h : Sim c s v) (hpc : s.pc x = .complete) {path : Path} :
    Turn c s x path (s.completeParallelMemTableWriter x) := by
  obtain ⟨g, rest, told, hfront, hphase, hx, hl, hstep⟩ := h.complete_eq hpc
  have hinserting := h.inserting hfront hphase hl
  have hpos := hl.running_pos
  have hcount := hl.running
  rw [countP_goto_wait h.front_nodup hx (by simp [hpc])] at hcount
  rw [hstep]
  split_ifs with hrunning
  · refine .wait hinserting hx hpc hrunning ?_
    have hsome : 0 < v.front.countP fun w => (s.goto x .awaitCompleted).pc w ≠ .awaitCompleted := by
      omega
    obtain ⟨w, hw, hwait⟩ := List.countP_pos_iff.mp hsome
    have hne : w ≠ x := by
      rintro rfl
      simp at hwait
    exact ⟨w, hw, hne, by simpa [State.goto_pc_of_ne _ _ _ hne] using hwait⟩
  · have hone : (s.group g).running = 1 := by omega
    refine .last hinserting hx hpc hone ?_
    -- the thread itself is the only one that does not wait
    have hzero : v.front.countP (fun w => (s.goto x .awaitCompleted).pc w ≠ .awaitCompleted) =
      0 := by
      omega
    intro w hw hne
    have hw' := List.countP_eq_zero.mp hzero w hw
    simpa [State.goto_pc_of_ne _ _ _ hne] using hw'

/-- The thread that completed last publishes the group. -/
theorem Sim.turn_publish (h : Sim c s v) (hpc : s.pc x = .publish) {path : Path} :
    Turn c s x path (s.goto x .exitLoad) := by
  obtain ⟨g, rest, hfront, hphase, hexiting⟩ := h.exiting_of_pc hpc trivial
  have hexit := hexiting.exit
  simp only [Exit, hpc] at hexit
  exact .publish (h.current hfront (by simp [hphase]) hexit.2) hexiting.mem hpc hexiting.held
    fun hne => (hexiting.follower hne).2

/-- A thread begins to leave. -/
theorem Sim.turn_exitLoad (h : Sim c s v) (hpc : s.pc x = .exitLoad) {path : Path} :
    Turn c s x path (s.exitAsBatchGroup x) := by
  obtain ⟨g, rest, head, hfront, hphase, hexiting, _, hstep⟩ := h.exitLoad_eq hpc
  have hexit := hexiting.exit
  simp only [Exit, hpc] at hexit
  rw [hstep]
  refine .exitLoad (h.current hfront (by simp [hphase]) hexit.2) hexiting.mem hpc hexiting.held
    (fun hne => (hexiting.follower hne).2) ?_
  split_ifs <;> exact rfl

/-- A thread that leaves changes nothing for the members of its group. -/
theorem Sim.turn_exit (h : Sim c s v) {g : Nat} (hpc : (s.pc x).leaving g)
    (hexit : (s.pc x).exiting)
    {path : Path} (hformed : t.formed = s.formed) (hpcs : ∀ w, w ≠ x → t.pc w = s.pc w)
    (hnext : (t.pc x).leaving g) (hstate : ∀ w ∈ s.formed.flatten, t.state w = s.state w)
    (hwrite : t.writeGroup = s.writeGroup) (hgroup : t.group = s.group) : Turn c s x path t := by
  obtain ⟨g', rest, hfront, hphase, hexiting⟩ := h.exiting_of_pc rfl hexit
  have hg : g' = g := by
    have he := hexiting.exit
    unfold Exit at he
    cases hp : s.pc x <;> simp_all [Pc.leaving]
  subst hg
  exact .exit (h.formed_last (by simp [hphase])) (by simp [hfront]) hexiting.mem hpc hexit
      hexiting.held
    hformed hpcs hnext hstate hwrite hgroup

/-- A thread that leaves changes links or the newest writer only. -/
theorem Sim.turn_leave (h : Sim c s v) {g : Nat} {u : State} {p q : Pc} (hpc : s.pc x = q)
    (hq : q.leaving g) (hexit : q.exiting) (hp : p.leaving g)
    (hsame : (u.formed, u.pc, u.state, u.writeGroup, u.group) =
      (s.formed, s.pc, s.state, s.writeGroup, s.group)) {path : Path} :
    Turn c s x path (u.goto x p) := by
  simp only [Prod.mk.injEq] at hsame
  obtain ⟨hformed, hpcs, hstate, hwrite, hgroup⟩ := hsame
  refine h.turn_exit (hpc ▸ hq) (hpc ▸ hexit) hformed (fun w hw => ?_) ?_ (fun w _ => ?_) hwrite
    hgroup
  · rw [State.goto_pc_of_ne _ _ _ hw, hpcs]
  · rwa [State.goto_pc_self]
  · exact congrFun hstate w

/-- A thread that leaves empties the list, or finds somebody behind. -/
theorem Sim.turn_exitCas (h : Sim c s v) {leader last : Nat} (hpc : s.pc x = .exitCas leader last)
    {path : Path} : Turn c s x path (s.emptyList x leader last) := by
  obtain ⟨head, _, hstep⟩ := h.emptyList_eq hpc
  rw [hstep]
  split_ifs
  · exact h.turn_leave (u := { s with newestWriter := none }) (p := .drain leader last) hpc rfl
      trivial rfl rfl
  · exact h.turn_leave (u := s) (p := .exitLinks leader last head) hpc rfl trivial rfl rfl

/-- A thread that leaves walks over the links of those behind. -/
theorem Sim.turn_exitLinks (h : Sim c s v) {leader last head : Nat}
    (hpc : s.pc x = .exitLinks leader last head) {path : Path} :
    Turn c s x path
      (s.createMissingNewerLink x head (.exitLinks leader last) (.handoff leader last)) := by
  obtain ⟨g, rest, hfront, _, hexiting⟩ := h.exiting_of_pc hpc trivial
  have hexit := hexiting.exit
  simp only [Exit, hpc] at hexit
  obtain ⟨_, _, e, _, hwalk⟩ := hexit
  obtain ⟨below, hstep, _⟩ | ⟨hstep, _⟩ := h.walk (x := x) hwalk (.exitLinks leader last)
    (.handoff leader last)
  · rw [hstep]
    exact h.turn_leave (u := s.storeNewer below head) (p := .exitLinks leader last below) hpc rfl
      trivial rfl rfl
  · rw [hstep]
    exact h.turn_leave (u := s) (p := .handoff leader last) hpc rfl trivial rfl rfl

/-- A thread that leaves hands the leadership to a writer that is in no closed group. -/
theorem Sim.turn_handoff (h : Sim c s v) {leader last : Nat} (hpc : s.pc x = .handoff leader last)
    {path : Path} : Turn c s x path (s.handoff c x leader last) := by
  obtain ⟨next, others, hpending, _, hstep⟩ := h.handoff_eq hpc
  have hnext := h.not_formed_of_pending (by simp [hpending] : next ∈ v.pending)
  rw [hstep]
  refine h.turn_exit (g := leader) (by simp [hpc, Pc.leaving]) (by simp [hpc, Pc.exiting]) rfl
    (fun w hw => State.goto_pc_of_ne _ _ _ hw) (by simp [Pc.leaving]) (fun w hw => ?_) rfl rfl
  have hne : w ≠ next := fun heq => hnext (heq ▸ hw)
  exact State.setState_state_of_ne _ _ hne _

/-- A thread that leaves releases one more member, or is done with them. -/
theorem Sim.turn_drain (h : Sim c s v) {leader last : Nat} (hpc : s.pc x = .drain leader last)
    {path : Path} : Turn c s x path (s.drain x leader last) := by
  obtain ⟨l₁, d, l₂, rest, hleft, rfl, hx, hg0, hw, hpos, hok⟩ := h.draining_of_pc hpc
  have hpast := h.past hleft (by rwa [List.head?_eq_getElem?])
  by_cases hlast : last = leader
  · subst hlast
    rw [State.drain, if_pos rfl]
    split_ifs with hxl
    · rw [hxl] at hpc ⊢
      exact .drained hpast hpc
    · exact .follower hpast hx hxl hpc
  · obtain ⟨hrest, older, _, _, hstep⟩ := hok.drain_eq hpc hg0 hw hpos hlast
    rw [hstep]
    exact .drain hpast hx hpc (List.mem_of_getElem? hw) hlast
      fun hne => hok.held (rest - 1) last (by omega) hw hne

/-- A follower that has left for its leader releases it. -/
theorem Sim.turn_release (h : Sim c s v) {leader : Nat} (hpc : s.pc x = .release leader)
    {path : Path} : Turn c s x path (s.releaseLeader x leader) := by
  obtain ⟨l₁, d, l₂, hleft, rfl, hx, hg, hok, hstep⟩ := h.release_eq hpc
  rw [hstep]
  exact .release (h.past hleft hg) hx hok.executor hpc hok.state hok.leaderPc

/-- A writer whose group has left the list returns. -/
theorem Sim.turn_returned (h : Sim c s v) (hpc : s.pc x = .await ∨ s.pc x = .awaitCompleted)
    (hstate : s.state x = .completed) {path : Path} : Turn c s x path (s.goto x .returned) := by
  obtain ⟨l₁, d, l₂, hleft, hx⟩ := h.left_of_completed hstate hpc
  obtain ⟨_, g, hg, _⟩ := h.left d (by simp [hleft])
  exact .returned (h.past hleft hg) hx hpc hstate

/-- A writer that waits in `JoinBatchGroup` is told what it is. -/
theorem Sim.turn_await (h : Sim c s v) (hpc : s.pc x = .await) (hstep : s.joinBatchGroup x = some t)
    {path : Path} : Turn c s x path t := by
  unfold State.joinBatchGroup at hstep
  cases hstate : s.state x with
  | init => simp [hstate] at hstep
  | completed =>
      simp only [hstate, Option.some.injEq] at hstep
      exact hstep ▸ h.turn_returned (.inl hpc) hstate
  | groupLeader =>
      simp only [hstate, Option.some.injEq] at hstep
      subst hstep
      obtain ⟨hphase, hfront, _⟩ := h.leading_of_await hpc hstate
      exact .of_early (u := s) (h.not_formed_of_leading hphase (by simp [hfront])) hpc trivial
        (by simp) trivial rfl
  | parallelMemtableWriter =>
      simp only [hstate, Option.some.injEq] at hstep
      subst hstep
      obtain ⟨g, rest, told, hfront, hphase, hx, hl⟩ := h.launched_of_await hpc hstate
      exact .join (h.inserting hfront hphase hl) hx hpc hstate

/-- A writer that starts is in no closed group. -/
theorem Sim.turn_start (h : Sim c s v) (hpc : s.pc x = .idle) {path : Path} :
    Turn c s x path (s.goto x .load) :=
  .of_early (u := s) (h.not_formed_of_outside hpc trivial) hpc trivial (by simp) trivial rfl

/-- Neither is one whose exchange fails. -/
theorem Sim.turn_retry (h : Sim c s v) {writers : Option Nat} (hpc : s.pc x = .link writers)
    {path : Path} : Turn c s x path ((s.storeOlder x writers).goto x (.link s.newestWriter)) :=
  .of_early (u := s.storeOlder x writers) (h.not_formed_of_outside hpc trivial) hpc trivial
    (by simp) trivial rfl

/-- Every step of a thread is a turn. -/
theorem Sim.turn (h : Sim c s v) {path : Path} (hstep : s.move c x path = some t) :
    Turn c s x path t := by
  unfold State.move at hstep
  cases hpc : s.pc x with
  | idle | returned => simp [hpc] at hstep
  | load =>
      simp only [hpc, Option.some.injEq] at hstep
      rw [← hstep, h.load_eq hpc]
      exact .of_early (u := s) (h.not_formed_of_outside hpc trivial) hpc trivial (by simp) trivial
        rfl
  | link writers =>
      simp only [hpc] at hstep
      split_ifs at hstep
      · cases hstep
        refine .of_early (u := (s.storeOlder x writers).push x)
          (h.not_formed_of_outside hpc trivial) hpc trivial (by simp) ?_ rfl
        unfold Config.linked
        split <;> trivial
      · cases hstep
        exact h.turn_retry hpc
  | selfLead =>
      simp only [hpc, Option.some.injEq] at hstep
      exact hstep ▸ h.turn_selfLead hpc
  | await =>
      simp only [hpc] at hstep
      exact h.turn_await hpc hstep
  | awaitAlone =>
      simp only [hpc] at hstep
      split_ifs at hstep with hstate
      cases hstep
      obtain ⟨hphase, hfront, _⟩ := h.leading_of_awaitAlone hpc hstate
      exact .of_early (u := s) (h.not_formed_of_leading hphase (by simp [hfront])) hpc trivial
        (by simp) trivial rfl
  | alone =>
      simp only [hpc, Option.some.injEq] at hstep
      subst hstep
      obtain ⟨_, _, hlead, hx⟩ := h.lead_outside hpc trivial trivial
      simp only [Leading, hpc] at hlead
      exact .alone hpc hlead.2 hx
  | preprocess =>
      simp only [hpc, Option.some.injEq] at hstep
      obtain ⟨_, _, _, hx⟩ := h.lead_outside hpc trivial trivial
      rw [← hstep, h.preprocess_eq hpc]
      exact .preprocess (.of_links (u := s) hx rfl _) hpc (State.goto_pc_self ..)
  | enter =>
      simp only [hpc, Option.some.injEq] at hstep
      exact hstep ▸ h.turn_enter hpc
  | createLinks head newest =>
      simp only [hpc, Option.some.injEq] at hstep
      exact hstep ▸ h.turn_createLinks hpc
  | gather w newest size =>
      simp only [hpc, Option.some.injEq] at hstep
      exact hstep ▸ h.turn_gather hpc
  | apply =>
      simp only [hpc] at hstep
      obtain ⟨hphase, ⟨rest, hfront⟩, hserial⟩ := h.serial_of_pc (.inl hpc)
      exact .apply (h.current hfront (by simp [hphase]) hserial.closed) hpc hserial.waiting
        hserial.state hstep
  | insertGroup =>
      simp only [hpc, Option.some.injEq] at hstep
      subst hstep
      obtain ⟨hphase, ⟨rest, hfront⟩, hserial⟩ := h.serial_of_pc (.inr hpc)
      exact .insertGroup (h.current hfront (by simp [hphase]) hserial.closed) hpc hserial.waiting
  | launch w =>
      simp only [hpc, Option.some.injEq] at hstep
      exact hstep ▸ h.turn_launch hpc
  | insert =>
      simp only [hpc, Option.some.injEq] at hstep
      subst hstep
      obtain ⟨g, rest, told, hfront, hphase, hx, hl⟩ := h.launched_of_pc hpc trivial
      exact .insert (h.inserting hfront hphase hl) hx hpc
  | report =>
      simp only [hpc, Option.some.injEq] at hstep
      obtain ⟨g, rest, told, hfront, hphase, hx, hl⟩ := h.launched_of_pc hpc trivial
      rw [← hstep, h.report_eq hpc]
      exact .report (h.inserting hfront hphase hl) hx hpc
  | complete =>
      simp only [hpc, Option.some.injEq] at hstep
      exact hstep ▸ h.turn_complete hpc
  | awaitCompleted =>
      simp only [hpc] at hstep
      split_ifs at hstep with hstate
      cases hstep
      exact h.turn_returned (.inr hpc) hstate
  | publish =>
      simp only [hpc, Option.some.injEq] at hstep
      rw [← hstep, h.publish_eq hpc]
      exact h.turn_publish hpc
  | exitLoad =>
      simp only [hpc, Option.some.injEq] at hstep
      exact hstep ▸ h.turn_exitLoad hpc
  | exitCas leader last =>
      simp only [hpc, Option.some.injEq] at hstep
      exact hstep ▸ h.turn_exitCas hpc
  | exitLinks leader last head =>
      simp only [hpc, Option.some.injEq] at hstep
      exact hstep ▸ h.turn_exitLinks hpc
  | handoff leader last =>
      simp only [hpc, Option.some.injEq] at hstep
      exact hstep ▸ h.turn_handoff hpc
  | drain leader last =>
      simp only [hpc, Option.some.injEq] at hstep
      exact hstep ▸ h.turn_drain hpc
  | release leader =>
      simp only [hpc, Option.some.injEq] at hstep
      exact hstep ▸ h.turn_release hpc

/-! ### Other groups -/

/-- Two closed groups with a common member are the same. -/
theorem Sim.formed_unique (h : Sim c s v) {M N : List Nat} {w : Nat} (hM : M ∈ s.formed)
    (hN : N ∈ s.formed) (hwM : w ∈ M) (hwN : w ∈ N) : M = N := by
  have hpair := (List.nodup_flatten.mp h.formed_nodup).2
  have hsymm : Std.Symm (@List.Disjoint Nat) := ⟨fun _ _ hd _ hb ha => hd ha hb⟩
  by_contra hne
  exact hpair.forall hM hN hne hwM hwN

/-- The current group is closed. -/
theorem Current.formed {M : List Nat} {g : Nat} (h : Current s M g) : M ∈ s.formed :=
  List.mem_of_getLast? h.last

/-- The leader is a member of the current group. -/
theorem Current.leader_mem {M : List Nat} {g : Nat} (h : Current s M g) : g ∈ M :=
  List.mem_of_head? h.head

/-- The leader is a member of a past group. -/
theorem Past.leader_mem {M : List Nat} {g : Nat} (h : Past s M g) : g ∈ M :=
  List.mem_of_head? h.head

/-- A step moves its own thread only. -/
theorem Turn.pc_of_ne {path : Path} (h : Turn c s x path t) {w : Nat} (hw : w ≠ x) :
    t.pc w = s.pc w := by
  cases h with
  | early hout | preprocess hout | enter hout | gather hout => exact hout.pc w hw
  | apply _ _ _ _ hstep =>
      obtain ⟨_, rfl⟩ | ⟨_, rfl⟩ | ⟨_, _, rfl⟩ := State.apply_cases hstep <;>
        exact State.goto_pc_of_ne _ _ _ hw
  | exit _ _ _ _ _ _ _ hpc => exact hpc w hw
  | _ => exact State.goto_pc_of_ne _ _ _ hw

/-- A step closes at most one group, the one of its thread. -/
theorem Turn.formed {path : Path} (h : Turn c s x path t) :
    t.formed = s.formed ∨ ∃ M, t.formed = s.formed ++ [M] ∧ x ∈ M ∧ x ∉ s.formed.flatten := by
  cases h with
  | early hout | preprocess hout | enter hout | gather hout => exact .inl hout.formed
  | close _ hhead _ _ hnew =>
      have hx := List.mem_of_head? hhead
      exact .inr ⟨_, rfl, hx, (hnew x hx).2⟩
  | alone _ _ hx => exact .inr ⟨_, rfl, by simp, hx⟩
  | apply _ _ _ _ hstep =>
      obtain ⟨_, rfl⟩ | ⟨_, rfl⟩ | ⟨_, _, rfl⟩ := State.apply_cases hstep <;> exact .inl rfl
  | exit _ _ _ _ _ _ hformed => exact .inl hformed
  | _ => exact .inl rfl

/-- A group is new when it is a writer alone, or when its leader has just closed it. -/
theorem Turn.new_group {path : Path} (h : Turn c s x path t) {M : List Nat} (hM : M ∈ t.formed)
    (hold : M ∉ s.formed) : M = [x] ∧ (c.request x).batch = none ∨
      (s.pc x).gathering ∧ t.pc x = .apply ∧ M.head? = some x ∧ M.Nodup ∧
        ∀ w ∈ M, s.writeGroup w = some x ∧ (w ≠ x → s.pc w = .await) := by
  have hnew : ∀ {N : List Nat}, M ∈ s.formed ++ [N] → M = N := fun hmem =>
    List.mem_singleton.mp ((List.mem_append.mp hmem).resolve_left hold)
  cases h with
  | close hpc hhead hnodup _ hmembers hwaiting =>
      rw [hnew hM]
      exact .inr ⟨hpc, State.goto_pc_self .., hhead, hnodup, fun w hw =>
        ⟨(hmembers w hw).1, fun hne => (hwaiting w hw hne).1⟩⟩
  | alone _ hnone => exact .inl ⟨hnew hM, hnone⟩
  | early hout | preprocess hout | enter hout | gather hout => exact absurd (hout.formed ▸ hM) hold
  | apply _ _ _ _ hstep =>
      obtain ⟨_, rfl⟩ | ⟨_, rfl⟩ | ⟨_, _, rfl⟩ := State.apply_cases hstep <;> exact absurd hM hold
  | exit _ _ _ _ _ _ hformed => exact absurd (hformed ▸ hM) hold
  | _ => exact absurd hM hold

/-- A step changes the states of members of its own group only. -/
theorem Turn.state_of_not_mem {path : Path} (h : Turn c s x path t) (hsim : Sim c s v)
    {M : List Nat}
    (hM : M ∈ s.formed) (hx : x ∉ M) {w : Nat} (hw : w ∈ M) : t.state w = s.state w := by
  have hwf : w ∈ s.formed.flatten := List.mem_flatten.mpr ⟨M, hM, hw⟩
  -- a member of the group of `x` is not `w`
  have hne : ∀ {N : List Nat} {y : Nat}, N ∈ s.formed → x ∈ N → y ∈ N → w ≠ y := by
    intro N y hN hxN hyN heq
    exact hx (hsim.formed_unique hM hN hw (heq ▸ hyN) ▸ hxN)
  cases h with
  | early hout | preprocess hout | enter hout | gather hout => exact hout.state w hwf
  | apply _ _ _ _ hstep =>
      obtain ⟨_, rfl⟩ | ⟨_, rfl⟩ | ⟨_, _, rfl⟩ := State.apply_cases hstep <;> rfl
  | launch hins _ hy =>
      exact State.setState_state_of_ne _ _ (hne hins.formed hins.leader_mem hy) _
  | exit _ _ _ _ _ _ _ _ _ hstate => exact hstate w hwf
  | drain hpast hxN _ hy =>
      exact State.setState_state_of_ne _ _ (hne hpast.formed hxN hy) _
  | release hpast hxN =>
      exact State.setState_state_of_ne _ _ (hne hpast.formed hxN hpast.leader_mem) _
  | _ => rfl

/-- A thread that has returned takes no step. -/
theorem Turn.pc_ne_returned {path : Path} (h : Turn c s x path t) : s.pc x ≠ .returned := by
  intro hpc
  cases h with
  | early _ hp => simp [hpc, Pc.early] at hp
  | gather _ hp | close hp => simp [hpc, Pc.gathering] at hp
  | exit _ _ _ hp => simp [hpc, Pc.leaving] at hp
  | returned _ _ hp => simp [hpc] at hp
  | _ => simp_all

/-- A member of a closed group does not go back to its closing. -/
theorem Turn.pc_ne_apply {path : Path} (h : Turn c s x path t) {w : Nat} (hw : w ∈ s.formed.flatten)
    (hpc : s.pc w ≠ .apply) : t.pc w ≠ .apply := by
  by_cases hwx : w = x
  swap
  · rwa [h.pc_of_ne hwx]
  subst hwx
  cases h with
  | early hout | preprocess hout | enter hout | gather hout => exact absurd hw hout.not_mem
  | close _ hhead _ _ hnew => exact absurd hw (hnew w (List.mem_of_head? hhead)).2
  | alone _ _ hnot => exact absurd hw hnot
  | apply _ hpc' => exact absurd hpc' hpc
  | launch _ _ _ hq => obtain rfl | ⟨y, rfl⟩ := hq <;> simp
  | @exitLoad _ _ q _ _ _ _ _ hq =>
      rw [State.goto_pc_self]
      rintro rfl
      exact hq
  | exit _ _ _ _ _ _ _ _ hq =>
      intro heq
      rw [heq] at hq
      exact hq
  | _ => simp

/-- Only writers with a batch join a write group. -/
theorem Turn.batch_of_writeGroup {path : Path} (h : Turn c s x path t) (w : Nat) :
    t.writeGroup w = s.writeGroup w ∨ (c.request w).batch ≠ none := by
  cases h with
  | early hout | preprocess hout | enter hout | gather hout => exact hout.batch w
  | apply _ _ _ _ hstep =>
      obtain ⟨_, rfl⟩ | ⟨_, rfl⟩ | ⟨_, _, rfl⟩ := State.apply_cases hstep <;> exact .inl rfl
  | exit _ _ _ _ _ _ _ _ _ _ hwrite => exact .inl (by rw [hwrite])
  | _ => exact .inl rfl

/-- The write group of a member of a closed group stays. -/
theorem Turn.writeGroup_eq {path : Path} (h : Turn c s x path t) {w : Nat}
    (hw : w ∈ s.formed.flatten) : t.writeGroup w = s.writeGroup w := by
  cases h with
  | early hout | preprocess hout | enter hout | gather hout => exact hout.writeGroup w hw
  | apply _ _ _ _ hstep =>
      obtain ⟨_, rfl⟩ | ⟨_, rfl⟩ | ⟨_, _, rfl⟩ := State.apply_cases hstep <;> rfl
  | exit _ _ _ _ _ _ _ _ _ _ hwrite => rw [hwrite]
  | _ => rfl

end Turns

end P2KVS.WriteThread
