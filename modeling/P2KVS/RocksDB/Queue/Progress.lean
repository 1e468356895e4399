import Mathlib.Algebra.Order.BigOperators.Group.Finset
import P2KVS.RocksDB.Queue.Safety

/-!
# The write thread comes to an end

Every step of a thread lowers a potential. The loops of the write thread pay with what they change
for good: a link that is created, a state that advances, a member that joins a group. An exchange
that changes the newest writer makes the other threads that want to link repeat theirs, and pays for
all of them.
-/

namespace P2KVS.WriteThread

open Transition Intrusive

/-- How far a state is from the last one. -/
def WriterState.rank : WriterState → Nat
  | .init => 3
  | .groupLeader => 2
  | .parallelMemtableWriter => 1
  | .completed => 0

/-- How far a place is from the end, among `n` writers. -/
def Pc.rank (n : Nat) : Pc → Nat
  | .idle | .returned => 0
  | .awaitCompleted | .release _ => 1
  | .drain .. => 2
  | .handoff .. => 3
  | .exitLinks .. => 4
  | .exitCas .. => n + 5
  | .exitLoad => n + 6
  | .publish => n + 7
  | .complete | .insertGroup => n + 8
  | .report => n + 9
  | .insert => n + 10
  | .launch _ => n + 11
  | .apply => n + 12
  | .gather .. => n + 13
  | .createLinks .. => 2 * n + 14
  | .enter => 2 * n + 15
  | .preprocess => 2 * n + 16
  | .selfLead | .await | .alone => 2 * n + 17
  | .awaitAlone => 2 * n + 18
  | .link _ => 3 * n + 19
  | .load => 3 * n + 20

namespace State

/-- How many members a leader can still gather. -/
def room (n : Nat) (s : State) (w : Nat) : Nat :=
  match s.pc w with
  | .gather .. => n - (s.group w).size
  | _ => 0

/-- Whether a thread that wants to link has an old view of the newest writer. -/
def stale (s : State) (w : Nat) : Nat :=
  match s.pc w with
  | .link writers => if writers = s.newestWriter then 0 else 1
  | _ => 0

/-- What the place of a thread contributes. -/
def place (n : Nat) (s : State) (w : Nat) : Nat :=
  (s.pc w).rank n + s.room n w + s.stale w

/-- What a writer contributes. -/
def weight (n : Nat) (s : State) (w : Nat) : Nat :=
  s.place n w + (s.state w).rank + if s.linkNewer w = none then 1 else 0

/-- The potential of the writers in `W`. -/
def potential (W : Finset Nat) (s : State) : Nat :=
  ∑ w ∈ W, s.weight W.card w

/-- A stale head costs one step. -/
theorem stale_le_one (s : State) (w : Nat) : s.stale w ≤ 1 := by
  unfold stale
  cases s.pc w <;> simp only [Nat.zero_le]
  split_ifs <;> omega

/-- The room of a gathering leader is bounded by the number of writers. -/
theorem room_le (n : Nat) (s : State) (w : Nat) : s.room n w ≤ n := by
  unfold room
  cases s.pc w <;> simp

/-- The potential is bounded by the number of writers. -/
theorem potential_le (W : Finset Nat) (s : State) :
    s.potential W ≤ W.card * (4 * W.card + 25) := by
  refine Finset.sum_le_card_nsmul W _ _ fun w _ => ?_
  have hrank : (s.pc w).rank W.card ≤ 3 * W.card + 20 := by
    cases s.pc w <;> simp only [Pc.rank] <;> omega
  have hstate : (s.state w).rank ≤ 3 := by
    cases s.state w <;> simp [WriterState.rank]
  have hroom := s.room_le W.card w
  have hstale := s.stale_le_one w
  unfold weight place
  split_ifs <;> omega

end State

variable {c : Config} {s t : State} {v : View} {x : Nat} {W : Finset Nat}

/-- A thread that does not move contributes what it did, as long as the newest writer and the size
of its group stay. -/
theorem place_eq {n w : Nat} (hpc : t.pc w = s.pc w) (hnewest : t.newestWriter = s.newestWriter)
    (hsize : (t.group w).size = (s.group w).size) : t.place n w = s.place n w := by
  unfold State.place State.room State.stale
  rw [hpc, hnewest, hsize]

/-- A step that does not change the newest writer lowers the potential when it lowers what its
thread contributes, or keeps that and changes a state or a link for good. -/
theorem potential_lt (hx : x ∈ W) (hpc : ∀ w, w ≠ x → t.pc w = s.pc w)
    (hnewest : t.newestWriter = s.newestWriter)
    (hsize : ∀ w, w ≠ x → (t.group w).size = (s.group w).size)
    (hstate : ∀ w, (t.state w).rank ≤ (s.state w).rank)
    (hnewer : ∀ w, s.linkNewer w ≠ none → t.linkNewer w ≠ none)
    (hlt : t.place W.card x < s.place W.card x ∨ t.place W.card x ≤ s.place W.card x ∧
      ∃ y ∈ W, (t.state y).rank < (s.state y).rank ∨
        s.linkNewer y = none ∧ t.linkNewer y ≠ none) : t.potential W < s.potential W := by
  have hplace : ∀ w, t.place W.card w ≤ s.place W.card w := by
    intro w
    by_cases hw : w = x
    · rw [hw]
      exact hlt.elim Nat.le_of_lt And.left
    · exact Nat.le_of_eq (place_eq (hpc w hw) hnewest (hsize w hw))
  have hlink : ∀ w, (if t.linkNewer w = none then 1 else 0) ≤
      if s.linkNewer w = none then 1 else 0 := by
    intro w
    have := hnewer w
    split_ifs <;> simp_all
  refine Finset.sum_lt_sum (fun w _ => ?_) ?_
  · have h₁ := hplace w
    have h₂ := hstate w
    have h₃ := hlink w
    unfold State.weight
    omega
  · obtain hlt | ⟨_, y, hy, hlt | ⟨hnone, hsome⟩⟩ := hlt
    · refine ⟨x, hx, ?_⟩
      have h₂ := hstate x
      have h₃ := hlink x
      unfold State.weight
      omega
    · refine ⟨y, hy, ?_⟩
      have h₁ := hplace y
      have h₃ := hlink y
      unfold State.weight
      omega
    · refine ⟨y, hy, ?_⟩
      have h₁ := hplace y
      have h₂ := hstate y
      unfold State.weight
      rw [if_pos hnone, if_neg hsome]
      omega

/-- A step that changes the newest writer lowers the potential when its thread pays for the other
threads. -/
theorem potential_lt_exchange (hx : x ∈ W) (hpc : ∀ w, w ≠ x → t.pc w = s.pc w)
    (hsame : (t.group, t.state, t.linkNewer) = (s.group, s.state, s.linkNewer))
    (hlt : t.place W.card x + W.card < s.place W.card x) : t.potential W < s.potential W := by
  simp only [Prod.mk.injEq] at hsame
  obtain ⟨hgroup, hstate, hnewer⟩ := hsame
  have hother : ∀ w ∈ W.erase x, t.weight W.card w ≤ s.weight W.card w + 1 := by
    intro w hw
    have hne := Finset.ne_of_mem_erase hw
    have hstale := t.stale_le_one w
    have hroom : t.room W.card w = s.room W.card w := by
      unfold State.room
      rw [hpc w hne, hgroup]
    unfold State.weight State.place
    rw [hpc w hne, hroom, hstate, hnewer]
    omega
  have hsum : ∑ w ∈ W.erase x, t.weight W.card w ≤
      ∑ w ∈ W.erase x, s.weight W.card w + (W.erase x).card := by
    calc ∑ w ∈ W.erase x, t.weight W.card w
        ≤ ∑ w ∈ W.erase x, (s.weight W.card w + 1) := Finset.sum_le_sum hother
      _ = ∑ w ∈ W.erase x, s.weight W.card w + (W.erase x).card := by
          rw [Finset.sum_add_distrib, ← Finset.card_eq_sum_ones]
  have hcard : (W.erase x).card ≤ W.card := Finset.card_erase_le
  have hown : t.weight W.card x + W.card < s.weight W.card x := by
    unfold State.weight
    rw [hstate, hnewer]
    omega
  unfold State.potential
  rw [← Finset.add_sum_erase W _ hx, ← Finset.add_sum_erase W _ hx]
  omega

/-- The thread goes on to a place nearer to the end. -/
theorem potential_goto (hx : x ∈ W) {p : Pc}
    (hp : (s.goto x p).place W.card x < s.place W.card x) :
      (s.goto x p).potential W < s.potential W :=
  potential_lt hx (fun _ hw => State.goto_pc_of_ne _ _ _ hw) rfl (fun _ _ => rfl)
    (fun _ => Nat.le_refl _) (fun _ h => h) (.inl hp)

/-- The places that only contribute their rank. -/
def Pc.plain : Pc → Prop
  | .gather .. | .link _ => False
  | _ => True

/-- What a plain place contributes. -/
theorem place_of_plain {n w : Nat} {p : Pc} (hpc : s.pc w = p) (hp : p.plain) :
    s.place n w = p.rank n := by
  unfold State.place State.room State.stale
  rw [hpc]
  cases p <;> simp_all [Pc.plain]

/-- A place contributes at least its rank. -/
theorem rank_le_place (n : Nat) (s : State) (w : Nat) : (s.pc w).rank n ≤ s.place n w := by
  unfold State.place
  omega

/-- A thread that goes on to a plain place of lower rank lowers what it contributes. -/
theorem place_lt {n : Nat} {p q : Pc} (hold : s.pc x = p) (hnew : t.pc x = q) (hq : q.plain)
    (hlt : q.rank n < p.rank n) : t.place n x < s.place n x := by
  rw [place_of_plain hnew hq]
  exact Nat.lt_of_lt_of_le hlt (hold ▸ rank_le_place n s x)

/-- The writers on the list have started. -/
theorem Sim.mem_started (h : Sim c s v) (hW : ∀ w ∉ W, s.pc w = .idle) {w : Nat}
    (hw : w ∈ v.queue) : w ∈ W := by
  by_contra hnot
  have := h.live hw
  simp [State.live, hW w hnot] at this

/-- There are not more writers on the list than have started. -/
theorem Sim.length_le (h : Sim c s v) (hW : ∀ w ∉ W, s.pc w = .idle) : v.queue.length ≤ W.card := by
  rw [← List.toFinset_card_of_nodup h.linked.nodup]
  exact Finset.card_le_card fun w hw => h.mem_started hW (List.mem_toFinset.mp hw)

/-- The thread goes on to a plain place of lower rank. -/
theorem potential_forward (hx : x ∈ W) {p q : Pc} (hpc : s.pc x = p) (hq : q.plain)
    (hlt : q.rank W.card < p.rank W.card) : (s.goto x q).potential W < s.potential W :=
  potential_goto hx (place_lt hpc (State.goto_pc_self ..) hq hlt)

/-- The thread goes on to a plain place of lower rank, and changes its own group or no size. -/
theorem potential_forward_group (hx : x ∈ W) {u : State} {p q : Pc} (hpc : s.pc x = p)
    (hq : q.plain) (hlt : q.rank W.card < p.rank W.card)
    (hsame : (u.pc, u.newestWriter, u.state, u.linkNewer) =
      (s.pc, s.newestWriter, s.state, s.linkNewer))
    (hsize : ∀ w, w ≠ x → (u.group w).size = (s.group w).size) :
    (u.goto x q).potential W < s.potential W := by
  simp only [Prod.mk.injEq] at hsame
  obtain ⟨hpcs, hnewest, hstate, hnewer⟩ := hsame
  refine potential_lt hx (fun w hw => ?_) hnewest hsize (fun w => ?_) (fun w hw => ?_)
    (.inl (place_lt hpc (State.goto_pc_self ..) hq hlt))
  · rw [State.goto_pc_of_ne _ _ _ hw, hpcs]
  · show (u.state w).rank ≤ _
    rw [hstate]
  · show u.linkNewer w ≠ none
    rwa [hnewer]

/-- The walk over the links goes on, or ends. -/
theorem Sim.potential_walk (h : Sim c s v) (hW : ∀ w ∉ W, s.pc w = .idle) (hx : x ∈ W)
    {head e : Nat} (hwalk : Walk s v.toLine head e) {next : Nat → Pc} {stop : Pc} {p : Pc}
    (hpc : s.pc x = p) (hnext : ∀ w, (next w).plain ∧ (next w).rank W.card ≤ p.rank W.card)
    (hstop : (s.goto x stop).place W.card x < s.place W.card x) :
    (s.createMissingNewerLink x head next stop).potential W < s.potential W := by
  obtain ⟨below, hstep, hmem, hnone, _⟩ | ⟨hstep, _⟩ := h.walk (x := x) hwalk next stop
  · rw [hstep]
    refine potential_lt hx (fun w hw => State.goto_pc_of_ne _ _ _ hw) rfl (fun _ _ => rfl)
      (fun _ => Nat.le_refl _) ?_ (.inr ⟨?_, below, h.mem_started hW hmem, .inr ⟨hnone, ?_⟩⟩)
    · intro w hw
      show Function.update s.linkNewer below (some head) w ≠ none
      by_cases hwb : w = below
      · simp [hwb]
      · rwa [Function.update_of_ne hwb]
    · rw [place_of_plain (State.goto_pc_self ..) (hnext below).1]
      exact Nat.le_trans (hnext below).2 (hpc ▸ rank_le_place _ s x)
    · show Function.update s.linkNewer below (some head) below ≠ none
      simp
  · rw [hstep]
    exact potential_goto hx hstop

/-- A thread tells another writer its new state. -/
theorem potential_setState (hx : x ∈ W) {y : Nat} (hy : y ∈ W) {new : WriterState} {p q : Pc}
    (hnew : new.rank < (s.state y).rank) (hpc : s.pc x = p) (hq : q.plain)
    (hrank : q.rank W.card ≤ p.rank W.card) (older : Nat → Option Nat) :
    (({ s with linkOlder := older }.setState y new).goto x q).potential W < s.potential W := by
  refine potential_lt hx (fun w hw => State.goto_pc_of_ne _ _ _ hw) rfl (fun _ _ => rfl) ?_
    (fun _ h => h) (.inr ⟨?_, y, hy, .inl ?_⟩)
  · intro w
    show (Function.update s.state y new w).rank ≤ (s.state w).rank
    by_cases hw : w = y
    · rw [hw, Function.update_self]
      exact Nat.le_of_lt hnew
    · rw [Function.update_of_ne hw]
  · rw [place_of_plain (State.goto_pc_self ..) hq]
    exact Nat.le_trans hrank (hpc ▸ rank_le_place _ s x)
  · show (Function.update s.state y new y).rank < _
    rw [Function.update_self]
    exact hnew

/-! ### The places whose step is not a plain one -/

/-- A thread that wants to link succeeds and pays for the others, or looks again because the newest
writer has changed. -/
theorem potential_link (hx : x ∈ W) {writers : Option Nat} (hpc : s.pc x = .link writers) :
    (if s.newestWriter = writers then ((s.storeOlder x writers).push x).goto x (c.linked x writers)
      else (s.storeOlder x writers).goto x (.link s.newestWriter)).potential W < s.potential W := by
  split_ifs with hnewest
  · refine potential_lt_exchange hx (fun w hw => State.goto_pc_of_ne _ _ _ hw) rfl ?_
    have hlinked : (c.linked x writers).plain ∧ (c.linked x writers).rank W.card ≤
        2 * W.card + 18 := by
      unfold Config.linked
      cases (c.request x).batch <;> cases writers <;> simp [Pc.plain, Pc.rank]
    have hold := rank_le_place W.card s x
    rw [hpc] at hold
    rw [place_of_plain (State.goto_pc_self ..) hlinked.1]
    simp only [Pc.rank] at hold
    omega
  · refine potential_lt hx (fun w hw => State.goto_pc_of_ne _ _ _ hw) rfl (fun _ _ => rfl)
      (fun _ => Nat.le_refl _) (fun _ h => h) (.inl ?_)
    have hne : ¬ writers = s.newestWriter := fun heq => hnewest heq.symm
    simp [State.place, State.room, State.stale, State.storeOlder, hpc, hne, State.goto, Pc.rank]

/-- A leader gathers one more member, or closes its group. -/
theorem Sim.potential_gather (h : Sim c s v) (hW : ∀ w ∉ W, s.pc w = .idle) (hx : x ∈ W)
    {w newest size : Nat} (hpc : s.pc x = .gather w newest size) :
    (s.gather c x w newest size).potential W < s.potential W := by
  obtain ⟨_, _, hlead⟩ := h.leading_of_pc hpc trivial (h.mem_front hpc trivial)
  simp only [Leading, hpc] at hlead
  obtain ⟨_, _, k, e, hgathered, hw, he, hke, hlinks⟩ := hlead
  have hclose : (s.close x).potential W < s.potential W :=
    potential_forward_group hx hpc trivial (by simp only [Pc.rank]; omega) rfl fun _ _ => rfl
  obtain heq | ⟨y, hlt, _, heq⟩ := h.gather_eq x size hw he hke hlinks
  · rwa [heq]
  rw [heq]
  split_ifs
  · refine potential_lt hx (fun w hw => State.goto_pc_of_ne _ _ _ hw) rfl (fun w hw => ?_)
      (fun _ => Nat.le_refl _) (fun _ h => h) (.inl ?_)
    · show (Function.update s.group x _ w).size = _
      rw [Function.update_of_ne hw]
    · -- the group has one more member
      have hle := (List.getElem?_eq_some_iff.mp he).1
      have hlen := h.length_le hW
      have hsize := hgathered.length
      simp only [State.place, State.room, State.stale, State.goto_pc_self, hpc, Pc.rank]
      show _ + (W.card - (Function.update s.group x _ x).size) + 0 < _
      rw [Function.update_self]
      simp only
      omega
  · exact hclose

/-- A leader applies its group in one of the three ways. -/
theorem potential_apply (hx : x ∈ W) (hpc : s.pc x = .apply) {path : Path}
    (hstep : s.apply x path = some t) : t.potential W < s.potential W := by
  obtain ⟨_, rfl⟩ | ⟨_, rfl⟩ | ⟨_, _, rfl⟩ := State.apply_cases hstep
  · exact potential_forward hx hpc trivial (by simp only [Pc.rank]; omega)
  · exact potential_forward hx hpc trivial (by simp only [Pc.rank]; omega)
  · refine potential_forward_group hx hpc trivial (by simp only [Pc.rank]; omega) rfl fun w hw => ?_
    show (Function.update s.group x _ w).size = _
    rw [Function.update_of_ne hw]

/-- The launch tells one more member. -/
theorem Sim.potential_launch (h : Sim c s v) (hW : ∀ w ∉ W, s.pc w = .idle) (hx : x ∈ W) {w : Nat}
    (hpc : s.pc x = .launch w) : (s.launch x w).potential W < s.potential W := by
  obtain ⟨rest, told, p, hfront, _, hl, hw, hcase, heq⟩ := h.launch_eq hpc
  rw [heq]
  have hstate : s.state w = .init ∨ s.state w = .groupLeader := by
    by_cases hwx : w = x
    · right
      have hx0 : v.front[0]? = some x := by simp [hfront]
      have hzero := index_inj h.front_nodup hw (hwx ▸ hx0)
      exact hwx ▸ hl.first hzero
    · exact .inl (hl.waiting told w (Nat.le_refl _) hw hwx).2
  have hmem : w ∈ W := h.mem_started hW (List.mem_append_left _ (List.mem_of_getElem? hw))
  refine potential_setState (s := s) hx hmem ?_ hpc ?_ ?_ s.linkOlder
  · obtain hst | hst := hstate <;> simp [hst, WriterState.rank]
  · obtain ⟨_, _, rfl⟩ | ⟨_, rfl⟩ := hcase <;> trivial
  · obtain ⟨_, _, rfl⟩ | ⟨_, rfl⟩ := hcase <;> simp [Pc.rank]

/-- A member completes its insertion: the size of the group stays. -/
theorem Sim.potential_complete (h : Sim c s v) (hx : x ∈ W) (hpc : s.pc x = .complete) :
    (s.completeParallelMemTableWriter x).potential W < s.potential W := by
  obtain ⟨g, rest, told, hfront, _, _, _, heq⟩ := h.complete_eq hpc
  rw [heq]
  have hsize : ∀ w, w ≠ x →
      ((s.setRunning g ((s.group g).running - 1)).group w).size = (s.group w).size := by
    intro w _
    show (Function.update s.group g _ w).size = _
    by_cases hw : w = g
    · rw [hw, Function.update_self]
    · rw [Function.update_of_ne hw]
  split_ifs
  · exact potential_forward_group hx hpc trivial (by simp only [Pc.rank]; omega) rfl hsize
  · exact potential_forward_group hx hpc trivial (by simp only [Pc.rank]; omega) rfl hsize

/-- A thread that leaves empties the list and pays for the others, or goes to those behind. -/
theorem Sim.potential_exitCas (h : Sim c s v) (hx : x ∈ W) {leader last : Nat}
    (hpc : s.pc x = .exitCas leader last) :
    (s.emptyList x leader last).potential W < s.potential W := by
  obtain ⟨head, _, heq⟩ := h.emptyList_eq hpc
  rw [heq]
  split_ifs
  · refine potential_lt_exchange hx (fun w hw => State.goto_pc_of_ne _ _ _ hw) rfl ?_
    rw [place_of_plain (p := .drain leader last) (State.goto_pc_self ..) trivial,
      place_of_plain hpc trivial]
    simp only [Pc.rank]
    omega
  · exact potential_forward hx hpc trivial (by simp only [Pc.rank]; omega)

/-- A thread that leaves releases one more member, or is done with them. -/
theorem Sim.potential_drain (h : Sim c s v) (hW : ∀ w ∉ W, s.pc w = .idle) (hx : x ∈ W)
    {leader last : Nat} (hpc : s.pc x = .drain leader last) :
    (s.drain x leader last).potential W < s.potential W := by
  obtain ⟨l₁, d, l₂, rest, hleft, rfl, hxd, hg, hw, hpos, hok⟩ := h.draining_of_pc hpc
  by_cases hlast : last = leader
  · rw [State.drain, if_pos hlast]
    split_ifs
    · exact potential_forward hx hpc trivial (by simp only [Pc.rank]; omega)
    · exact potential_forward hx hpc trivial (by simp only [Pc.rank]; omega)
  · obtain ⟨_, older, _, hstate, heq⟩ := hok.drain_eq hpc hg hw hpos hlast
    rw [heq]
    have hmem : last ∈ W := by
      by_contra hnot
      by_cases hlx : last = d.executor
      · exact hnot (hlx ▸ hx)
      · have hlive := (hok.held (rest - 1) last (by omega) hw hlx).live
        simp [State.live, hW last hnot] at hlive
    refine potential_setState (s := s) (q := .drain leader older) hx hmem ?_ hpc trivial
      (by simp [Pc.rank]) s.linkOlder
    obtain hst | hst := hstate <;> simp [hst, WriterState.rank]

/-- A follower that has left for its leader releases it. -/
theorem Sim.potential_release (h : Sim c s v) (hW : ∀ w ∉ W, s.pc w = .idle) (hx : x ∈ W)
    {leader : Nat} (hpc : s.pc x = .release leader) :
    (s.releaseLeader x leader).potential W < s.potential W := by
  obtain ⟨l₁, d, l₂, hleft, _, _, _, hok, heq⟩ := h.release_eq hpc
  rw [heq]
  have hmem : leader ∈ W := by
    by_contra hnot
    have hlive := hok.leader.live
    simp [State.live, hW leader hnot] at hlive
  have hstate : s.state leader = .parallelMemtableWriter := by
    obtain ⟨hp, _⟩ | ⟨_, hst⟩ := hok.leader
    · simp [hok.leaderPc] at hp
    · exact hst
  exact potential_setState (s := s) (q := .returned) hx hmem
    (by simp [hstate, WriterState.rank]) hpc trivial (by simp [Pc.rank]) s.linkOlder

/-- A leader begins to walk over the links, or goes on to gather. -/
theorem Sim.potential_createLinks (h : Sim c s v) (hW : ∀ w ∉ W, s.pc w = .idle) (hx : x ∈ W)
    {head newest : Nat} (hpc : s.pc x = .createLinks head newest) :
    (s.createMissingNewerLink x head (.createLinks · newest)
      (.gather x newest (c.byteSize x))).potential W < s.potential W := by
  obtain ⟨_, _, hlead⟩ := h.leading_of_pc hpc trivial (h.mem_front hpc trivial)
  simp only [Leading, hpc] at hlead
  obtain ⟨_, _, e, _, hwalk⟩ := hlead
  refine h.potential_walk hW hx hwalk hpc (fun w => ⟨trivial, Nat.le_refl _⟩) ?_
  have hroom := (s.goto x (.gather x newest (c.byteSize x))).room_le W.card x
  rw [place_of_plain hpc trivial]
  unfold State.place
  rw [State.goto_pc_self]
  simp only [State.stale, State.goto_pc_self, Pc.rank]
  omega

/-- A thread that leaves walks over the links of those behind. -/
theorem Sim.potential_exitLinks (h : Sim c s v) (hW : ∀ w ∉ W, s.pc w = .idle) (hx : x ∈ W)
    {leader last head : Nat} (hpc : s.pc x = .exitLinks leader last head) :
    (s.createMissingNewerLink x head (.exitLinks leader last)
      (.handoff leader last)).potential W < s.potential W := by
  obtain ⟨g, rest, _, _, hexiting⟩ := h.exiting_of_pc hpc trivial
  have hexit := hexiting.exit
  simp only [Exit, hpc] at hexit
  obtain ⟨_, _, e, _, hwalk⟩ := hexit
  exact h.potential_walk hW hx hwalk hpc (fun w => ⟨trivial, Nat.le_refl _⟩)
    (place_lt hpc (State.goto_pc_self ..) trivial (by simp only [Pc.rank]; omega))

/-- A thread that leaves hands the leadership over. -/
theorem Sim.potential_handoff (h : Sim c s v) (hW : ∀ w ∉ W, s.pc w = .idle) (hx : x ∈ W)
    {leader last : Nat} (hpc : s.pc x = .handoff leader last) :
    (s.handoff c x leader last).potential W < s.potential W := by
  obtain ⟨next, others, hothers, _, heq⟩ := h.handoff_eq hpc
  rw [heq]
  have hnp : next ∈ v.pending := by simp [hothers]
  exact potential_setState (s := s) (q := .drain leader last) hx
    (h.mem_started hW (List.mem_append_right _ hnp))
    (by simp [(h.pending next hnp).1, WriterState.rank]) hpc trivial (by simp [Pc.rank]) _

/-- Every step of a thread lowers the potential. -/
theorem Sim.potential_move (h : Sim c s v) (hW : ∀ w ∉ W, s.pc w = .idle) {path : Path}
    (hstep : s.move c x path = some t) : t.potential W < s.potential W := by
  have hx : x ∈ W := by
    by_contra hnot
    simp [State.move, hW x hnot] at hstep
  unfold State.move at hstep
  cases hpc : s.pc x with
  | idle | returned => simp [hpc] at hstep
  | load =>
      simp only [hpc, Option.some.injEq] at hstep
      subst hstep
      rw [h.load_eq hpc]
      refine potential_goto hx ?_
      rw [place_of_plain hpc trivial]
      simp [State.place, State.room, State.stale, Pc.rank, State.goto]
  | link writers =>
      simp only [hpc, ← apply_ite some, Option.some.injEq] at hstep
      exact hstep ▸ potential_link hx hpc
  | selfLead =>
      simp only [hpc, Option.some.injEq] at hstep
      subst hstep
      obtain ⟨_, _, hlead⟩ := h.leading_of_pc hpc trivial (h.mem_front hpc trivial)
      simp only [Leading, hpc] at hlead
      exact potential_setState (s := s) (q := .preprocess) hx hx
        (by simp [hlead.2.1, WriterState.rank]) hpc trivial (by simp [Pc.rank]) s.linkOlder
  | await =>
      simp only [hpc, State.joinBatchGroup] at hstep
      cases hstate : s.state x <;> simp only [hstate] at hstep <;> cases hstep <;>
        exact potential_forward hx hpc trivial (by simp only [Pc.rank]; omega)
  | awaitAlone | awaitCompleted =>
      simp only [hpc] at hstep
      split_ifs at hstep
      cases hstep
      exact potential_forward hx hpc trivial (by simp only [Pc.rank]; omega)
  | alone =>
      simp only [hpc, Option.some.injEq] at hstep
      subst hstep
      exact potential_forward_group hx hpc trivial (by simp only [Pc.rank]; omega) rfl
        fun _ _ => rfl
  | preprocess =>
      simp only [hpc, Option.some.injEq] at hstep
      rw [← hstep, h.preprocess_eq hpc]
      exact potential_forward hx hpc trivial (by simp only [Pc.rank]; omega)
  | enter =>
      simp only [hpc, Option.some.injEq] at hstep
      obtain ⟨newest, _, _, _, heq⟩ := h.enter_eq hpc
      rw [← hstep, heq]
      refine potential_forward_group hx hpc trivial (by simp only [Pc.rank]; omega) rfl
        fun w hw => ?_
      show (Function.update s.group x _ w).size = _
      rw [Function.update_of_ne hw]
  | createLinks head newest =>
      simp only [hpc, Option.some.injEq] at hstep
      exact hstep ▸ h.potential_createLinks hW hx hpc
  | gather w newest size =>
      simp only [hpc, Option.some.injEq] at hstep
      exact hstep ▸ h.potential_gather hW hx hpc
  | apply =>
      simp only [hpc] at hstep
      exact potential_apply hx hpc hstep
  | insertGroup | insert =>
      simp only [hpc, Option.some.injEq] at hstep
      exact hstep ▸ potential_forward hx hpc trivial (by simp only [Pc.rank]; omega)
  | launch w =>
      simp only [hpc, Option.some.injEq] at hstep
      exact hstep ▸ h.potential_launch hW hx hpc
  | report =>
      simp only [hpc, Option.some.injEq] at hstep
      rw [← hstep, h.report_eq hpc]
      exact potential_forward hx hpc trivial (by simp only [Pc.rank]; omega)
  | complete =>
      simp only [hpc, Option.some.injEq] at hstep
      exact hstep ▸ h.potential_complete hx hpc
  | publish =>
      simp only [hpc, Option.some.injEq] at hstep
      rw [← hstep, h.publish_eq hpc]
      exact potential_forward hx hpc trivial (by simp only [Pc.rank]; omega)
  | exitLoad =>
      simp only [hpc, Option.some.injEq] at hstep
      obtain ⟨g, rest, head, _, _, _, _, heq⟩ := h.exitLoad_eq hpc
      rw [← hstep, heq]
      split_ifs
      · exact potential_forward hx hpc trivial (by simp only [Pc.rank]; omega)
      · exact potential_forward hx hpc trivial (by simp only [Pc.rank]; omega)
  | exitCas leader last =>
      simp only [hpc, Option.some.injEq] at hstep
      exact hstep ▸ h.potential_exitCas hx hpc
  | exitLinks leader last head =>
      simp only [hpc, Option.some.injEq] at hstep
      exact hstep ▸ h.potential_exitLinks hW hx hpc
  | handoff leader last =>
      simp only [hpc, Option.some.injEq] at hstep
      exact hstep ▸ h.potential_handoff hW hx hpc
  | drain leader last =>
      simp only [hpc, Option.some.injEq] at hstep
      exact hstep ▸ h.potential_drain hW hx hpc
  | release leader =>
      simp only [hpc, Option.some.injEq] at hstep
      exact hstep ▸ h.potential_release hW hx hpc

end P2KVS.WriteThread
