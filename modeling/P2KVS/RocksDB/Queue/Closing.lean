import P2KVS.RocksDB.Queue.Linking

/-!
# Closing a group

The leader gathers the writers that fit, closes the group, and goes on alone or with its members.
-/

namespace P2KVS.WriteThread

open Transition Intrusive

variable {c : Config} {s t : State} {v : View} {x : Nat}

/-! ### Closing the group -/

/-- The iteration over a group passes the writers of the queue in order. -/
theorem State.iterate_eq {q : List Nat} {k last : Nat} (hnodup : q.Nodup)
    (hlinks : ∀ i y, i < k → q[i]? = some y → s.linkNewer y = q[i + 1]?)
    (hlast : q[k]? = some last) (n i w : Nat) (hi : i + n = k) (hw : q[i]? = some w) :
    s.iterate last (n + 1) w = (q.drop i).take (n + 1) := by
  induction n generalizing i w with
  | zero =>
      obtain rfl : i = k := by omega
      obtain rfl : w = last := Option.some.inj (hw.symm.trans hlast)
      obtain ⟨hlt, hget⟩ := List.getElem?_eq_some_iff.mp hw
      rw [List.drop_eq_getElem_cons hlt, hget]
      simp [State.iterate]
  | succ n ih =>
      have hne : w ≠ last := fun heq => by
        have := index_inj hnodup hw (heq ▸ hlast)
        omega
      have hk := (List.getElem?_eq_some_iff.mp hlast).1
      obtain ⟨y, hy⟩ : ∃ y, q[i + 1]? = some y := ⟨_, List.getElem?_eq_getElem (by omega)⟩
      obtain ⟨hlt, hget⟩ := List.getElem?_eq_some_iff.mp hw
      rw [State.iterate, if_neg hne, hlinks i w (by omega) hw, hy]
      simp only
      rw [ih (i + 1) y (by omega) hy, List.drop_eq_getElem_cons hlt, hget, List.take_succ_cons]

/-- The tests of `EnterAsBatchGroupLeader` for one more writer. -/
theorem Config.admits_iff {g size w : Nat} : c.admits g size w = true ↔
    Compatible c g w ∧ size + c.byteSize w ≤ c.maxSize (c.byteSize g) := by
  have hcb : (c.request w).callback.all Callback.allowWriteBatching = true ↔
      ∀ cb, (c.request w).callback = some cb → cb.allowWriteBatching = true := by
    cases (c.request w).callback <;> simp
  have hb : (c.request w).batch.isSome = true ↔ (c.request w).batch ≠ none := by
    cases (c.request w).batch <;> simp
  have hsync : (!((c.request w).sync && !(c.request g).sync)) = true ↔
      ((c.request w).sync = true → (c.request g).sync = true) := by
    cases (c.request w).sync <;> cases (c.request g).sync <;> simp
  simp only [Config.admits, Bool.and_eq_true, hcb, hb, hsync, beq_iff_eq, decide_eq_true_eq]
  constructor
  · rintro ⟨⟨⟨⟨⟨h₁, h₂⟩, h₃⟩, h₄⟩, h₅⟩, h₆⟩
    exact ⟨⟨h₁, h₂, h₃, h₄, h₅⟩, h₆⟩
  · rintro ⟨⟨h₁, h₂, h₃, h₄, h₅⟩, h₆⟩
    exact ⟨⟨⟨⟨⟨h₁, h₂⟩, h₃⟩, h₄⟩, h₅⟩, h₆⟩

/-- The leader has gathered `k + 1` writers and stops. -/
theorem Sim.close (h : Sim c s v) (hphase : v.phase = .leading) (hfront : v.front = [x])
    (hgap : v.gap = none) (hstate : s.state x = .groupLeader) {k size : Nat}
    (hgathered : Gathered c s v.toLine x k size)
    (hlinks : ∀ i y, i < k → v.queue[i]? = some y → s.linkNewer y ≠ none) :
    ∃ v', Sim c (s.close x) v' := by
  obtain ⟨hlast, hlength, hgroup, -, hfits⟩ := hgathered
  have hhead : v.queue[0]? = some x := by simp [Line.queue, hfront]
  have hk := (List.getElem?_eq_some_iff.mp hlast).1
  have hqueue : v.queue = x :: v.pending := by simp [Line.queue, hfront]
  have htake : v.queue.take (k + 1) = x :: v.pending.take k := by rw [hqueue, List.take_succ_cons]
  have hmembers : s.members x = v.queue.take (k + 1) := by
    rw [State.members, hlength]
    refine State.iterate_eq h.linked.nodup (fun i y hi hy => ?_) hlast k 0 x (by omega) hhead
    exact h.linked.newer_eq hy (hlinks i y hi hy)
  refine ⟨{ v with
    front := v.queue.take (k + 1), phase := .serial, pending := v.queue.drop (k + 1) }, ?_⟩
  have hqueue' : Line.queue { v.toLine with
      front := v.queue.take (k + 1), phase := .serial, pending := v.queue.drop (k + 1) } =
        v.queue :=
    List.take_append_drop ..
  refine h.front_step rfl hqueue' ?_ rfl (fun _ _ => rfl) ?_ (fun _ _ => rfl) h.linked ?_ ?_ ?_
  · intro w hw
    have hdrop : v.queue.drop (k + 1) = v.pending.drop k := by rw [hqueue, List.drop_succ_cons]
    rw [show _ = v.queue.drop (k + 1) from rfl, hdrop] at hw
    exact List.mem_of_mem_drop hw
  · intro w hw
    have hne : w ≠ x := fun heq => hw (by simp [hfront, heq])
    exact State.goto_pc_of_ne _ _ _ hne
  · refine Serial.front htake rfl ⟨hgap, ⟨?_, ?_, hgroup, ?_⟩, hstate, .inl ?_, ?_⟩
    · show (v.queue.take (k + 1)).getLast? = some (s.group x).lastWriter
      rw [List.getLast?_eq_getElem?, List.length_take, Nat.min_eq_left (by omega),
        List.getElem?_take_of_lt (by omega)]
      exact hlast
    · show (s.group x).size = (v.queue.take (k + 1)).length
      rw [List.length_take, Nat.min_eq_left (by omega), hlength]
    · intro i y hi hy
      rw [show (View.toLine _).front.length = _ from rfl, List.length_take,
        Nat.min_eq_left (by omega)] at hi
      rw [show (View.toLine _).front[i]? = (v.queue.take (k + 1))[i]? from rfl,
        List.getElem?_take_of_lt (by omega)] at hy
      exact hlinks i y (by omega) hy
    · exact State.goto_pc_self ..
    · intro w hw hne
      rw [show (View.toLine _).front = v.queue.take (k + 1) from rfl, htake] at hw
      have hw' := (List.mem_cons.mp hw).resolve_left hne
      obtain ⟨hst, ⟨hpc, _⟩ | ⟨_, hb⟩⟩ := h.pending w (List.mem_of_mem_take hw')
      · exact ⟨(State.goto_pc_of_ne _ _ _ hne).trans hpc, hst⟩
      · exact absurd hb ((hfits x _ htake).1 w hw').batch
  · show s.formed ++ [s.members x] = _
    rw [h.closed, hmembers]
    simp [View.closed, hphase]
  · intro group hgroup'
    rcases List.mem_append.mp hgroup' with hmem | hmem
    · exact h.fits group hmem
    · rw [List.mem_singleton.mp hmem, hmembers]
      exact hfits

/-- The leader stops at the newest writer, or looks at the one behind those it has gathered. -/
theorem Sim.gather_eq (h : Sim c s v) (x size : Nat) {w newest k e : Nat}
    (hw : v.queue[k]? = some w) (he : v.queue[e]? = some newest) (hke : k ≤ e)
    (hlinks : ∀ i y, i < e → v.queue[i]? = some y → s.linkNewer y ≠ none) :
    s.gather c x w newest size = s.close x ∨ ∃ y, k < e ∧ v.queue[k + 1]? = some y ∧
      s.gather c x w newest size = if c.admits x size y then
        (s.addMember x y).goto x (.gather y newest (size + c.byteSize y)) else s.close x := by
  by_cases hnewest : w = newest
  · exact .inl (if_pos hnewest)
  -- there is a writer behind `w`, and the link to it exists
  right
  have hlt : k < e := by
    refine Nat.lt_of_le_of_ne hke fun heq => hnewest ?_
    exact Option.some.inj (hw.symm.trans (heq ▸ he))
  have hle := (List.getElem?_eq_some_iff.mp he).1
  obtain ⟨y, hy⟩ : ∃ y, v.queue[k + 1]? = some y := ⟨_, List.getElem?_eq_getElem (by omega)⟩
  have hnewer : s.linkNewer w = some y :=
    (h.linked.newer_eq hw (hlinks k w hlt hw)).trans hy
  refine ⟨y, hlt, hy, ?_⟩
  rw [State.gather, if_neg hnewest, State.deref_live _ (h.live (List.mem_of_getElem? hw))]
  simp only [hnewer]
  rw [State.deref_live _ (h.live (List.mem_of_getElem? hy))]

/-- The leader takes one more writer into its group, or closes the group. -/
theorem Sim.gather (h : Sim c s v) {w newest size : Nat} (hpc : s.pc x = .gather w newest size) :
    ∃ v', Sim c (s.gather c x w newest size) v' := by
  obtain ⟨hphase, hfront, hlead⟩ := h.leading_of_pc hpc trivial (h.mem_front hpc trivial)
  simp only [Leading, hpc] at hlead
  obtain ⟨hgap, hstate, k, e, hgathered, hw, he, hke, hlinks⟩ := hlead
  have hclose := h.close hphase hfront hgap hstate hgathered
    (fun i y hi hy => hlinks i y (by omega) hy)
  obtain hstep | ⟨y, hlt, hy, hstep⟩ := h.gather_eq x size hw he hke hlinks
  · rw [hstep]
    exact hclose
  rw [hstep]
  by_cases hadmits : c.admits x size y = true
  · rw [if_pos hadmits]
    obtain ⟨hcompatible, hbound⟩ := Config.admits_iff.mp hadmits
    refine ⟨{ v with gap := none }, h.lead_step hphase hfront rfl (fun _ _ => rfl)
      (fun w hw => State.goto_pc_of_ne _ _ _ hw) (fun _ _ => rfl) (hgap ▸ h.linked) ?_⟩
    obtain ⟨hlast, hlength, hgroup, hbytes, hfits⟩ := hgathered
    have htake : v.queue.take (k + 1 + 1) = v.queue.take (k + 1) ++ [y] := by
      rw [List.take_add_one, hy]
      rfl
    have hqueue : v.queue = x :: v.pending := by simp [Line.queue, hfront]
    have hsum : bytes c (v.queue.take (k + 1 + 1)) = size + c.byteSize y := by
      rw [htake, hbytes]
      simp [bytes]
    unfold Leading
    rw [State.goto_pc_self]
    refine ⟨rfl, hstate, k + 1, e, ⟨?_, ?_, ?_, hsum.symm, ?_⟩, hy, he, hlt, hlinks⟩
    · show v.queue[k + 1]? = some (Function.update s.group x _ x).lastWriter
      rw [Function.update_self, hy]
    · show (Function.update s.group x _ x).size = k + 1 + 1
      rw [Function.update_self, hlength]
    · show ∀ w ∈ v.queue.take (k + 1 + 1), Function.update s.writeGroup y (some x) w = some x
      intro w hw
      by_cases hwy : w = y
      · rw [hwy, Function.update_self]
      · rw [Function.update_of_ne hwy]
        rw [htake, List.mem_append, List.mem_singleton] at hw
        exact hgroup w (hw.resolve_right hwy)
    · show Fits c (v.queue.take (k + 1 + 1))
      intro g rest hgr
      have hold : v.queue.take (k + 1) = x :: v.pending.take k := by
        rw [hqueue, List.take_succ_cons]
      obtain ⟨rfl, hrest⟩ : x = g ∧ v.pending.take k ++ [y] = rest := by
        rw [htake, hold] at hgr
        exact List.cons.inj hgr
      refine ⟨?_, fun _ => by rw [hsum]; exact hbound⟩
      intro w hw
      rw [← hrest, List.mem_append, List.mem_singleton] at hw
      obtain hw | rfl := hw
      · exact (hfits x _ hold).1 w hw
      · exact hcompatible
  · rw [if_neg hadmits]
    exact hclose

/-! ### The closed group -/

/-- A step inside a closed front group that keeps the list as it is. -/
theorem Sim.closed_step (h : Sim c s v) (hphase : v.phase ≠ .leading) {phase : Phase}
    (hphase' : phase ≠ .leading)
    (hsame : (t.fault, t.order, t.newestWriter, t.linkOlder, t.linkNewer, t.formed) =
      (s.fault, s.order, s.newestWriter, s.linkOlder, s.linkNewer, s.formed))
    (hpc : ∀ w ∉ v.front, t.pc w = s.pc w) (hstate : ∀ w ∉ v.front, t.state w = s.state w)
    (hfront : Front c t { v.toLine with phase := phase }) : Sim c t { v with phase := phase } := by
  simp only [Prod.mk.injEq] at hsame
  obtain ⟨hfault, horder, hnewest, holder, hnewer, hformed⟩ := hsame
  refine h.front_step rfl rfl (fun _ hw => hw) (by rw [hfault, horder, hnewest, holder])
    (fun _ _ => by rw [hnewer]) hpc hstate ?_ hfront ?_ (hformed ▸ h.fits)
  · rw [holder, hnewer]
    exact h.linked
  · rw [hformed, h.closed]
    simp [View.closed, hphase, hphase']

/-- A writer without a batch closes a group of its own. -/
theorem Sim.alone (h : Sim c s v) (hpc : s.pc x = .alone) :
    ∃ v', Sim c ({ s with formed := s.formed ++ [[x]] }.goto x (.exitCas x x)) v' := by
  obtain ⟨hphase, hfront, hlead⟩ := h.leading_of_pc hpc trivial (h.mem_front hpc trivial)
  simp only [Leading, hpc] at hlead
  refine ⟨{ v with phase := .exiting x }, ?_⟩
  refine h.front_step rfl rfl (fun _ hw => hw) rfl (fun _ _ => rfl) ?_ (fun _ _ => rfl) h.linked
    ?_ ?_ ?_
  · intro w hw
    have hne : w ≠ x := fun heq => hw (by simp [hfront, heq])
    exact State.goto_pc_of_ne _ _ _ hne
  · refine Exiting.front hfront rfl ⟨by simp [hfront], ?_, fun hne => absurd rfl hne, ?_⟩
    · intro w hw hne
      rw [show (View.toLine _).front = v.front from rfl, hfront, List.mem_singleton] at hw
      exact absurd hw hne
    · unfold Exit
      rw [State.goto_pc_self]
      exact ⟨hlead.1, rfl, by simp [hfront]⟩
  · show s.formed ++ [[x]] = _
    rw [h.closed]
    simp [View.closed, hphase, hfront]
  · intro group hgroup
    rcases List.mem_append.mp hgroup with hmem | hmem
    · exact h.fits group hmem
    · rw [List.mem_singleton.mp hmem]
      intro g rest hgr
      obtain ⟨_, rfl⟩ := List.cons.inj hgr
      exact ⟨by simp, by simp⟩

/-- A leader that has worked for all members begins the exit. -/
theorem Sim.serial_exit (h : Sim c s v) (hpc : s.pc x = .apply ∨ s.pc x = .insertGroup) {p : Pc}
    (hp : p = .publish ∨ p = .exitLoad) : ∃ v', Sim c (s.goto x p) v' := by
  obtain ⟨hphase, ⟨rest, hfront⟩, hserial⟩ := h.serial_of_pc hpc
  refine ⟨{ v with phase := .exiting x }, h.closed_step (by simp [hphase]) (by simp) rfl ?_
    (fun _ _ => rfl) ?_⟩
  · intro w hw
    have hne : w ≠ x := fun heq => hw (by simp [hfront, heq])
    exact State.goto_pc_of_ne _ _ _ hne
  · obtain ⟨hgap, ⟨h₁, h₂, h₃, h₄⟩, _, _, hwaiting⟩ := hserial
    refine Exiting.front hfront rfl ⟨by simp [hfront], ?_, fun hne => absurd rfl hne, ?_⟩
    · intro w hw hne
      exact .inl ((hwaiting w hw hne).congr (State.goto_pc_of_ne _ _ _ hne) rfl)
    · unfold Exit
      rw [State.goto_pc_self]
      obtain rfl | rfl := hp <;> exact ⟨hgap, ⟨h₁, h₂, h₃, h₄⟩⟩

/-- The three ways to apply a group. -/
theorem State.apply_cases {path : Path} (h : s.apply x path = some t) :
    path = .skip ∧ t = s.goto x .exitLoad ∨ path = .serial ∧ t = s.goto x .insertGroup ∨
      path = .parallel ∧ 1 < (s.group x).size ∧
        t = (s.setRunning x (s.group x).size).goto x (.launch x) := by
  cases path with
  | skip =>
      cases h
      exact .inl ⟨rfl, rfl⟩
  | serial =>
      cases h
      exact .inr (.inl ⟨rfl, rfl⟩)
  | parallel =>
      simp only [State.apply] at h
      split_ifs at h with hsize
      cases h
      exact .inr (.inr ⟨rfl, hsize, rfl⟩)

/-- The leader behind the write to the log: it inserts alone, launches the others or exits. -/
theorem Sim.apply (h : Sim c s v) (hpc : s.pc x = .apply) {path : Path}
    (hstep : s.apply x path = some t) : ∃ v', Sim c t v' := by
  cases path with
  | skip =>
      cases hstep
      exact h.serial_exit (.inl hpc) (.inr rfl)
  | serial =>
      cases hstep
      obtain ⟨hphase, ⟨rest, hfront⟩, hserial⟩ := h.serial_of_pc (.inl hpc)
      refine ⟨{ v with phase := .serial }, h.closed_step (by simp [hphase]) (by simp) rfl ?_
        (fun _ _ => rfl) ?_⟩
      · intro w hw
        have hne : w ≠ x := fun heq => hw (by simp [hfront, heq])
        exact State.goto_pc_of_ne _ _ _ hne
      · obtain ⟨hgap, ⟨h₁, h₂, h₃, h₄⟩, hstate, _, hwaiting⟩ := hserial
        refine Serial.front hfront rfl ⟨hgap, ⟨h₁, h₂, h₃, h₄⟩, hstate, .inr ?_, ?_⟩
        · exact State.goto_pc_self ..
        · intro w hw hne
          exact (hwaiting w hw hne).congr (State.goto_pc_of_ne _ _ _ hne) rfl
  | parallel =>
      obtain ⟨hphase, ⟨rest, hfront⟩, hserial⟩ := h.serial_of_pc (.inl hpc)
      obtain ⟨hgap, ⟨h₁, h₂, h₃, h₄⟩, hstate, _, hwaiting⟩ := hserial
      simp only [State.apply] at hstep
      split_ifs at hstep with hsize
      cases hstep
      refine ⟨{ v with phase := .launched 0 }, h.closed_step (by simp [hphase]) (by simp) rfl ?_
        (fun _ _ => rfl) ?_⟩
      · intro w hw
        have hne : w ≠ x := fun heq => hw (by simp [hfront, heq])
        exact State.goto_pc_of_ne _ _ _ hne
      · have hgroup : ((s.setRunning x (s.group x).size).goto x (.launch x)).group x =
            { s.group x with running := (s.group x).size } := Function.update_self ..
        -- nobody has finished yet
        have hcount : v.front.countP (fun w =>
            ((s.setRunning x (s.group x).size).goto x (.launch x)).pc w ≠ .awaitCompleted) =
            v.front.length := by
          rw [List.countP_eq_length]
          intro w hw
          by_cases hne : w = x
          · simp [hne]
          · rw [State.goto_pc_of_ne _ _ _ hne]
            have hp : (s.setRunning x (s.group x).size).pc w = .await := (hwaiting w hw hne).1
            simp [hp]
        refine Launched.front hfront rfl
          ⟨hgap, ⟨?_, ?_, h₃, h₄⟩, fun _ => hstate, ?_, ?_, ?_, ?_, ?_, ?_⟩
        · rw [hgroup]
          exact h₁
        · rw [hgroup]
          exact h₂
        · exact fun i w hi => absurd hi (by omega)
        · exact fun i w hi => absurd hi (by omega)
        · intro i w _ hw hne
          exact (hwaiting w (List.mem_of_getElem? hw) hne).congr (State.goto_pc_of_ne _ _ _ hne) rfl
        · exact .inl ⟨x, by simp [hfront], State.goto_pc_self ..⟩
        · rw [hgroup]
          exact h₂.trans hcount.symm
        · rw [hgroup]
          exact Nat.lt_trans Nat.zero_lt_one hsize

end P2KVS.WriteThread
