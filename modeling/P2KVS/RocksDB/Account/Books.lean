import P2KVS.RocksDB.Account.Members

/-!
# The books of an instance

`Books` has the accounts of all groups, the source of every entry in the memtable, and the results
of the writes that have returned. Every step keeps them.
-/

namespace P2KVS.WriteImpl

open Transition WriteThread

section Steps

variable {c : Config} {db db' : Db} {v : View} {x : Nat} {o : Outcome}

/-- A step that is not a release changes the status of its own writer only. -/
theorem effect_status {w : Nat} (hw : w ≠ x) (hdrain : ∀ g, db.thread.pc x = .drain g w → w = g) :
    (db.effect c x o).1.status w = db.status w := by
  cases hpc : db.thread.pc x with
  | apply =>
      rw [Db.effect_apply hpc]
      obtain ⟨_, heq⟩ | ⟨_, ⟨_, heq⟩ | ⟨_, heq⟩⟩ := db.applyGroup_cases (c := c) x o <;>
        rw [heq] <;> rfl
  | insertGroup =>
      rw [Db.effect_insertGroup hpc]
      exact Function.update_of_ne hw _ _
  | insert =>
      rw [Db.effect_insert hpc]
      split_ifs
      · exact Function.update_of_ne hw _ _
      · rfl
  | drain leader last =>
      rw [Db.effect_drain hpc]
      split_ifs with hlast
      · rfl
      · have hne : w ≠ last := by
          rintro rfl
          exact hlast (hdrain leader hpc)
        exact Function.update_of_ne hne _ _
  | report | complete =>
      simp only [Db.effect, hpc]
      split_ifs <;> simp [Function.update_of_ne hw]
  | _ => simp [Db.effect, hpc]

/-- Only a leader changes its local variables, before it leads and when it applies its group. -/
theorem effect_local {w : Nat}
    (hw : w ≠ x ∨ db.thread.pc x ≠ .preprocess ∧ db.thread.pc x ≠ .apply) :
    (db.effect c x o).1.localStatus w = db.localStatus w ∧
      (db.effect c x o).1.currentSequence w = db.currentSequence w := by
  cases hpc : db.thread.pc x with
  | preprocess =>
      have hne : w ≠ x := hw.resolve_right fun h => h.1 hpc
      rw [Db.effect_preprocess hpc]
      exact ⟨Function.update_of_ne hne _ _, rfl⟩
  | apply =>
      have hne : w ≠ x := hw.resolve_right fun h => h.2 hpc
      rw [Db.effect_apply hpc]
      obtain ⟨_, heq⟩ | ⟨_, ⟨_, heq⟩ | ⟨_, heq⟩⟩ := db.applyGroup_cases (c := c) x o <;> rw [heq]
      · exact ⟨rfl, rfl⟩
      · exact ⟨Function.update_of_ne hne _ _, Function.update_of_ne hne _ _⟩
      · exact ⟨Function.update_of_ne hne _ _, Function.update_of_ne hne _ _⟩
  | insert | report | complete | drain =>
      simp only [Db.effect, hpc]
      split_ifs <;> exact ⟨rfl, rfl⟩
  | _ => simp [Db.effect, hpc]

/-- The entry comes from a group whose log was written, with the number it has there. -/
def Sourced (c : Config) (db : Db) (e : Nat × Nat) : Prop :=
  ∃ M ∈ db.thread.formed, ∃ g, M.head? = some g ∧ (c.request g).batch ≠ none ∧
    db.thread.pc g ≠ .apply ∧ db.localStatus g = .ok ∧ e ∈ insertions c (db.currentSequence g) M

/-- What holds of an instance in every reachable state: only writers with a batch join a write
group, and a writer without one is alone; a new group has no error; every applied group has an
account; what a write returned can still be read off; and every entry of the memtable comes from a
group whose log was written. -/
structure Books (c : Config) (db : Db) : Prop where
  batch : ∀ w g, db.thread.writeGroup w = some g → (c.request w).batch ≠ none
  alone : ∀ M ∈ db.thread.formed, ∀ g, M.head? = some g → (c.request g).batch = none → M = [g]
  opened : ∀ y, (db.thread.pc y).gathering ∨ db.thread.pc y = .apply → db.groupStatus y = .ok
  ledger : Ledger c db
  result : ∀ w, (c.request w).batch ≠ none → db.thread.pc w = .returned →
    db.result w = some (db.returns c w)
  finished : ∀ w, db.result w ≠ none → db.thread.pc w = .returned ∧ (c.request w).batch ≠ none
  source : ∀ e ∈ db.memtable, Sourced c db e

section Books

variable {t : State}

/-- A turn keeps the ledger: the group of the thread goes on, the others are left alone, and a new
one has not been applied. -/
theorem Books.ledger_step (h : Books c db) (hsim : Sim c db.thread v)
    (hturn : Turn c db.thread x (db.effect c x o).2 t) :
    Ledger c ((db.effect c x o).1.settle c t x) := by
  intro M hM g hhead hbatch hpcg
  have hg : g ∈ M := List.mem_of_head? hhead
  rw [Db.settle_thread] at hM hpcg
  have hold : M ∈ db.thread.formed → Account c ((db.effect c x o).1.settle c t x) M g := by
    intro hM
    have hgf : g ∈ db.thread.formed.flatten := List.mem_flatten.mpr ⟨M, hM, hg⟩
    by_cases happly : db.thread.pc g = .apply
    · -- only the leader itself can have left this place
      have hgx : g = x := by
        by_contra hne
        exact hpcg ((hturn.pc_of_ne hne).trans happly)
      subst hgx
      have hquiet := h.opened g (.inr happly)
      cases hturn with
      | apply hcurrent hpc hwaiting hstate hstep =>
          obtain rfl := hsim.formed_unique hcurrent.formed hM hcurrent.leader_mem hg
          exact Account.apply hcurrent hpc hwaiting hstate hquiet hstep
      | early hout | preprocess hout | enter hout | gather hout => exact absurd hgf hout.not_mem
      | close _ hhead' _ _ hnew => exact absurd hgf (hnew g (List.mem_of_head? hhead')).2
      | alone _ _ hnot => exact absurd hgf hnot
      | returned _ _ hpc => obtain hp | hp := hpc <;> simp [happly] at hp
      | exit _ _ _ hpc => simp [happly, Pc.leaving] at hpc
      | _ => simp_all
    · have haccount := h.ledger M hM g hhead hbatch happly
      by_cases hx : x ∈ M
      · exact haccount.turn hsim hturn hM hhead hx happly
      · obtain ⟨hkept, hsame⟩ := kept_of_not_mem hsim hturn hM hx hg
        exact haccount.advance hkept (fun w hw _ => hsame w hw) (fun hx' => absurd hx' hx)
          (fun heq => absurd (heq ▸ hg) hx) (fun hx' => absurd hx' hx) (fun hx' => absurd hx' hx) hg
  by_cases hmem : M ∈ db.thread.formed
  · exact hold hmem
  -- a new group has not been applied
  obtain ⟨rfl, hnone⟩ | ⟨_, happly, hhead', _⟩ := hturn.new_group hM hmem
  · exact absurd (List.mem_singleton.mp hg ▸ hnone) hbatch
  · exact absurd ((Option.some.inj (hhead'.symm.trans hhead)) ▸ happly) hpcg

/-- A group that its leader has not applied has no error yet. -/
theorem Books.opened_step (h : Books c db) (hsim : Sim c db.thread v)
    (hturn : Turn c db.thread x (db.effect c x o).2 t) (y : Nat)
    (hy : (t.pc y).gathering ∨ t.pc y = .apply) : (db.effect c x o).1.groupStatus y = .ok := by
  by_cases hyx : y = x
  · subst hyx
    cases hturn with
    | early _ _ _ hpc => cases hp : t.pc y <;> simp_all [Pc.early, Pc.gathering]
    | preprocess _ _ hpc => simp [hpc, Pc.gathering] at hy
    | enter _ hpc =>
        rw [Db.effect_enter hpc]
        exact Function.update_self ..
    | gather _ hpc =>
        rw [Db.effect_silent (silent_of_gathering hpc)]
        exact h.opened y (.inl hpc)
    | close hpc =>
        rw [Db.effect_silent (silent_of_gathering hpc)]
        exact h.opened y (.inl hpc)
    | apply _ _ _ _ hstep =>
        obtain ⟨_, rfl⟩ | ⟨_, rfl⟩ | ⟨_, _, rfl⟩ := State.apply_cases hstep <;>
          simp [Pc.gathering] at hy
    | launch _ _ _ hq => obtain rfl | ⟨z, rfl⟩ := hq <;> simp [Pc.gathering] at hy
    | @exitLoad _ _ q _ _ _ _ _ hq =>
        rw [State.goto_pc_self] at hy
        cases q <;> simp_all [Pc.leaving, Pc.gathering]
    | exit _ _ _ _ _ _ _ _ hq => cases hp : t.pc y <;> simp_all [Pc.leaving, Pc.gathering]
    | _ => simp [Pc.gathering] at hy
  · rw [hturn.pc_of_ne hyx] at hy
    have hold := h.opened y hy
    cases hpc : db.thread.pc x with
    | enter =>
        rw [Db.effect_enter hpc]
        exact (Function.update_of_ne hyx _ _).trans hold
    | apply =>
        rw [Db.effect_apply hpc]
        obtain ⟨_, heq⟩ | ⟨_, ⟨_, heq⟩ | ⟨_, heq⟩⟩ := db.applyGroup_cases (c := c) x o <;>
          rw [heq] <;> exact hold
    | report =>
        obtain ⟨g, rest, told, hfront, hphase, hxf, hl⟩ := hsim.launched_of_pc hpc trivial
        have hins := hsim.inserting hfront hphase hl
        -- a leader whose members insert has closed its group
        have hyg : y ≠ g := by
          rintro rfl
          obtain ⟨w, hp⟩ | hp | hp | hp | hp := hins.leader <;> simp [hp, Pc.gathering] at hy
        rw [Db.effect_report hpc (hins.group x hxf)]
        split_ifs
        · exact hold
        · exact (Function.update_of_ne hyg _ _).trans hold
    | insert | complete | drain =>
        simp only [Db.effect, hpc]
        split_ifs <;> exact hold
    | _ => simpa [Db.effect, hpc] using hold

/-- A writer without a batch stays alone in its group. -/
theorem Books.alone_step (h : Books c db) (hturn : Turn c db.thread x (db.effect c x o).2 t) :
    ∀ M ∈ t.formed, ∀ g, M.head? = some g → (c.request g).batch = none → M = [g] := by
  intro M hM g hhead hnone
  by_cases hold : M ∈ db.thread.formed
  · exact h.alone M hold g hhead hnone
  obtain ⟨rfl, _⟩ | ⟨_, _, hhead', _, hmembers⟩ := hturn.new_group hM hold
  · rw [Option.some.inj hhead]
  · obtain rfl : x = g := Option.some.inj (hhead'.symm.trans hhead)
    exact absurd hnone (h.batch x x (hmembers x (List.mem_of_head? hhead)).1)

/-- A group that has been applied keeps what its entries are computed from. -/
theorem Sourced.step {e : Nat × Nat} (h : Sourced c db e)
    (hturn : Turn c db.thread x (db.effect c x o).2 t) :
    Sourced c ((db.effect c x o).1.settle c t x) e := by
  obtain ⟨M, hM, g, hhead, hbatch, hpc, hok, he⟩ := h
  have hg : g ∈ db.thread.formed.flatten := List.mem_flatten.mpr ⟨M, hM, List.mem_of_head? hhead⟩
  have hlocal : g ≠ x ∨ db.thread.pc x ≠ .preprocess ∧ db.thread.pc x ≠ .apply := by
    by_cases hgx : g = x
    · subst hgx
      refine .inr ⟨fun hp => ?_, hpc⟩
      cases hturn with
      | early hout | preprocess hout | enter hout | gather hout => exact hout.not_mem hg
      | close _ hhead' _ _ hnew => exact (hnew g (List.mem_of_head? hhead')).2 hg
      | alone _ _ hnot => exact hnot hg
      | returned _ _ hpc => obtain hq | hq := hpc <;> simp [hp] at hq
      | exit _ _ _ hpc => simp [hp, Pc.leaving] at hpc
      | _ => simp_all
    · exact .inl hgx
  obtain ⟨h₁, h₂⟩ := effect_local (c := c) (o := o) hlocal
  refine ⟨M, ?_, g, hhead, hbatch, hturn.pc_ne_apply hg hpc, h₁.trans hok, ?_⟩
  · obtain heq | ⟨N, heq, _⟩ := hturn.formed
    · exact heq ▸ hM
    · rw [Db.settle_thread, heq]
      exact List.mem_append_left _ hM
  · show e ∈ insertions c ((db.effect c x o).1.currentSequence g) M
    rwa [h₂]

/-- A failed insertion inserts a part of its entries, and never others. -/
theorem Outcome.mem_of_inserts {e : Nat × Nat} {entries : List (Nat × Nat)}
    (h : e ∈ o.inserts entries) : e ∈ entries := by
  unfold Outcome.inserts at h
  split_ifs at h
  · exact h
  · exact List.mem_of_mem_take h

/-- What a step inserts belongs to a group that has been applied. -/
theorem Books.sourced_of_effect (h : Books c db) (hsim : Sim c db.thread v) {e : Nat × Nat}
    (he : e ∈ (db.effect c x o).1.memtable) (hnew : e ∉ db.memtable) : Sourced c db e := by
  cases hpc : db.thread.pc x with
  | insertGroup =>
      obtain ⟨hphase, ⟨rest, hfront⟩, hserial⟩ := hsim.serial_of_pc (.inr hpc)
      have hcurrent := hsim.current hfront (by simp [hphase]) hserial.closed
      have hx := hcurrent.leader_mem
      have hbatch := h.batch x x (hcurrent.group x hx)
      have haccount := h.ledger _ hcurrent.formed x hcurrent.head hbatch (by simp [hpc])
      have hok := (haccount.members x hx).applied (by simp [hpc, Pc.applied])
      rw [Db.effect_insertGroup hpc, hcurrent.members] at he
      have hins := (List.mem_append.mp he).resolve_left hnew
      exact ⟨_, hcurrent.formed, x, hcurrent.head, hbatch, by simp [hpc], hok,
        o.mem_of_inserts hins⟩
  | insert =>
      obtain ⟨g, rest, told, hfront, hphase, hx, hl⟩ := hsim.launched_of_pc hpc trivial
      have hins := hsim.inserting hfront hphase hl
      have hg := hins.leader_mem
      have hbatch := h.batch g g (hins.group g hg)
      have hpcg : db.thread.pc g ≠ .apply := by
        obtain ⟨w, hp⟩ | hp | hp | hp | hp := hins.leader <;> simp [hp]
      have haccount := h.ledger _ hins.formed g hins.head hbatch hpcg
      have hok := (haccount.members x hx).applied (by simp [hpc, Pc.applied])
      rw [Db.effect_insert hpc] at he
      simp only at he
      split_ifs at he
      · have hmem := o.mem_of_inserts ((List.mem_append.mp he).resolve_left hnew)
        obtain ⟨n, hn, rfl⟩ := List.mem_map.mp hmem
        exact ⟨_, hins.formed, g, hins.head, hbatch, hpcg, hok, haccount.numbered hok x hx n hn⟩
      · exact absurd he hnew
  | apply =>
      rw [Db.effect_apply hpc] at he
      obtain ⟨_, heq⟩ | ⟨_, ⟨_, heq⟩ | ⟨_, heq⟩⟩ := db.applyGroup_cases (c := c) x o <;>
        rw [heq] at he <;> exact absurd he hnew
  | report | complete | drain =>
      simp only [Db.effect, hpc] at he
      split_ifs at he <;> exact absurd he hnew
  | _ =>
      simp only [Db.effect, hpc] at he
      exact absurd he hnew

/-- A writer that returned keeps its status. -/
theorem returns_of_returned (hsim : Sim c db.thread v)
    (hturn : Turn c db.thread x (db.effect c x o).2 t) {w : Nat} (hw : w ≠ x)
    (hret : db.thread.pc w = .returned) :
    ((db.effect c x o).1.settle c t x).returns c w = db.returns c w := by
  have hstatus : (db.effect c x o).1.status w = db.status w := by
    refine effect_status hw fun g hdrain => ?_
    by_contra hne
    obtain ⟨l₁, d, l₂, rest, _, hexec, _, _, hlast, hpos, hok⟩ := hsim.draining_of_pc hdrain
    have hheld := hok.held (rest - 1) w (by omega) hlast (hexec ▸ hw)
    obtain ⟨hp, _⟩ | ⟨hp, _⟩ := hheld <;> simp [hret] at hp
  have hlocal : (db.effect c x o).1.localStatus w = db.localStatus w := (effect_local (.inl hw)).1
  exact Db.returns_congr (hturn.writeGroup_eq (hsim.formed_of_returned hret)) hstatus hlocal

/-- A turn keeps the books. -/
theorem Books.step (h : Books c db) (hsim : Sim c db.thread v)
    (hturn : Turn c db.thread x (db.effect c x o).2 t) :
    Books c ((db.effect c x o).1.settle c t x) := by
  have hresult : (db.effect c x o).1.result = db.result := by
    cases hpc : db.thread.pc x with
    | apply =>
        rw [Db.effect_apply hpc]
        obtain ⟨_, heq⟩ | ⟨_, ⟨_, heq⟩ | ⟨_, heq⟩⟩ := db.applyGroup_cases (c := c) x o <;>
          rw [heq] <;> rfl
    | insert | report | complete | drain =>
        simp only [Db.effect, hpc]
        split_ifs <;> rfl
    | _ => simp [Db.effect, hpc]
  refine ⟨?_, h.alone_step hturn, h.opened_step hsim hturn, h.ledger_step hsim hturn, ?_, ?_, ?_⟩
  · intro w g hw
    obtain heq | hbatch := hturn.batch_of_writeGroup w
    · exact h.batch w g (heq ▸ hw)
    · exact hbatch
  · intro w hbatch hret
    rw [Db.settle_thread] at hret
    by_cases hwx : w = x
    · subst hwx
      simp only [Db.settle, hret, hbatch, ne_eq, not_false_eq_true, and_self, if_true]
      exact Function.update_self ..
    · rw [returns_of_returned hsim hturn hwx (hturn.pc_of_ne hwx ▸ hret), ← h.result w hbatch
        (hturn.pc_of_ne hwx ▸ hret), ← hresult]
      simp only [Db.settle]
      split_ifs
      · exact Function.update_of_ne hwx _ _
      · rfl
  · intro w hw
    rw [Db.settle_thread]
    simp only [Db.settle, hresult] at hw
    by_cases hwx : w = x
    · subst hwx
      split_ifs at hw with hret
      · exact hret
      · exact absurd (h.finished w hw).1 hturn.pc_ne_returned
    · rw [hturn.pc_of_ne hwx]
      refine h.finished w ?_
      split_ifs at hw
      · rwa [Function.update_of_ne hwx] at hw
      · exact hw
  · intro e he
    by_cases hmem : e ∈ db.memtable
    · exact (h.source e hmem).step hturn
    · exact (h.sourced_of_effect hsim he hmem).step hturn

end Books

end Steps

end P2KVS.WriteImpl
