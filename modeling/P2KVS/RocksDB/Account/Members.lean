import P2KVS.RocksDB.Account.Ledger

/-!
# A step of a member keeps the account

One lemma for each place of a member of the group, from the log over the insertion to the release,
and `Account.turn` for all of them.
-/

namespace P2KVS.WriteImpl

open Transition WriteThread

section Steps

variable {c : Config} {db db' : Db} {v : View} {x : Nat} {o : Outcome}

/-- Member `x` goes on at `q` in a way that the account of its group does not notice. -/
structure Unnoticed (c : Config) (db : Db) (M : List Nat) (g x : Nat) (q : Pc) : Prop where
  applied : q.applied → db.localStatus g = .ok
  joins : q.joins → parallel c M = true
  single : db.thread.pc x ≠ .insertGroup ∧ q ≠ .insertGroup
  exits : q.exits → (db.thread.pc x).exits
  executes : q.executes → (db.thread.pc x).executes
  done : parallel c M = true → db.localStatus g = .ok → (q.done ↔ (db.thread.pc x).done)
  report : db.thread.pc x = .report → db.status x = .ok ∨ db.groupStatus g ≠ .ok
  returned : x ≠ g → q = .returned → db.thread.state x = .completed

/-- An account is kept when one member goes on unnoticed and keeps its statuses. -/
theorem Account.pass {M : List Nat} {g : Nat} (h : Account c db M g) (hg : g ∈ M) (hx : x ∈ M)
    (hkept : Kept db db' M g) (hsame : ∀ w ∈ M, w ≠ x → Same db db' w)
    (hstate : db'.thread.state x = .completed ↔ db.thread.state x = .completed)
    (hstatus : db'.status x = db.status x) (hexit : db'.exitStatus x = db.exitStatus x)
    (hun : Unnoticed c db M g x (db'.thread.pc x)) : Account c db' M g := by
  have hm := h.members x hx
  refine h.advance hkept hsame (fun _ => ?_) ?_ ?_ (fun _ _ _ he => .inl (hun.executes he)) hg
  · constructor
    · rw [hkept.localStatus]
      exact hun.applied
    · exact hun.joins
    · exact fun heq => absurd heq hun.single.2
    · rw [hexit, hkept.fate]
      exact fun he => hm.exits (hun.exits he)
    · rw [hstate, hstatus, hkept.fate]
      exact hm.told
    · rw [hstate]
      exact hun.returned
    · rw [hkept.localStatus, hkept.groupStatus]
      intro hp hok hd
      obtain hins | ⟨hreport, hbad⟩ | hbad := hm.inserted hp hok ((hun.done hp hok).mp hd)
      · exact .inl (hkept.inserted hx hins)
      · exact .inr (.inr ((hun.report hreport).resolve_left hbad))
      · exact .inr (.inr hbad)
    · rw [hkept.localStatus, hstatus]
      intro hxg hp hok hd
      exact (hm.leader hxg hp hok ((hun.done hp hok).mp hd)).imp_left (hkept.inserted hx)
    · rw [hkept.localStatus, hstate]
      exact fun hp hok hc => (hun.done hp hok).mpr (hm.completed hp hok hc)
  · rintro rfl _ _ _ hok
    exact .inl ⟨hun.single.1, hstatus ▸ hok⟩
  · exact fun _ hp hok => (hun.done hp hok).mpr

/-- A member goes on and nothing else changes. -/
theorem Account.silent {M : List Nat} {g : Nat} (h : Account c db M g) (hg : g ∈ M) (hx : x ∈ M)
    {t : State} (hpc : ∀ w, w ≠ x → t.pc w = db.thread.pc w)
    (hstate : ∀ w ∈ M, t.state w = .completed ↔ db.thread.state w = .completed)
    (hwrite : ∀ w ∈ M, t.writeGroup w = db.thread.writeGroup w)
    (hun : Unnoticed c db M g x (t.pc x)) : Account c (db.settle c t x) M g :=
  h.pass hg hx ⟨hwrite, fun _ _ => rfl, rfl, rfl, rfl, fun _ h => h, fun _ h => h⟩
    (fun w hw hne => ⟨hpc w hne, hstate w hw, rfl, rfl⟩) (hstate x hx) rfl rfl hun

/-- An account is kept when a member goes on unnoticed and does nothing else. -/
theorem Account.goto {M : List Nat} {g : Nat} (h : Account c db M g) (hg : g ∈ M) (hx : x ∈ M)
    {q : Pc} (hun : Unnoticed c db M g x q) :
      Account c (db.settle c (db.thread.goto x q) x) M g := by
  refine h.silent hg hx (fun w hw => State.goto_pc_of_ne _ _ _ hw) (fun _ _ => Iff.rfl)
    (fun _ _ => rfl) ?_
  rw [State.goto_pc_self]
  exact hun

/-- The account that a leader opens when it has applied its group. -/
theorem Account.open {M : List Nat} {g : Nat} (hg : g ∈ M)
    (howner : ∀ w ∈ M, db.thread.writeGroup w = some g)
    (hwaiting : ∀ w ∈ M, w ≠ g → Waiting db.thread w) (hstate : db.thread.state g = .groupLeader)
    (hquiet : db.groupStatus g = .ok)
    (hrecorded : db.localStatus g = .ok → (c.request g).disableWal = false →
      (db.currentSequence g, M.filter fun w => !callbackFailed c w) ∈ db.log)
    (hnumbered : db.localStatus g = .ok → ∀ w ∈ M,
      ∀ n ∈ GroupCommit.numbers (writer c w) (db.sequence w),
        (w, n) ∈ insertions c (db.currentSequence g) M)
    (hpath : db.localStatus g ≠ .ok ∧ db.thread.pc g = .exitLoad ∨
      db.localStatus g = .ok ∧ (parallel c M = false ∧ db.thread.pc g = .insertGroup ∨
        parallel c M = true ∧ ∃ w, db.thread.pc g = .launch w)) : Account c db M g := by
  have hnone : ∀ w ∈ M, db.thread.state w ≠ .completed := by
    intro w hw
    by_cases hwg : w = g
    · simp [hwg, hstate]
    · simp [(hwaiting w hw hwg).2]
  refine ⟨howner, hrecorded, hnumbered, fun _ => hquiet, ?_, ?_, ?_⟩
  · intro hp hok hpc
    obtain ⟨hbad, _⟩ | ⟨_, ⟨_, hins⟩ | ⟨hp', _⟩⟩ := hpath
    · exact absurd hok hbad
    · exact absurd hins hpc
    · simp [hp] at hp'
  · intro hp hok y hy hexec
    by_cases hyg : y = g
    · subst hyg
      obtain ⟨hbad, _⟩ | ⟨_, ⟨_, hpc⟩ | ⟨_, w, hpc⟩⟩ := hpath
      · exact absurd hok hbad
      · simp [hpc, Pc.executes] at hexec
      · simp [hpc, Pc.executes] at hexec
    · simp [(hwaiting y hy hyg).1, Pc.executes] at hexec
  · intro w hw
    have hc := hnone w hw
    by_cases hwg : w = g
    · subst hwg
      obtain ⟨hbad, hpc⟩ | ⟨hok, ⟨hp, hpc⟩ | ⟨hp, y, hpc⟩⟩ := hpath
      · constructor <;> simp [hpc, hc, hbad, Pc.applied, Pc.joins, Pc.exits]
      · constructor <;> simp [hpc, hc, hok, hp, Pc.joins, Pc.exits]
      · constructor <;> simp [hpc, hc, hok, hp, Pc.exits, Pc.done]
    · have hpc := (hwaiting w hw hwg).1
      constructor <;> simp [hpc, hc, Pc.applied, Pc.joins, Pc.exits, Pc.done]

/-- The leader applies its group. -/
theorem Account.apply {M : List Nat} {t : State} (hcurrent : Current db.thread M x)
    (hpc : db.thread.pc x = .apply) (hwaiting : ∀ w ∈ M, w ≠ x → Waiting db.thread w)
    (hstate : db.thread.state x = .groupLeader) (hquiet : db.groupStatus x = .ok)
    (hstep : db.thread.apply x (db.effect c x o).2 = some t) :
    Account c ((db.effect c x o).1.settle c t x) M x := by
  have hx := hcurrent.leader_mem
  rw [Db.effect_apply hpc] at hstep ⊢
  have hwait : ∀ {p : Pc} {u : State}, u.pc = db.thread.pc → u.state = db.thread.state →
      ∀ w ∈ M, w ≠ x → Waiting (u.goto x p) w := by
    intro p u hpcs hstates w hw hne
    refine (hwaiting w hw hne).congr ?_ (by rw [← hstates]; rfl)
    rw [State.goto_pc_of_ne _ _ _ hne, hpcs]
  obtain ⟨hbad, heq⟩ | ⟨_, ⟨hbad, heq⟩ | ⟨hok, heq⟩⟩ := db.applyGroup_cases (c := c) x o
  · rw [heq] at hstep ⊢
    cases hstep
    exact .open hx hcurrent.group (hwait rfl rfl) hstate hquiet (fun hok => absurd hok hbad)
      (fun hok => absurd hok hbad) (.inl ⟨hbad, State.goto_pc_self ..⟩)
  · rw [heq] at hstep ⊢
    cases hstep
    exact .open hx hcurrent.group (hwait rfl rfl) hstate hquiet (fun hok => absurd hok hbad)
      (fun hok => absurd hok hbad) (.inl ⟨hbad, State.goto_pc_self ..⟩)
  · rw [heq] at hstep ⊢
    have hseq : (db.writeToWAL c x o).currentSequence x = db.localSequence x + 1 :=
      Function.update_self ..
    have hrecorded : (c.request x).disableWal = false →
        ((db.writeToWAL c x o).currentSequence x, M.filter fun w => !callbackFailed c w) ∈
          (db.writeToWAL c x o).log := by
      intro hwal
      rw [hseq, ← hcurrent.members]
      exact Db.mem_writeToWAL hwal hok
    have hnumbered : ∀ w ∈ M, ∀ n ∈ GroupCommit.numbers (writer c w)
        (setSequences c (db.localSequence x + 1) db.sequence (db.thread.members x) w),
        (w, n) ∈ insertions c ((db.writeToWAL c x o).currentSequence x) M := by
      intro w hw n hn
      rw [hcurrent.members] at hn
      rw [hseq]
      exact mem_insertions hcurrent.nodup hw hn
    rw [hcurrent.members] at hstep
    by_cases hp : parallel c M = true
    · simp only [hp, if_true, State.apply] at hstep
      split_ifs at hstep
      cases hstep
      exact .open hx hcurrent.group (hwait rfl rfl) hstate hquiet (fun _ => hrecorded)
        (fun _ => hnumbered) (.inr ⟨hok, .inr ⟨hp, x, State.goto_pc_self ..⟩⟩)
    · simp only [hp, State.apply] at hstep
      cases hstep
      exact .open hx hcurrent.group (hwait rfl rfl) hstate hquiet (fun _ => hrecorded)
        (fun _ => hnumbered)
        (.inr ⟨hok, .inl ⟨by simpa using hp, State.goto_pc_self ..⟩⟩)

/-- An insertion that succeeds inserts all entries. -/
theorem Outcome.inserts_ok (hok : o.status = .ok) (entries : List (Nat × Nat)) :
    o.inserts entries = entries := if_pos hok

/-- The leader of a group that is not parallel inserts all batches. -/
theorem Account.insertGroup {M : List Nat} (h : Account c db M x) (hcurrent : Current db.thread M x)
    (hpc : db.thread.pc x = .insertGroup) :
    Account c ((db.effect c x o).1.settle c (db.thread.goto x .publish) x) M x := by
  have hx := hcurrent.leader_mem
  have hm := h.members x hx
  have hserial := hm.single hpc
  have hlocal := hm.applied (by simp [hpc, Pc.applied])
  rw [Db.effect_insertGroup hpc, hcurrent.members]
  refine h.advance (x := x)
    ⟨fun _ _ => rfl, fun _ _ => rfl, rfl, rfl, rfl, List.subset_append_left ..,
    fun _ h => h⟩ ?_ (fun _ => ?_) ?_ ?_ ?_ hx
  · exact fun w _ hne =>
      ⟨State.goto_pc_of_ne _ _ _ hne, Iff.rfl, Function.update_of_ne hne _ _, rfl⟩
  · constructor <;> simp [Db.settle, hserial, hlocal, Pc.joins, Pc.exits]
  · intro _ _ _ _ hok
    right
    intro w hw n hn
    have hstatus : o.status = .ok := by simpa [Db.settle] using hok
    refine List.mem_append_right _ ?_
    rw [o.inserts_ok hstatus]
    exact h.numbered hlocal w hw n hn
  · intro _ hp
    simp [hserial] at hp
  · intro _ hp
    simp [hserial] at hp

/-- A member of a parallel group inserts its batch. -/
theorem Account.insert {M : List Nat} {g : Nat} (h : Account c db M g)
    (hins : Inserting db.thread M g) (hx : x ∈ M) (hpc : db.thread.pc x = .insert) :
    Account c ((db.effect c x o).1.settle c (db.thread.goto x .report) x) M g := by
  have hg := hins.leader_mem
  have hm := h.members x hx
  have hp := hm.joins (by simp [hpc, Pc.joins])
  have hlocal := hm.applied (by simp [hpc, Pc.applied])
  have hc := hins.state x hx
  -- the batch has been inserted, or the status says that it has not
  have hresult : Inserted c (db.effect c x o).1 x ∨ (db.effect c x o).1.status x ≠ .ok := by
    rw [Db.effect_insert hpc]
    by_cases hshould : db.shouldWriteToMemtable c x = true
    · simp only [hshould, if_true]
      by_cases hok : o.status = .ok
      · left
        intro n hn
        refine List.mem_append_right _ ?_
        rw [o.inserts_ok hok]
        exact List.mem_map.mpr ⟨n, hn, rfl⟩
      · exact .inr (by simpa using hok)
    · simp only [hshould]
      by_cases hok : db.status x = .ok
      · left
        intro n hn
        have hentries : (writer c x).entries = 0 := by
          simp only [Db.shouldWriteToMemtable, hok, decide_true, Bool.true_and, Bool.and_eq_true,
            Bool.not_eq_true', not_and, Bool.not_eq_false] at hshould
          cases hf : callbackFailed c x with
          | true => exact entries_of_callbackFailed hf
          | false => simp [GroupCommit.Writer.entries, writer, hshould hf]
        rw [GroupCommit.numbers, hentries] at hn
        simp at hn
      · exact .inr hok
  have hkept : Kept db ((db.effect c x o).1.settle c (db.thread.goto x .report) x) M g := by
    rw [Db.effect_insert hpc]
    split_ifs
    · exact ⟨fun _ _ => rfl, fun _ _ => rfl, rfl, rfl, rfl, List.subset_append_left ..,
        fun _ h => h⟩
    · exact ⟨fun _ _ => rfl, fun _ _ => rfl, rfl, rfl, rfl, fun _ h => h, fun _ h => h⟩
  refine h.advance (x := x) hkept ?_ (fun _ => ?_) ?_ ?_ ?_ hg
  · intro w _ hne
    refine ⟨State.goto_pc_of_ne _ _ _ hne, Iff.rfl, ?_, ?_⟩ <;> rw [Db.effect_insert hpc]
    · simp only [Db.settle]
      split_ifs
      · exact Function.update_of_ne hne _ _
      · rfl
    · simp only [Db.settle]
      split_ifs <;> rfl
  · have hreport : (db.thread.goto x .report).pc x = .report := State.goto_pc_self ..
    constructor
    · exact fun _ => hkept.localStatus.trans hlocal
    · exact fun _ => hp
    · simp [Db.settle]
    · simp [Db.settle, Pc.exits]
    · exact fun _ hcompleted => absurd hcompleted hc
    · simp [Db.settle]
    · exact fun _ _ _ => hresult.imp id fun hbad => .inl ⟨hreport, hbad⟩
    · exact fun _ _ _ _ => hresult
    · exact fun _ _ hcompleted => absurd hcompleted hc
  · intro _ hserial
    simp [hserial] at hp
  · simp [hpc, Pc.done]
  · simp [Db.settle, Pc.executes]

/-- A failure becomes known to the group. -/
theorem Account.report {M : List Nat} {g : Nat} (h : Account c db M g)
    (hins : Inserting db.thread M g) (hx : x ∈ M) (hpc : db.thread.pc x = .report) :
    Account c ((db.effect c x o).1.settle c (db.thread.goto x .complete) x) M g := by
  have hg := hins.leader_mem
  have hm := h.members x hx
  have hp := hm.joins (by simp [hpc, Pc.joins])
  have hlocal := hm.applied (by simp [hpc, Pc.applied])
  have hmove : ∀ {db₁ : Db}, Account c db₁ M g → db₁.thread = db.thread →
      db₁.localStatus g = .ok → (db₁.status x = .ok ∨ db₁.groupStatus g ≠ .ok) →
      Account c (db₁.settle c (db.thread.goto x .complete) x) M g := by
    intro db₁ h₁ hthread hlocal₁ hknown
    rw [← hthread] at hpc ⊢
    refine h₁.goto hg hx ⟨fun _ => hlocal₁, fun _ => hp, by simp [hpc], by simp [Pc.exits],
      by simp [Pc.executes], by simp [hpc, Pc.done], fun _ => hknown, by simp⟩
  rw [Db.effect_report hpc (hins.group x hx)]
  by_cases hok : db.status x = .ok
  · simp only [hok, if_true]
    exact hmove h rfl hlocal (.inl hok)
  · simp only [hok, if_false]
    refine hmove ⟨h.owner, h.recorded, h.numbered, ?_, h.serial, h.executor, ?_⟩ rfl hlocal
      (.inr ?_)
    · intro hserial
      simp [hserial] at hp
    · intro w hw
      have hmw := h.members w hw
      have hc := hins.state w hw
      have hplace : ¬ (db.thread.pc w).exits ∧ db.thread.pc w ≠ .returned := by
        obtain hw | ⟨y, hw⟩ | hw | hw | hw | hw := hins.place w hw <;> simp [hw, Pc.exits]
      refine ⟨hmw.applied, hmw.joins, hmw.single, fun he => absurd he hplace.1,
        fun _ hcompleted => absurd hcompleted hc, hmw.returned, fun _ _ _ => .inr (.inr ?_),
        hmw.leader, hmw.completed⟩
      simpa using hok
    · simpa using hok

/-- The last member takes over the status of the group. -/
theorem Account.last {M : List Nat} {g : Nat} (h : Account c db M g)
    (hins : Inserting db.thread M g)
    (hx : x ∈ M) (hpc : db.thread.pc x = .complete) (hone : (db.thread.group g).running = 1)
    (hrest : ∀ w ∈ M, w ≠ x → db.thread.pc w = .awaitCompleted) :
    Account c ((db.effect c x o).1.settle c
      ((db.thread.setRunning g ((db.thread.group g).running - 1)).goto x .publish) x) M g := by
  have hg := hins.leader_mem
  have hm := h.members x hx
  have hp := hm.joins (by simp [hpc, Pc.joins])
  have hlocal := hm.applied (by simp [hpc, Pc.applied])
  have hc := hins.state x hx
  rw [Db.effect_complete hpc (hins.group x hx), hone, if_neg (by omega)]
  have hinserted := hm.inserted hp hlocal (by simp [hpc, Pc.done])
  refine h.advance (x := x)
    ⟨fun _ _ => rfl, fun _ _ => rfl, rfl, rfl, rfl, fun _ h => h, fun _ h => h⟩ ?_ (fun _ => ?_) ?_
        ?_ ?_ hg
  · exact fun w _ hne =>
      ⟨State.goto_pc_of_ne _ _ _ hne, Iff.rfl, Function.update_of_ne hne _ _, rfl⟩
  · constructor
    · exact fun _ => hlocal
    · exact fun _ => hp
    · simp [Db.settle]
    · simp [Db.settle, Pc.exits]
    · exact fun _ hcompleted => absurd hcompleted hc
    · simp [Db.settle]
    · intro _ _ _
      obtain hins | ⟨hreport, _⟩ | hbad := hinserted
      · exact .inl hins
      · simp [hpc] at hreport
      · exact .inr (.inr hbad)
    · intro _ _ _ _
      obtain hins | ⟨hreport, _⟩ | hbad := hinserted
      · exact .inl hins
      · simp [hpc] at hreport
      · exact .inr (by simpa [Db.settle] using hbad)
    · exact fun _ _ hcompleted => absurd hcompleted hc
  · intro _ hserial
    simp [hserial] at hp
  · simp [Db.settle, Pc.done]
  · intro _ _ _ _
    right
    intro w hw
    by_cases hwx : w = x
    · simp [hwx, Db.settle, Pc.done]
    · rw [Db.settle_thread, State.goto_pc_of_ne _ _ _ hwx]
      show (db.thread.pc w).done
      rw [hrest w hw hwx]
      trivial

/-- The member that performs the exit learns what it passes on. -/
theorem Account.exitLoad {M : List Nat} {g : Nat} {q : Pc} (h : Account c db M g)
    (hcurrent : Current db.thread M g) (hx : x ∈ M) (hpc : db.thread.pc x = .exitLoad)
    (hleader : x ≠ g → db.thread.pc g = .awaitCompleted) (hq : q.leaving g) :
    Account c ((db.effect c x o).1.settle c (db.thread.goto x q) x) M g := by
  have hg := hcurrent.leader_mem
  have hm := h.members x hx
  have hfate : (if (if x = g then db.localStatus x else db.groupStatus g) = .ok then
      db.groupStatus g else if x = g then db.localStatus x else db.groupStatus g) = db.fate g := by
    unfold Db.fate
    by_cases hxg : x = g
    · simp [hxg]
    · have hlocal := (h.members g hg).applied (by simp [hleader hxg, Pc.applied])
      simp [hxg, hlocal]
  have hexits := hq.exits
  have hnot : ¬ q.applied ∧ ¬ q.joins ∧ q ≠ .insertGroup ∧ q ≠ .returned := by
    cases q <;> simp_all [Pc.leaving, Pc.applied, Pc.joins]
  rw [Db.effect_exitLoad hpc (hcurrent.group x hx), hfate]
  refine h.advance (x := x)
    ⟨fun _ _ => rfl, fun _ _ => rfl, rfl, rfl, rfl, fun _ h => h, fun _ h => h⟩ ?_ (fun _ => ?_) ?_
        ?_ ?_ hg
  · exact fun w _ hne =>
      ⟨State.goto_pc_of_ne _ _ _ hne, Iff.rfl, rfl, Function.update_of_ne hne _ _⟩
  · have hdone : (db.thread.pc x).done := by simp [hpc, Pc.done]
    constructor <;> simp only [Db.settle_thread, State.goto_pc_self]
    · exact fun happlied => absurd happlied hnot.1
    · exact fun hjoins => absurd hjoins hnot.2.1
    · exact fun hins => absurd hins hnot.2.2.1
    · exact fun _ => Function.update_self ..
    · exact hm.told
    · exact fun _ hret => absurd hret hnot.2.2.2
    · intro hp hlocal _
      refine (hm.inserted hp hlocal hdone).imp_right (Or.imp_left ?_)
      rintro ⟨hreport, _⟩
      simp [hpc] at hreport
    · exact fun hxg hp hlocal _ => hm.leader hxg hp hlocal hdone
    · exact fun _ _ _ => hexits.executes.done
  · rintro rfl _ _ _ hok
    exact .inl ⟨by simp [hpc], hok⟩
  · intro _ _ _ _
    rw [Db.settle_thread, State.goto_pc_self]
    exact hexits.executes.done
  · exact fun _ _ _ _ => .inl (by simp [hpc, Pc.executes])

/-- A follower is released with the status of the group. -/
theorem Account.drain {M : List Nat} {g w older : Nat} (h : Account c db M g) (hg : g ∈ M)
    (hx : x ∈ M)
    (hpc : db.thread.pc x = .drain g w) (hw : w ∈ M) (hwg : w ≠ g)
    (hheld : w ≠ x → Held db.thread w) :
    Account c ((db.effect c x o).1.settle c
      ((db.thread.setState w .completed).goto x (.drain g older)) x) M g := by
  rw [Db.effect_drain hpc, if_neg hwg]
  have hexec : (db.thread.pc x).exits := by simp [hpc, Pc.exits]
  have hm := h.members w hw
  have hplace : db.thread.pc w ≠ .report ∧ db.thread.pc w ≠ .returned := by
    by_cases hwx : w = x
    · simp [hwx, hpc]
    · obtain ⟨hp, _⟩ | ⟨hp, _⟩ := hheld hwx <;> simp [hp]
  -- first the follower is told, then the thread goes on
  let db₁ : Db := { db with
    thread := db.thread.setState w .completed
    status := Function.update db.status w (db.exitStatus x) }
  have hkept : Kept db db₁ M g :=
    ⟨fun _ _ => rfl, fun _ _ => rfl, rfl, rfl, rfl, fun _ h => h, fun _ h => h⟩
  have htold : Account c db₁ M g := by
    refine h.advance (x := w) hkept ?_ (fun _ => ?_) (fun heq => absurd heq hwg)
      (fun _ _ _ hd => hd)
      (fun _ _ _ he => .inl he) hg
    · intro y _ hne
      exact ⟨rfl, by rw [show db₁.thread.state y = _ from State.setState_state_of_ne _ _ hne _],
        Function.update_of_ne hne _ _, rfl⟩
    · have hstatus : db₁.status w = db.fate g :=
        (Function.update_self ..).trans ((h.members x hx).exits hexec)
      refine ⟨hm.applied, hm.joins, hm.single, hm.exits, fun _ _ => hstatus, ?_, ?_, ?_, ?_⟩
      · exact fun _ hret => absurd hret hplace.2
      · intro hp hok hd
        refine (hm.inserted hp hok hd).imp_right (Or.imp_left ?_)
        rintro ⟨hreport, _⟩
        exact absurd hreport hplace.1
      · exact fun heq => absurd heq hwg
      · exact fun hp hok _ => h.executor hp hok x hx hexec.executes w hw
  have hpc₁ : db₁.thread.pc x = .drain g w := hpc
  have hmoved : Account c (db₁.settle c (db₁.thread.goto x (.drain g older)) x) M g := by
    refine htold.goto hg hx ⟨?_, ?_, ?_, ?_, ?_, ?_, ?_, ?_⟩ <;>
      simp [hpc₁, Pc.applied, Pc.joins, Pc.exits, Pc.executes, Pc.done]
  exact hmoved

/-- The leader is released. -/
theorem Account.release {M : List Nat} {g : Nat} (h : Account c db M g) (hg : g ∈ M) (hx : x ∈ M)
    (hpc : db.thread.pc x = .release g) (hstate : db.thread.state x = .completed)
    (hleader : db.thread.pc g = .awaitCompleted) :
    Account c ((db.effect c x o).1.settle c
      ((db.thread.setState g .completed).goto x .returned) x) M g := by
  rw [Db.effect_silent (by simp [hpc, Db.silent])]
  have hexec : (db.thread.pc x).executes := by simp [hpc, Pc.executes]
  have hm := h.members g hg
  let db₁ : Db := { db with thread := db.thread.setState g .completed }
  have hkept : Kept db db₁ M g :=
    ⟨fun _ _ => rfl, fun _ _ => rfl, rfl, rfl, rfl, fun _ h => h, fun _ h => h⟩
  have htold : Account c db₁ M g := by
    refine h.advance (x := g) hkept ?_ (fun _ => ?_) ?_ (fun _ _ _ hd => hd)
      (fun _ _ _ he => .inl he) hg
    · intro y _ hne
      exact ⟨rfl, by rw [show db₁.thread.state y = _ from State.setState_state_of_ne _ _ hne _],
        rfl, rfl⟩
    · exact ⟨hm.applied, hm.joins, hm.single, hm.exits, fun hne => absurd rfl hne,
        fun hne => absurd rfl hne, hm.inserted, hm.leader,
        fun hp hok _ => h.executor hp hok x hx hexec g hg⟩
    · exact fun _ _ _ _ hok => .inl ⟨by simp [hleader], hok⟩
  have hpc₁ : db₁.thread.pc x = .release g := hpc
  have hstate₁ : db₁.thread.state x = .completed := by
    by_cases hxg : x = g
    · rw [hxg]
      exact State.setState_state_self ..
    · exact (State.setState_state_of_ne _ _ hxg _).trans hstate
  have hmoved : Account c (db₁.settle c (db₁.thread.goto x .returned) x) M g := by
    refine htold.goto hg hx ⟨?_, ?_, ?_, ?_, ?_, ?_, ?_, fun _ _ => hstate₁⟩ <;>
      simp [hpc₁, Pc.applied, Pc.joins, Pc.exits, Pc.executes, Pc.done]
  exact hmoved

/-- The first steps of the exit change the write thread only. -/
theorem leaving_silent {g : Nat} {p : Pc} (hp : p.leaving g) (hexit : p.exiting) : Db.silent p := by
  cases p <;> simp_all [Pc.leaving, Pc.exiting, Db.silent]

/-- From one place of the exit to the next. -/
theorem unnoticed_of_leaving {M : List Nat} {g : Nat} {q : Pc} (hp : (db.thread.pc x).leaving g)
    (hq : q.leaving g) : Unnoticed c db M g x q := by
  have hdone : q.done ∧ (db.thread.pc x).done := ⟨hq.exits.executes.done, hp.exits.executes.done⟩
  refine ⟨?_, ?_, ⟨?_, ?_⟩, fun _ => hp.exits, fun _ => hp.exits.executes, by simp [hdone], ?_, ?_⟩
  · cases q <;> simp_all [Pc.leaving, Pc.applied]
  · cases q <;> simp_all [Pc.leaving, Pc.joins]
  · rintro heq
    simp [heq, Pc.leaving] at hp
  · rintro rfl
    simp [Pc.leaving] at hq
  · rintro heq
    simp [heq, Pc.leaving] at hp
  · rintro _ rfl
    simp [Pc.leaving] at hq

/-- The leader of a parallel group tells one more member to insert. -/
theorem Account.launch {M : List Nat} {w : Nat} {q : Pc} (h : Account c db M x)
    (hins : Inserting db.thread M x) (hpc : db.thread.pc x = .launch w) (hw : w ∈ M)
    (hq : q = .insert ∨ ∃ y, q = .launch y) : Account c ((db.effect c x o).1.settle c
      ((db.thread.setState w .parallelMemtableWriter).goto x q) x) M x := by
  have hx := hins.leader_mem
  have hok := (h.members x hx).applied (by simp [hpc, Pc.applied])
  have hp := (h.members x hx).joins (by simp [hpc, Pc.joins])
  rw [Db.effect_silent (by simp [hpc, Db.silent])]
  refine h.silent hx hx (fun y hy => State.goto_pc_of_ne _ _ _ hy) ?_ (fun _ _ => rfl) ?_
  · intro y hy
    by_cases hyw : y = w
    · have hset : ((db.thread.setState w .parallelMemtableWriter).goto x q).state w =
        .parallelMemtableWriter := State.setState_state_self ..
      simp [hyw, hins.state w hw, hset]
    · rw [show ((db.thread.setState w .parallelMemtableWriter).goto x q).state y = _ from
        State.setState_state_of_ne _ _ hyw _]
  · rw [State.goto_pc_self]
    obtain rfl | ⟨y, rfl⟩ := hq <;>
      exact ⟨fun _ => hok, fun _ => hp, by simp [hpc], by simp [Pc.exits], by simp [Pc.executes],
        by simp [hpc, Pc.done], by simp [hpc], by simp⟩

/-- A follower that was told to insert goes on to its insertion. -/
theorem Account.join {M : List Nat} {g : Nat} (h : Account c db M g)
    (hins : Inserting db.thread M g) (hx : x ∈ M) (hpc : db.thread.pc x = .await) :
    Account c ((db.effect c x o).1.settle c (db.thread.goto x .insert) x) M g := by
  have hg := hins.leader_mem
  -- the leader has applied the group and takes the parallel path
  have hplace : (db.thread.pc g).applied ∧ (db.thread.pc g).joins := by
    obtain ⟨w, hp⟩ | hp | hp | hp | hp := hins.leader <;> simp [hp, Pc.applied, Pc.joins]
  have hok := (h.members g hg).applied hplace.1
  have hp := (h.members g hg).joins hplace.2
  rw [Db.effect_silent (by simp [hpc, Db.silent])]
  exact h.goto hg hx ⟨fun _ => hok, fun _ => hp, by simp [hpc], by simp [Pc.exits],
    by simp [Pc.executes], by simp [hpc, Pc.done], by simp [hpc], by simp⟩

/-- A member that is not the last to complete waits. -/
theorem Account.wait {M : List Nat} {g : Nat} (h : Account c db M g)
    (hins : Inserting db.thread M g) (hx : x ∈ M) (hpc : db.thread.pc x = .complete)
    (hrunning : 1 < (db.thread.group g).running) (running : Nat) :
    Account c ((db.effect c x o).1.settle c
      ((db.thread.setRunning g running).goto x .awaitCompleted) x) M g := by
  have hok := (h.members x hx).applied (by simp [hpc, Pc.applied])
  have hp := (h.members x hx).joins (by simp [hpc, Pc.joins])
  rw [Db.effect_complete hpc (hins.group x hx), if_pos hrunning]
  refine h.silent hins.leader_mem hx (fun y hy => State.goto_pc_of_ne _ _ _ hy)
    (fun _ _ => Iff.rfl) (fun _ _ => rfl) ?_
  rw [State.goto_pc_self]
  exact ⟨fun _ => hok, fun _ => hp, by simp [hpc], by simp [Pc.exits], by simp [Pc.executes],
    by simp [hpc, Pc.done], by simp [hpc], by simp⟩

/-- The last sequence is published. -/
theorem Account.publish {M : List Nat} {g : Nat} (h : Account c db M g)
    (hcurrent : Current db.thread M g) (hx : x ∈ M) (hpc : db.thread.pc x = .publish) :
    Account c ((db.effect c x o).1.settle c (db.thread.goto x .exitLoad) x) M g := by
  rw [Db.effect_publish hpc (hcurrent.group x hx)]
  refine h.pass hcurrent.leader_mem hx
    ⟨fun _ _ => rfl, fun _ _ => rfl, rfl, rfl, rfl, fun _ h => h, fun _ h => h⟩
    (fun w _ hne => ⟨State.goto_pc_of_ne _ _ _ hne, Iff.rfl, rfl, rfl⟩) Iff.rfl rfl rfl ?_
  rw [Db.settle_thread, State.goto_pc_self]
  constructor <;> simp [hpc, Pc.applied, Pc.joins, Pc.exits, Pc.executes, Pc.done]

/-- A member that has been released returns. -/
theorem Account.returns {M : List Nat} {g : Nat} (h : Account c db M g) (hg : g ∈ M) (hx : x ∈ M)
    (hpc : db.thread.pc x = .await ∨ db.thread.pc x = .awaitCompleted)
    (hstate : db.thread.state x = .completed) :
    Account c ((db.effect c x o).1.settle c (db.thread.goto x .returned) x) M g := by
  rw [Db.effect_silent (by obtain hp | hp := hpc <;> simp [hp, Db.silent])]
  refine h.goto hg hx ⟨?_, ?_, ?_, ?_, ?_, ?_, ?_, fun _ _ => hstate⟩
  · simp [Pc.applied]
  · simp [Pc.joins]
  · obtain hp | hp := hpc <;> simp [hp]
  · simp [Pc.exits]
  · simp [Pc.executes]
  · exact fun hp hok => ⟨fun _ => (h.members x hx).completed hp hok hstate, fun _ => trivial⟩
  · obtain hp | hp := hpc <;> simp [hp]

/-- Every step inside an applied group keeps its account. -/
theorem Account.turn {t : State} {M : List Nat} {g : Nat} (h : Account c db M g)
    (hsim : Sim c db.thread v) (hturn : Turn c db.thread x (db.effect c x o).2 t)
    (hM : M ∈ db.thread.formed) (hhead : M.head? = some g) (hx : x ∈ M)
    (hpcg : db.thread.pc g ≠ .apply) : Account c ((db.effect c x o).1.settle c t x) M g := by
  have hg : g ∈ M := List.mem_of_head? hhead
  -- the group of the turn is this one
  have hsame : ∀ {N : List Nat} {y : Nat}, N ∈ db.thread.formed → x ∈ N → N.head? = some y →
      N = M ∧ y = g := by
    intro N y hN hxN hy
    obtain rfl := hsim.formed_unique hN hM hxN hx
    exact ⟨rfl, Option.some.inj (hy.symm.trans hhead)⟩
  have hxf : x ∈ db.thread.formed.flatten := List.mem_flatten.mpr ⟨M, hM, hx⟩
  cases hturn with
  | early hout | preprocess hout | enter hout | gather hout => exact absurd hxf hout.not_mem
  | close _ hhead' _ _ hnew => exact absurd hxf (hnew x (List.mem_of_head? hhead')).2
  | alone _ _ hnot => exact absurd hxf hnot
  | apply hcurrent hpc =>
      obtain ⟨rfl, rfl⟩ := hsame hcurrent.formed hcurrent.leader_mem hcurrent.head
      exact absurd hpc hpcg
  | insertGroup hcurrent hpc =>
      obtain ⟨rfl, rfl⟩ := hsame hcurrent.formed hcurrent.leader_mem hcurrent.head
      exact h.insertGroup hcurrent hpc
  | launch hins hpc hw hq =>
      obtain ⟨rfl, rfl⟩ := hsame hins.formed hins.leader_mem hins.head
      exact h.launch hins hpc hw hq
  | join hins hxN hpc =>
      obtain ⟨rfl, rfl⟩ := hsame hins.formed hxN hins.head
      exact h.join hins hx hpc
  | insert hins hxN hpc =>
      obtain ⟨rfl, rfl⟩ := hsame hins.formed hxN hins.head
      exact h.insert hins hx hpc
  | report hins hxN hpc =>
      obtain ⟨rfl, rfl⟩ := hsame hins.formed hxN hins.head
      exact h.report hins hx hpc
  | wait hins hxN hpc hrunning =>
      obtain ⟨rfl, rfl⟩ := hsame hins.formed hxN hins.head
      exact h.wait hins hx hpc hrunning _
  | last hins hxN hpc hone hrest =>
      obtain ⟨rfl, rfl⟩ := hsame hins.formed hxN hins.head
      exact h.last hins hx hpc hone hrest
  | publish hcurrent hxN hpc =>
      obtain ⟨rfl, rfl⟩ := hsame hcurrent.formed hxN hcurrent.head
      exact h.publish hcurrent hx hpc
  | exitLoad hcurrent hxN hpc _ hleader hq =>
      obtain ⟨rfl, rfl⟩ := hsame hcurrent.formed hxN hcurrent.head
      exact h.exitLoad hcurrent hx hpc hleader hq
  | exit hlast hhead' hxN hpc hexit _ _ hpcs hq hstate hwrite =>
      obtain ⟨rfl, rfl⟩ := hsame (List.mem_of_getLast? hlast) hxN hhead'
      rw [Db.effect_silent (leaving_silent hpc hexit)]
      refine h.silent hg hx hpcs ?_ (fun _ _ => by rw [hwrite]) ?_
      · exact fun w hw => by rw [hstate w (List.mem_flatten.mpr ⟨_, hM, hw⟩)]
      · exact unnoticed_of_leaving hpc hq
  | drain hpast hxN hpc hw hwg hheld =>
      obtain ⟨rfl, rfl⟩ := hsame hpast.formed hxN hpast.head
      exact h.drain hg hx hpc hw hwg hheld
  | drained hpast hpc =>
      obtain ⟨rfl, rfl⟩ := hsame hpast.formed hpast.leader_mem hpast.head
      rw [Db.effect_drain hpc, if_pos rfl]
      refine h.goto hg hx ⟨?_, ?_, ?_, ?_, ?_, ?_, ?_, fun hne => absurd rfl hne⟩ <;>
        simp [hpc, Pc.applied, Pc.joins, Pc.exits, Pc.executes, Pc.done]
  | follower hpast hxN _ hpc =>
      obtain ⟨rfl, rfl⟩ := hsame hpast.formed hxN hpast.head
      rw [Db.effect_drain hpc, if_pos rfl]
      refine h.goto hg hx ⟨?_, ?_, ?_, ?_, ?_, ?_, ?_, ?_⟩ <;>
        simp [hpc, Pc.applied, Pc.joins, Pc.exits, Pc.executes, Pc.done]
  | release hpast hxN _ hpc hstate hleader =>
      obtain ⟨rfl, rfl⟩ := hsame hpast.formed hxN hpast.head
      exact h.release hg hx hpc hstate hleader
  | returned hpast hxN hpc hstate =>
      obtain ⟨rfl, rfl⟩ := hsame hpast.formed hxN hpast.head
      exact h.returns hg hx hpc hstate

end Steps

end P2KVS.WriteImpl
