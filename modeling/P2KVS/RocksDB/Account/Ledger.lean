import P2KVS.RocksDB.WriteImpl
import P2KVS.RocksDB.Queue.Turns

/-!
# The account of a group

An `Account` of a closed group says how the data of `WriteImpl` stand to the places of its members:
what has been logged and inserted, and which status each member will return. It holds of every group
from the moment its leader has applied it, whatever the calls return.
-/

namespace P2KVS.WriteThread

/-- The places of a member whose group has been logged and is being inserted. -/
def Pc.applied : Pc → Prop
  | .insertGroup | .launch _ | .insert | .report | .complete | .awaitCompleted | .publish => True
  | _ => False

/-- The places of a member of a parallel group. -/
def Pc.joins : Pc → Prop
  | .launch _ | .insert | .report | .complete | .awaitCompleted => True
  | _ => False

/-- The places behind the insertion of a member of a parallel group. -/
def Pc.done : Pc → Prop
  | .report | .complete | .awaitCompleted | .publish | .exitLoad | .exitCas .. | .exitLinks ..
  | .handoff .. | .drain .. | .release _ | .returned => True
  | _ => False

/-- The places of the member that performs the exit. -/
def Pc.executes : Pc → Prop
  | .publish | .exitLoad | .exitCas .. | .exitLinks .. | .handoff .. | .drain .. | .release _ =>
      True
  | _ => False

/-- The places in which that member knows the status it passes on. -/
def Pc.exits : Pc → Prop
  | .exitCas .. | .exitLinks .. | .handoff .. | .drain .. | .release _ => True
  | _ => False

/-- Who leaves with a group knows its status. -/
theorem Pc.leaving.exits {p : Pc} {g : Nat} (h : p.leaving g) : p.exits := by
  cases p <;> simp_all [Pc.leaving, Pc.exits]

/-- Who knows the status to pass on performs the exit. -/
theorem Pc.exits.executes {p : Pc} (h : p.exits) : p.executes := by
  cases p <;> simp_all [Pc.executes, Pc.exits]

/-- Who performs the exit is behind its insertion. -/
theorem Pc.executes.done {p : Pc} (h : p.executes) : p.done := by
  cases p <;> simp_all [Pc.executes, Pc.done]

end P2KVS.WriteThread

namespace P2KVS.WriteImpl

open Transition WriteThread

/-- The status that a group passes to its followers. -/
def Db.fate (db : Db) (g : Nat) : Status :=
  if db.localStatus g = .ok then db.groupStatus g else db.localStatus g

/-- All entries of the batch of `w` are in the memtable. -/
def Inserted (c : Config) (db : Db) (w : Nat) : Prop :=
  ∀ n ∈ GroupCommit.numbers (writer c w) (db.sequence w), (w, n) ∈ db.memtable

/-- Where a member of an applied group stands. In a parallel group, one that is behind its insertion
has inserted its batch, or its failure is known to the group or about to be. -/
structure Member (c : Config) (db : Db) (M : List Nat) (g w : Nat) : Prop where
  applied : (db.thread.pc w).applied → db.localStatus g = .ok
  joins : (db.thread.pc w).joins → parallel c M = true
  single : db.thread.pc w = .insertGroup → parallel c M = false
  exits : (db.thread.pc w).exits → db.exitStatus w = db.fate g
  told : w ≠ g → db.thread.state w = .completed → db.status w = db.fate g
  returned : w ≠ g → db.thread.pc w = .returned → db.thread.state w = .completed
  inserted : parallel c M = true → db.localStatus g = .ok → (db.thread.pc w).done →
    Inserted c db w ∨ db.thread.pc w = .report ∧ db.status w ≠ .ok ∨ db.groupStatus g ≠ .ok
  leader : w = g → parallel c M = true → db.localStatus g = .ok → (db.thread.pc w).done →
    Inserted c db w ∨ db.status w ≠ .ok
  completed : parallel c M = true → db.localStatus g = .ok → db.thread.state w = .completed →
    (db.thread.pc w).done

/-- A group that its leader has applied. The leader of a group that is not parallel has inserted all
batches when its status says so. -/
structure Account (c : Config) (db : Db) (M : List Nat) (g : Nat) : Prop where
  owner : ∀ w ∈ M, db.thread.writeGroup w = some g
  recorded : db.localStatus g = .ok → (c.request g).disableWal = false →
    (db.currentSequence g, M.filter fun w => !callbackFailed c w) ∈ db.log
  numbered : db.localStatus g = .ok → ∀ w ∈ M,
    ∀ n ∈ GroupCommit.numbers (writer c w) (db.sequence w),
      (w, n) ∈ insertions c (db.currentSequence g) M
  quiet : parallel c M = false → db.groupStatus g = .ok
  serial : parallel c M = false → db.localStatus g = .ok → db.thread.pc g ≠ .insertGroup →
    db.status g = .ok → ∀ w ∈ M, Inserted c db w
  executor : parallel c M = true → db.localStatus g = .ok →
    ∀ y ∈ M, (db.thread.pc y).executes → ∀ w ∈ M, (db.thread.pc w).done
  members : ∀ w ∈ M, Member c db M g w

/-- Every closed group of batches has been applied correctly, unless its leader still has to. -/
def Ledger (c : Config) (db : Db) : Prop :=
  ∀ M ∈ db.thread.formed, ∀ g, M.head? = some g → (c.request g).batch ≠ none →
    db.thread.pc g ≠ .apply → Account c db M g

/-- Gathering a group changes the write thread only. -/
theorem silent_of_gathering {p : Pc} (h : p.gathering) : Db.silent p := by
  cases p <;> first | exact h.elim | trivial

section Steps

variable {c : Config} {db db' : Db} {v : View} {x : Nat} {o : Outcome}

/-- A step is a turn of the write thread with its effect. -/
theorem step_turn {a : Action} (hsim : Sim c db.thread v) (h : step c db a = some db') :
    ∃ x o t, Turn c db.thread x (db.effect c x o).2 t ∧ db' = (db.effect c x o).1.settle c t x ∧
      (a = .move x o ∨ (db.thread.pc x).early) ∧ (db.thread.pc x = .idle → a = .start x) := by
  cases a with
  | start x =>
      simp only [step, WriteThread.step, bind, Option.bind_eq_some_iff] at h
      obtain ⟨t, ht, h⟩ := h
      split_ifs at ht with hpc
      cases ht
      cases h
      have heff : db.effect c x ⟨.ok, 0, false, 0⟩ = (db, .skip) := by simp [Db.effect, hpc]
      refine ⟨x, ⟨.ok, 0, false, 0⟩, _, hsim.turn_start hpc, ?_, .inr (by simp [hpc, Pc.early]),
        fun _ => rfl⟩
      rw [heff]
      simp [Db.settle]
  | retry x =>
      simp only [step, WriteThread.step, bind, Option.bind_eq_some_iff] at h
      obtain ⟨t, ht, h⟩ := h
      split at ht
      · next writers hpc =>
          cases ht
          cases h
          have heff : db.effect c x ⟨.ok, 0, false, 0⟩ = (db, .skip) := by simp [Db.effect, hpc]
          refine ⟨x, ⟨.ok, 0, false, 0⟩, _, hsim.turn_retry hpc, ?_, .inr (by simp [hpc, Pc.early]),
            by simp [hpc]⟩
          rw [heff]
          simp [Db.settle]
      · cases ht
  | move x o =>
      simp only [step, WriteThread.step, bind, Option.bind_eq_some_iff] at h
      obtain ⟨t, ht, h⟩ := h
      cases h
      refine ⟨x, o, t, hsim.turn ht, rfl, .inl rfl, fun hpc => ?_⟩
      simp [State.move, hpc] at ht

/-! ### Numbers -/

/-- A writer outside the group keeps its sequence. -/
theorem setSequences_of_not_mem {next : Nat} {seq : Nat → Nat} {M : List Nat} {w : Nat}
    (hw : w ∉ M) :
    setSequences c next seq M w = seq w := by
  induction M generalizing next seq with
  | nil => rfl
  | cons y rest ih =>
      rw [List.mem_cons, not_or] at hw
      unfold setSequences
      split_ifs
      · exact ih hw.2
      · rw [ih hw.2, Function.update_of_ne hw.1]

/-- A writer whose callback failed has no entries. -/
theorem entries_of_callbackFailed {w : Nat} (h : callbackFailed c w = true) :
    (writer c w).entries = 0 := by
  simp [GroupCommit.Writer.entries, writer, h]

/-- A writer whose callback failed inserts nothing and takes no number. -/
theorem insertions_cons (next w : Nat) (rest : List Nat) : insertions c next (w :: rest) =
    (GroupCommit.numbers (writer c w) next).map (Prod.mk w) ++
      insertions c (next + (writer c w).entries) rest := by
  rw [insertions]
  split_ifs with hfailed
  · rw [GroupCommit.numbers, entries_of_callbackFailed hfailed]
    simp
  · rfl

/-- The numbers that the writers get are those with which the leader of a group that is not parallel
inserts their batches. -/
theorem mem_insertions {next : Nat} {seq : Nat → Nat} {M : List Nat} (hM : M.Nodup) {w n : Nat}
    (hw : w ∈ M) (hn : n ∈ GroupCommit.numbers (writer c w) (setSequences c next seq M w)) :
    (w, n) ∈ insertions c next M := by
  induction M generalizing next seq with
  | nil => cases hw
  | cons y rest ih =>
      rw [List.nodup_cons] at hM
      unfold setSequences at hn
      rw [insertions_cons]
      split_ifs at hn with hfailed
      · rcases List.mem_cons.mp hw with rfl | hw
        · rw [GroupCommit.numbers, entries_of_callbackFailed hfailed] at hn
          simp at hn
        · rw [entries_of_callbackFailed hfailed]
          exact List.mem_append_right _ (ih hM.2 hw hn)
      · rcases List.mem_cons.mp hw with rfl | hw
        · rw [setSequences_of_not_mem hM.1, Function.update_self] at hn
          exact List.mem_append_left _ (List.mem_map.mpr ⟨n, hn, rfl⟩)
        · exact List.mem_append_right _ (ih hM.2 hw hn)

/-! ### One step -/

/-- What a step does to the data of a group as a whole when it keeps its account: the memtable and
the log grow. -/
structure Kept (db db' : Db) (M : List Nat) (g : Nat) : Prop where
  writeGroup : ∀ w ∈ M, db'.thread.writeGroup w = db.thread.writeGroup w
  sequence : ∀ w ∈ M, db'.sequence w = db.sequence w
  groupStatus : db'.groupStatus g = db.groupStatus g
  localStatus : db'.localStatus g = db.localStatus g
  currentSequence : db'.currentSequence g = db.currentSequence g
  memtable : db.memtable ⊆ db'.memtable
  log : db.log ⊆ db'.log

/-- Nothing that matters changes for writer `w` itself. -/
structure Same (db db' : Db) (w : Nat) : Prop where
  pc : db'.thread.pc w = db.thread.pc w
  state : db'.thread.state w = .completed ↔ db.thread.state w = .completed
  status : db'.status w = db.status w
  exitStatus : db'.exitStatus w = db.exitStatus w

/-- What is in the memtable stays there. -/
theorem Kept.inserted {M : List Nat} {g w : Nat} (hkept : Kept db db' M g) (hw : w ∈ M)
    (h : Inserted c db w) : Inserted c db' w := by
  intro n hn
  rw [hkept.sequence w hw] at hn
  exact hkept.memtable (h n hn)

/-- A group keeps the status it passes on. -/
theorem Kept.fate {M : List Nat} {g : Nat} (hkept : Kept db db' M g) : db'.fate g = db.fate g := by
  rw [Db.fate, Db.fate, hkept.localStatus, hkept.groupStatus]

/-- A member that a step does not touch stands as before. -/
theorem Member.congr {M : List Nat} {g w : Nat} (h : Member c db M g w) (hw : w ∈ M)
    (hkept : Kept db db' M g) (hsame : Same db db' w) : Member c db' M g w := by
  obtain ⟨hpc, hstate, hstatus, hexit⟩ := hsame
  constructor
  · rw [hpc, hkept.localStatus]
    exact h.applied
  · rw [hpc]
    exact h.joins
  · rw [hpc]
    exact h.single
  · rw [hpc, hexit, hkept.fate]
    exact h.exits
  · rw [hstate, hstatus, hkept.fate]
    exact h.told
  · rw [hpc, hstate]
    exact h.returned
  · rw [hpc, hstatus, hkept.localStatus, hkept.groupStatus]
    exact fun h₁ h₂ h₃ => (h.inserted h₁ h₂ h₃).imp_left (hkept.inserted hw)
  · rw [hpc, hstatus, hkept.localStatus]
    exact fun h₀ h₁ h₂ h₃ => (h.leader h₀ h₁ h₂ h₃).imp_left (hkept.inserted hw)
  · rw [hpc, hstate, hkept.localStatus]
    exact h.completed

/-- A step that changes one member only keeps the account of the group if it keeps that member, if
the leader does not claim more than it has inserted, and if everybody has inserted when the member
begins the exit. -/
theorem Account.advance {M : List Nat} {g : Nat} (h : Account c db M g) (hkept : Kept db db' M g)
    (hsame : ∀ w ∈ M, w ≠ x → Same db db' w) (hx : x ∈ M → Member c db' M g x)
    (hserial : x = g → parallel c M = false → db.localStatus g = .ok →
      db'.thread.pc g ≠ .insertGroup → db'.status g = .ok →
      (db.thread.pc g ≠ .insertGroup ∧ db.status g = .ok) ∨ ∀ w ∈ M, Inserted c db' w)
    (hdone : x ∈ M → parallel c M = true → db.localStatus g = .ok → (db.thread.pc x).done →
      (db'.thread.pc x).done)
    (hexec : x ∈ M → parallel c M = true → db.localStatus g = .ok → (db'.thread.pc x).executes →
      (db.thread.pc x).executes ∨ ∀ w ∈ M, (db'.thread.pc w).done)
    (hg : g ∈ M) : Account c db' M g := by
  have hlocal := hkept.localStatus
  have hdone' : parallel c M = true → db.localStatus g = .ok → ∀ w ∈ M, (db.thread.pc w).done →
      (db'.thread.pc w).done := by
    intro hp hok w hw hd
    by_cases hwx : w = x
    · subst hwx
      exact hdone hw hp hok hd
    · rwa [(hsame w hw hwx).pc]
  refine ⟨?_, ?_, ?_, ?_, ?_, ?_, ?_⟩
  · intro w hw
    rw [hkept.writeGroup w hw]
    exact h.owner w hw
  · intro hok hwal
    rw [hkept.currentSequence]
    exact hkept.log (h.recorded (hlocal ▸ hok) hwal)
  · intro hok w hw n hn
    rw [hkept.sequence w hw] at hn
    rw [hkept.currentSequence]
    exact h.numbered (hlocal ▸ hok) w hw n hn
  · rw [hkept.groupStatus]
    exact h.quiet
  · intro hp hok hpcg hstatus
    rw [hlocal] at hok
    have hold : db.thread.pc g ≠ .insertGroup ∧ db.status g = .ok ∨ ∀ w ∈ M, Inserted c db' w := by
      by_cases hxg : x = g
      · exact hserial hxg hp hok hpcg hstatus
      · have hsg := hsame g hg fun heq => hxg heq.symm
        exact .inl ⟨hsg.pc ▸ hpcg, hsg.status ▸ hstatus⟩
    obtain ⟨hpcg, hstatus⟩ | hall := hold
    · exact fun w hw => hkept.inserted hw (h.serial hp hok hpcg hstatus w hw)
    · exact hall
  · intro hp hok y hy hy'
    rw [hlocal] at hok
    by_cases hyx : y = x
    · subst hyx
      obtain hold | hall := hexec hy hp hok hy'
      · exact fun w hw => hdone' hp hok w hw (h.executor hp hok y hy hold w hw)
      · exact hall
    · rw [(hsame y hy hyx).pc] at hy'
      exact fun w hw => hdone' hp hok w hw (h.executor hp hok y hy hy' w hw)
  · intro w hw
    by_cases hwx : w = x
    · exact hwx ▸ hx (hwx ▸ hw)
    · exact (h.members w hw).congr hw hkept (hsame w hw hwx)

/-! ### Other groups -/

/-- The leader gives up at once, fails to write the log, or goes on with the memtable. -/
theorem Db.applyGroup_cases (db : Db) (x : Nat) (o : Outcome) :
    db.localStatus x ≠ .ok ∧ db.applyGroup c x o = (db, .skip) ∨
    db.localStatus x = .ok ∧ ((db.writeToWAL c x o).localStatus x ≠ .ok ∧
        db.applyGroup c x o = (db.writeToWAL c x o, .skip) ∨
      (db.writeToWAL c x o).localStatus x = .ok ∧ db.applyGroup c x o =
        ({ db.writeToWAL c x o with
          sequence := setSequences c (db.localSequence x + 1) db.sequence (db.thread.members x) },
        if parallel c (db.thread.members x) then .parallel else .serial)) := by
  have hcurrent : (db.writeToWAL c x o).currentSequence x = db.localSequence x + 1 :=
    Function.update_self ..
  unfold Db.applyGroup
  by_cases hok : db.localStatus x = .ok
  · refine .inr ⟨hok, ?_⟩
    by_cases hwal : (db.writeToWAL c x o).localStatus x = .ok
    · refine .inr ⟨hwal, ?_⟩
      simp only [hok, hwal, ne_eq, not_true_eq_false, if_false, hcurrent]
      rfl
    · exact .inl ⟨hwal, by simp [hok, hwal]⟩
  · exact .inl ⟨hok, by simp [hok]⟩

/-- The log only grows. -/
theorem Db.log_subset_writeToWAL (db : Db) (x : Nat) (o : Outcome) :
    db.log ⊆ (db.writeToWAL c x o).log := by
  unfold Db.writeToWAL Db.walLog
  simp only
  split_ifs
  · exact fun _ h => h
  · exact List.subset_append_left ..
  · exact fun _ h => h

/-- A successful `WriteToWAL` has written the record. -/
theorem Db.mem_writeToWAL (hwal : (c.request x).disableWal = false)
    (hok : (db.writeToWAL c x o).localStatus x = .ok) :
    (db.localSequence x + 1, (db.thread.members x).filter fun w => !callbackFailed c w) ∈
      (db.writeToWAL c x o).log := by
  have hstatus : o.status = .ok := by simpa [Db.writeToWAL, hwal] using hok
  simp [Db.writeToWAL, Db.walLog, hwal, hstatus]

/-- What an effect leaves alone that touches neither the members of a group nor the group. The
memtable and the log only grow. -/
structure Spared (db db' : Db) (M : List Nat) (g : Nat) : Prop where
  status : ∀ w ∈ M, db'.status w = db.status w := by exact fun _ _ => rfl
  sequence : ∀ w ∈ M, db'.sequence w = db.sequence w := by exact fun _ _ => rfl
  exitStatus : ∀ w ∈ M, db'.exitStatus w = db.exitStatus w := by exact fun _ _ => rfl
  groupStatus : db'.groupStatus g = db.groupStatus g := by rfl
  localStatus : db'.localStatus g = db.localStatus g := by rfl
  currentSequence : db'.currentSequence g = db.currentSequence g := by rfl
  memtable : db.memtable ⊆ db'.memtable := by exact fun _ h => h
  log : db.log ⊆ db'.log := by exact fun _ h => h

/-- The record in the log is the leader's, so another group is left alone. -/
theorem Spared.writeToWAL {M : List Nat} {g : Nat} (hg : g ≠ x) :
    Spared db (db.writeToWAL c x o) M g where
  localStatus := Function.update_of_ne hg _ _
  currentSequence := Function.update_of_ne hg _ _
  log := db.log_subset_writeToWAL x o

/-- The leader that applies its group leaves the other closed groups alone. -/
theorem Spared.applyGroup {M N : List Nat} {g : Nat} (hcurrent : Current db.thread N x)
    (hg : g ≠ x) (hother : ∀ y ∈ N, y ∉ M) : Spared db (db.applyGroup c x o).1 M g := by
  have hwal : Spared db (db.writeToWAL c x o) M g := .writeToWAL hg
  obtain ⟨_, heq⟩ | ⟨_, ⟨_, heq⟩ | ⟨_, heq⟩⟩ := db.applyGroup_cases (c := c) x o
  · rw [heq]
    exact {}
  · rw [heq]
    exact hwal
  · rw [heq]
    refine { hwal with sequence := fun w hw => setSequences_of_not_mem fun hmem => ?_ }
    rw [hcurrent.members] at hmem
    exact hother w hmem hw

/-- The effect of a step leaves the closed groups alone that its thread is not in. -/
theorem effect_spares (hsim : Sim c db.thread v) {M : List Nat} (hM : M ∈ db.thread.formed)
    (hx : x ∉ M) {g : Nat} (hg : g ∈ M) : Spared db (db.effect c x o).1 M g := by
  have hne : ∀ w ∈ M, w ≠ x := fun w hw heq => hx (heq ▸ hw)
  have hgx := hne g hg
  have hother : ∀ {N : List Nat}, N ∈ db.thread.formed → x ∈ N → ∀ y ∈ N, y ∉ M := by
    intro N hN hxN y hyN hyM
    exact hx (hsim.formed_unique hM hN hyM hyN ▸ hxN)
  cases hpc : db.thread.pc x with
  | preprocess =>
      rw [Db.effect_preprocess hpc]
      exact { localStatus := Function.update_of_ne hgx _ _ }
  | enter =>
      rw [Db.effect_enter hpc]
      exact { groupStatus := Function.update_of_ne hgx _ _ }
  | apply =>
      obtain ⟨hphase, ⟨rest, hfront⟩, hserial⟩ := hsim.serial_of_pc (.inl hpc)
      have hcurrent := hsim.current hfront (by simp [hphase]) hserial.closed
      rw [Db.effect_apply hpc]
      exact .applyGroup hcurrent hgx (hother hcurrent.formed hcurrent.leader_mem)
  | insertGroup =>
      rw [Db.effect_insertGroup hpc]
      exact {
        status := fun w hw => Function.update_of_ne (hne w hw) _ _
        memtable := List.subset_append_left .. }
  | insert =>
      rw [Db.effect_insert hpc]
      split_ifs
      · exact {
          status := fun w hw => Function.update_of_ne (hne w hw) _ _
          memtable := List.subset_append_left .. }
      · exact {}
  | report =>
      obtain ⟨g', rest, told, hfront, hphase, hxf, hl⟩ := hsim.launched_of_pc hpc trivial
      have hins := hsim.inserting hfront hphase hl
      have hgg : g ≠ g' := fun heq => hother hins.formed hxf g' hins.leader_mem (heq ▸ hg)
      rw [Db.effect_report hpc (hins.group x hxf)]
      split_ifs
      · exact {}
      · exact { groupStatus := Function.update_of_ne hgg _ _ }
  | complete =>
      obtain ⟨g', rest, told, hfront, hphase, hxf, hl⟩ := hsim.launched_of_pc hpc trivial
      rw [Db.effect_complete hpc (hl.closed.group x hxf)]
      split_ifs
      · exact {}
      · exact { status := fun w hw => Function.update_of_ne (hne w hw) _ _ }
  | publish =>
      unfold Db.effect
      simp only [hpc]
      exact {}
  | exitLoad =>
      unfold Db.effect
      simp only [hpc]
      exact { exitStatus := fun w hw => Function.update_of_ne (hne w hw) _ _ }
  | drain leader last =>
      obtain ⟨l₁, d, l₂, rest, hleft, _, hxd, hg0, hw, _⟩ := hsim.draining_of_pc hpc
      have hpast := hsim.past hleft (by rwa [List.head?_eq_getElem?])
      have hlast : ∀ w ∈ M, w ≠ last := fun w hwM heq =>
        hother hpast.formed hxd last (List.mem_of_getElem? hw) (heq ▸ hwM)
      rw [Db.effect_drain hpc]
      split_ifs
      · exact {}
      · exact { status := fun w hw => Function.update_of_ne (hlast w hw) _ _ }
  | _ =>
      rw [Db.effect_silent (by simp [hpc, Db.silent])]
      exact {}

/-- A step keeps the data of the closed groups that its thread is not in. -/
theorem kept_of_not_mem {t : State} (hsim : Sim c db.thread v)
    (hturn : Turn c db.thread x (db.effect c x o).2 t) {M : List Nat} (hM : M ∈ db.thread.formed)
    (hx : x ∉ M) {g : Nat} (hg : g ∈ M) :
    Kept db ((db.effect c x o).1.settle c t x) M g ∧
      ∀ w ∈ M, Same db ((db.effect c x o).1.settle c t x) w := by
  have hspared : Spared db (db.effect c x o).1 M g := effect_spares hsim hM hx hg
  refine ⟨⟨fun w hw => hturn.writeGroup_eq (List.mem_flatten.mpr ⟨M, hM, hw⟩), hspared.sequence,
    hspared.groupStatus, hspared.localStatus, hspared.currentSequence, hspared.memtable,
    hspared.log⟩, fun w hw => ⟨?_, ?_, hspared.status w hw, hspared.exitStatus w hw⟩⟩
  · exact hturn.pc_of_ne fun heq => hx (heq ▸ hw)
  · rw [Db.settle_thread, hturn.state_of_not_mem hsim hM hx hw]

end Steps

end P2KVS.WriteImpl
