import P2KVS.RocksDB.Durability

/-!
# The writers refine group commit

`WriteImpl` on the write thread, with its lock-free list, hand-over and release, refines the short
model `GroupCommit` as long as no insertion fails: `Abstracts` relates the states, and every step of
a thread is a stutter or the matching step of the group. What `GroupCommit` says about sequence
numbers then holds for the threads.
-/

namespace P2KVS.WriteThread

/-- The places of a member at work on a group whose log has been written. -/
def Pc.applying : Pc → Prop
  | .insertGroup | .launch _ | .insert | .report | .complete | .publish => True
  | _ => False

/-- Writer `w` is at work on such a group, or has been told to insert and has not noticed. -/
def Acting (s : State) (w : Nat) : Prop :=
  (s.pc w).applying ∨ s.pc w = .await ∧ s.state w = .parallelMemtableWriter

/-- The places of a leader that has read the last sequence and has not numbered its group. -/
def Pc.numbering : Pc → Prop
  | .enter | .createLinks .. | .gather .. | .apply => True
  | _ => False

/-- The places are told apart by their constructors. -/
instance decidableApplying : (p : Pc) → Decidable p.applying
  | .insertGroup | .launch _ | .insert | .report | .complete | .publish => isTrue trivial
  | .idle | .load | .link _ | .selfLead | .await | .awaitAlone | .alone | .preprocess | .enter
  | .createLinks .. | .gather .. | .apply | .awaitCompleted | .exitLoad | .exitCas ..
  | .exitLinks .. | .handoff .. | .drain .. | .release _ | .returned => isFalse id

/-- A place and a state decide whether a writer acts. -/
instance decidableActing (s : State) (w : Nat) : Decidable (Acting s w) :=
  inferInstanceAs (Decidable (_ ∨ _ ∧ _))

/-- A leader that gathers has not numbered its group. -/
theorem Pc.gathering.numbering {p : Pc} (h : p.gathering) : p.numbering := by
  cases p <;> first | exact h.elim | trivial

section Acting

variable {c : Config} {s t : State} {v : View} {x w : Nat}

/-- Who is at work belongs to the closed group on the list, and nobody prepares another one. -/
theorem Sim.acting (h : Sim c s v) (hw : Acting s w) : v.phase ≠ .leading ∧ w ∈ v.front ∧
    (∃ g, Current s v.front g) ∧ ∀ y, s.pc y ≠ .apply := by
  have hserial : v.phase ≠ .serial → ∀ y, s.pc y ≠ .apply := fun hne y hy =>
    hne (h.serial_of_pc (.inl hy)).1
  have hlaunched : (∃ g rest told, v.front = g :: rest ∧ v.phase = .launched told ∧ w ∈ v.front ∧
      Launched s v.toLine g told) → v.phase ≠ .leading ∧ w ∈ v.front ∧
        (∃ g, Current s v.front g) ∧ ∀ y, s.pc y ≠ .apply := by
    rintro ⟨g, rest, told, hfront, hphase, hmem, hl⟩
    exact ⟨by simp [hphase], hmem, ⟨g, h.current hfront (by simp [hphase]) hl.closed⟩,
      hserial (by simp [hphase])⟩
  obtain hpc | ⟨hpc, hstate⟩ := hw
  · cases hp : s.pc w with
    | insertGroup =>
        obtain ⟨hphase, ⟨rest, hfront⟩, hser⟩ := h.serial_of_pc (.inr hp)
        refine ⟨by simp [hphase], by simp [hfront],
          ⟨w, h.current hfront (by simp [hphase]) hser.closed⟩, fun y hy => ?_⟩
        obtain ⟨_, ⟨rest', hfront'⟩, _⟩ := h.serial_of_pc (.inl hy)
        obtain rfl : y = w := by simp_all
        simp [hp] at hy
    | publish =>
        obtain ⟨g, rest, hfront, hphase, hexiting⟩ := h.exiting_of_pc hp trivial
        have hexit := hexiting.exit
        simp only [Exit, hp] at hexit
        exact ⟨by simp [hphase], hexiting.mem,
          ⟨g, h.current hfront (by simp [hphase]) hexit.2⟩, hserial (by simp [hphase])⟩
    | launch | insert | report | complete => exact hlaunched (h.launched_of_pc hp trivial)
    | _ => simp [hp, Pc.applying] at hpc
  · exact hlaunched (h.launched_of_await hpc hstate)

/-- While somebody is at work, no leader holds a sequence number for another group. -/
theorem Sim.not_numbering (h : Sim c s v) (hw : Acting s w) (y : Nat) :
    ¬ (s.pc y).numbering ∧ s.pc y ≠ .alone := by
  obtain ⟨hphase, _, _, happly⟩ := h.acting hw
  have hlead : (s.pc y).leading → (s.pc y).inFront → False := fun h₁ h₂ =>
    hphase (h.lead_outside rfl h₁ h₂).1
  refine ⟨fun hy => ?_, fun hy => hlead (by simp [hy, Pc.leading]) (by simp [hy, Pc.inFront])⟩
  cases hp : s.pc y with
  | apply => exact happly y hp
  | enter | createLinks | gather =>
      exact hlead (by simp [hp, Pc.leading]) (by simp [hp, Pc.inFront])
  | _ => simp [hp, Pc.numbering] at hy

/-- The group on which somebody is at work is the last one that was closed. -/
theorem Sim.current_of_acting (h : Sim c s v) (hw : Acting s w) {M : List Nat}
    (hM : s.formed.getLast? = some M) : w ∈ M ∧ ∃ g, Current s M g := by
  obtain ⟨_, hmem, ⟨g, hcurrent⟩, _⟩ := h.acting hw
  obtain rfl : v.front = M := Option.some.inj (hcurrent.last.symm.trans hM)
  exact ⟨hmem, g, hcurrent⟩

/-- Who acts belongs to a closed group. -/
theorem Sim.formed_of_acting (h : Sim c s v) (hw : Acting s w) : w ∈ s.formed.flatten := by
  obtain ⟨_, hmem, ⟨g, hcurrent⟩, _⟩ := h.acting hw
  exact List.mem_flatten.mpr ⟨_, hcurrent.formed, hmem⟩

/-- `Acting` reads the place and the state of the writer. -/
theorem Acting.congr (h : Acting s w) (hpc : t.pc w = s.pc w) (hstate : t.state w = s.state w) :
    Acting t w := by
  rw [Acting, hpc, hstate]
  exact h

/-- A member that has been released stays so. -/
theorem Turn.completed {path : Path} (h : Turn c s x path t) (hw : w ∈ s.formed.flatten)
    (hstate : s.state w = .completed) : t.state w = .completed := by
  have hset : ∀ y, (s.setState y .completed).state w = .completed := fun y => by
    by_cases hwy : w = y
    · rw [hwy]
      exact State.setState_state_self ..
    · rwa [State.setState_state_of_ne _ _ hwy]
  cases h with
  | early hout | preprocess hout | enter hout | gather hout => exact (hout.state w hw).trans hstate
  | apply _ _ _ _ hstep =>
      obtain ⟨_, rfl⟩ | ⟨_, rfl⟩ | ⟨_, _, rfl⟩ := State.apply_cases hstep <;> exact hstate
  | @launch _ y _ hins _ hy =>
      have hne : w ≠ y := fun heq => hins.state y hy (heq ▸ hstate)
      exact (State.setState_state_of_ne _ _ hne _).trans hstate
  | exit _ _ _ _ _ _ _ _ _ hsame => exact (hsame w hw).trans hstate
  | drain | release => exact hset _
  | _ => exact hstate

/-- The closed groups stay closed. -/
theorem Turn.formed_subset {path : Path} (h : Turn c s x path t) (hw : w ∈ s.formed.flatten) :
    w ∈ t.formed.flatten := by
  obtain heq | ⟨M, heq, _⟩ := h.formed
  · rwa [heq]
  · rw [heq, List.flatten_append]
    exact List.mem_append_left _ hw

/-- If nobody is at work, a step that does not bring its own thread to work leaves it so. -/
theorem Sim.idle (h : Sim c t v) (hidle : ∀ w, ¬ Acting s w) (hpc : ∀ w, w ≠ x → t.pc w = s.pc w)
    (hx : ¬ Acting t x) (hstate : ∀ w ∈ t.formed.flatten, w ≠ x →
      t.state w = .parallelMemtableWriter → s.state w = .parallelMemtableWriter) :
    ∀ w, ¬ Acting t w := by
  intro w hw
  by_cases hwx : w = x
  · exact hx (hwx ▸ hw)
  refine hidle w ?_
  have hmem := h.formed_of_acting hw
  rw [Acting, hpc w hwx] at hw
  exact hw.imp_right fun ⟨hp, hs⟩ => ⟨hp, hstate w hmem hwx hs⟩

end Acting

end P2KVS.WriteThread

namespace P2KVS.WriteImpl

open Transition WriteThread
open GroupCommit (assign totalCount numbers)

/-- No `InsertInto` fails. -/
def InsertsSucceed (db : Db) : Action → Prop
  | .move x o => db.thread.pc x = .insertGroup ∨ db.thread.pc x = .insert → o.status = .ok
  | _ => True

/-- The member that publishes the last sequence of its group is the leader, or what it finds in the
write group happens to be right. -/
def LeaderPublishes (db : Db) : Action → Prop
  | .move x _ => db.thread.pc x = .publish →
      ∀ g, db.thread.writeGroup x = some g → x = g ∨ db.groupSequence g = db.localSequence g
  | _ => True

/-- Only the status of a move is looked at. -/
instance decidableInsertsSucceed (db : Db) : (a : Action) → Decidable (InsertsSucceed db a)
  | .start _ => isTrue trivial
  | .retry _ => isTrue trivial
  | .move _ _ => inferInstanceAs (Decidable (_ ∨ _ → _))

/-- Only the group of the thread that moves is looked at. -/
instance decidableLeaderPublishes (db : Db) : (a : Action) → Decidable (LeaderPublishes db a)
  | .start _ => isTrue trivial
  | .retry _ => isTrue trivial
  | .move x _ => decidable_of_iff (db.thread.pc x = .publish → ∀ g ∈ db.thread.writeGroup x,
      x = g ∨ db.groupSequence g = db.localSequence g) Iff.rfl

/-- What the abstract group and the data of the threads keep from the moment the log has been
written. -/
structure Frame (c : Config) (db : Db) (M : List Nat) (g : Nat) (G : GroupCommit.WriteGroup) :
    Prop where
  writers : G.writers = M.map (writer c)
  sequences : G.sequences = assign (db.lastSequence + 1) (M.map (writer c))
  inParallel : G.parallel = parallel c M
  stale : G.lastSequence = db.groupSequence g
  leader : G.leaderSequence = db.localSequence g
  total : db.localSequence g = db.lastSequence + totalCount (M.map (writer c))
  status : db.localStatus g = .ok
  first : db.currentSequence g = db.lastSequence + 1
  numbered : ∀ i w, M[i]? = some w →
    numbers (writer c w) (db.sequence w) = numbers (writer c w) (G.sequences.getD i 0)

/-- The phase of a member of a parallel group, by its place. -/
def phaseOf : Pc → Option GroupCommit.Phase
  | .await | .launch _ | .insert => some .inserting
  | .report | .complete | .publish => some .inserted
  | .awaitCompleted => some .waiting
  | _ => none

/-- How far the members of the group are. -/
structure Stage (c : Config) (s : State) (M : List Nat) (g : Nat) (G : GroupCommit.WriteGroup) :
    Prop where
  last : s.formed.getLast? = some M
  head : M.head? = some g
  active : ∃ w ∈ M, Acting s w
  state : ∀ w ∈ M, s.state w ≠ .completed
  serial : parallel c M = false → (∀ w ∈ M, w ≠ g → Waiting s w) ∧
    (s.pc g = .insertGroup ∧ G.phase 0 = .inserting ∨ s.pc g = .publish ∧ G.phase 0 = .inserted)
  members : parallel c M = true → ∀ i w, M[i]? = some w → phaseOf (s.pc w) = some (G.phase i)
  running : parallel c M = true → (∀ w ∈ M, s.pc w ≠ .publish) ∧ G.running = (s.group g).running ∨
    G.running = 1 ∧ ∃ y ∈ M, s.pc y = .publish ∧ ∀ w ∈ M, w ≠ y → s.pc w = .awaitCompleted

/-- The abstract state `a` of an instance: its last sequence, the sequence numbers in the memtable,
and the group at work. -/
structure Abstracts (c : Config) (db : Db) (a : GroupCommit.State) : Prop where
  lastSequence : a.lastSequence = db.lastSequence
  memtable : a.memtable = db.memtable.map Prod.snd
  idle : a.group = none → ∀ w, ¬ Acting db.thread w
  group : ∀ G, a.group = some G → ∃ M g, Frame c db M g G ∧ Stage c db.thread M g G

/-- As long as no insertion fails, only writers that have been released know of an error, and no
write group does. -/
structure Clean (db : Db) : Prop where
  status : ∀ w, db.status w ≠ .ok →
    w ∈ db.thread.formed.flatten ∧ db.thread.state w = .completed
  groupStatus : ∀ g, db.groupStatus g = .ok

/-- The local last sequence of a leader is up to date until it numbers its group. -/
def UpToDate (db : Db) : Prop :=
  ∀ y, (db.thread.pc y).numbering → db.localSequence y = db.lastSequence

section Steps

variable {c : Config} {db : Db} {v v' : View} {x : Nat} {o : Outcome} {t : State}

/-! ### Effects -/

/-- Only a leader changes its sequence numbers, before it leads, when it opens its group and when it
applies it. -/
theorem effect_sequences {w : Nat}
    (hw : w ≠ x ∨ ¬ (db.thread.pc x).numbering ∧ db.thread.pc x ≠ .preprocess) :
    (db.effect c x o).1.localSequence w = db.localSequence w ∧
      (db.effect c x o).1.groupSequence w = db.groupSequence w := by
  cases hpc : db.thread.pc x with
  | preprocess =>
      have hne : w ≠ x := hw.resolve_right fun h => h.2 hpc
      rw [Db.effect_preprocess hpc]
      exact ⟨Function.update_of_ne hne _ _, rfl⟩
  | enter =>
      have hne : w ≠ x := hw.resolve_right fun h => h.1 (by simp [hpc, Pc.numbering])
      rw [Db.effect_enter hpc]
      exact ⟨rfl, Function.update_of_ne hne _ _⟩
  | apply =>
      have hne : w ≠ x := hw.resolve_right fun h => h.1 (by simp [hpc, Pc.numbering])
      rw [Db.effect_apply hpc]
      obtain ⟨_, heq⟩ | ⟨_, ⟨_, heq⟩ | ⟨_, heq⟩⟩ := db.applyGroup_cases (c := c) x o <;> rw [heq]
      · exact ⟨rfl, rfl⟩
      · exact ⟨Function.update_of_ne hne _ _, rfl⟩
      · exact ⟨Function.update_of_ne hne _ _, rfl⟩
  | insert | report | complete | drain =>
      simp only [Db.effect, hpc]
      split_ifs <;> exact ⟨rfl, rfl⟩
  | _ => simp [Db.effect, hpc]

/-- Writers are numbered when their group is applied. -/
theorem effect_sequence (hpc : db.thread.pc x ≠ .apply) :
    (db.effect c x o).1.sequence = db.sequence := by
  cases hp : db.thread.pc x with
  | apply => exact absurd hp hpc
  | insert | report | complete | drain =>
      simp only [Db.effect, hp]
      split_ifs <;> rfl
  | _ => simp [Db.effect, hp]

/-- The last sequence changes when it is published. -/
theorem effect_lastSequence (hpc : db.thread.pc x ≠ .publish) :
    (db.effect c x o).1.lastSequence = db.lastSequence := by
  cases hp : db.thread.pc x with
  | publish => exact absurd hp hpc
  | apply =>
      rw [Db.effect_apply hp]
      obtain ⟨_, heq⟩ | ⟨_, ⟨_, heq⟩ | ⟨_, heq⟩⟩ := db.applyGroup_cases (c := c) x o <;>
        rw [heq] <;> rfl
  | insert | report | complete | drain =>
      simp only [Db.effect, hp]
      split_ifs <;> rfl
  | _ => simp [Db.effect, hp]

/-- The memtable changes by insertions. -/
theorem effect_memtable (hpc : db.thread.pc x ≠ .insertGroup) (hpc' : db.thread.pc x ≠ .insert) :
    (db.effect c x o).1.memtable = db.memtable := by
  cases hp : db.thread.pc x with
  | insertGroup => exact absurd hp hpc
  | insert => exact absurd hp hpc'
  | apply =>
      rw [Db.effect_apply hp]
      obtain ⟨_, heq⟩ | ⟨_, ⟨_, heq⟩ | ⟨_, heq⟩⟩ := db.applyGroup_cases (c := c) x o <;>
        rw [heq] <;> rfl
  | report | complete | drain =>
      simp only [Db.effect, hp]
      split_ifs <;> rfl
  | _ => simp [Db.effect, hp]

/-! ### Numbers -/

/-- `WriteImpl` numbers the writers as the abstract group does. Writers without entries keep an old
number, which nobody uses. -/
theorem numbers_setSequences {next : Nat} {seq : Nat → Nat} {M : List Nat} (hM : M.Nodup)
    {i w : Nat}
    (hi : M[i]? = some w) : numbers (writer c w) (setSequences c next seq M w) =
      numbers (writer c w) ((assign next (M.map (writer c))).getD i 0) := by
  induction M generalizing next seq i with
  | nil => simp at hi
  | cons y rest ih =>
      rw [List.nodup_cons] at hM
      have hempty : callbackFailed c y = true → ∀ n, numbers (writer c y) n = [] :=
        fun hfailed n => by
        rw [GroupCommit.numbers, entries_of_callbackFailed hfailed, List.range'_zero]
      unfold setSequences
      cases i with
      | zero =>
          obtain rfl : y = w := by simpa using hi
          split_ifs with hfailed
          · rw [hempty hfailed, hempty hfailed]
          · rw [setSequences_of_not_mem hM.1, Function.update_self]
            rfl
      | succ i =>
          have hi' : rest[i]? = some w := by simpa using hi
          rw [List.map_cons, assign, List.getD_cons_succ]
          split_ifs with hfailed
          · rw [entries_of_callbackFailed hfailed, Nat.add_zero]
            exact ih hM.2 hi'
          · exact ih hM.2 hi'

/-- The leader of a group that is not parallel inserts the batches with the numbers of the abstract
group. -/
theorem insertions_numbers (next : Nat) (M : List Nat) : (insertions c next M).map Prod.snd =
    ((M.map (writer c)).zipWith numbers (assign next (M.map (writer c)))).flatten := by
  induction M generalizing next with
  | nil => rfl
  | cons y rest ih =>
      rw [List.map_cons, assign, List.zipWith_cons_cons, List.flatten_cons, insertions_cons,
        List.map_append, List.map_map, ih]
      congr 1
      exact List.map_id _

/-- What `InsertsSucceed` says about the turn of an action. -/
theorem inserts_ok {a : Action} (h : InsertsSucceed db a)
    (ha : a = .move x o ∨ (db.thread.pc x).early) :
    db.thread.pc x = .insertGroup ∨ db.thread.pc x = .insert → o.status = .ok := by
  obtain rfl | hearly := ha
  · exact h
  · rintro (hpc | hpc) <;> simp [hpc, Pc.early] at hearly

/-! ### What the relation needs -/

/-- A turn keeps the local last sequence up to date. -/
theorem UpToDate.step (h : UpToDate db) (hsim : Sim c db.thread v)
    (hturn : Turn c db.thread x (db.effect c x o).2 t) :
    UpToDate ((db.effect c x o).1.settle c t x) := by
  intro y hy
  show (db.effect c x o).1.localSequence y = (db.effect c x o).1.lastSequence
  rw [Db.settle_thread] at hy
  by_cases hyx : y = x
  · subst hyx
    cases hturn with
    | preprocess _ hpc =>
        rw [Db.effect_preprocess hpc]
        exact Function.update_self ..
    | enter _ hpc =>
        rw [Db.effect_enter hpc]
        exact h y (by simp [hpc, Pc.numbering])
    | gather _ hpc | close hpc =>
        rw [Db.effect_silent (silent_of_gathering hpc)]
        exact h y hpc.numbering
    | early _ _ _ hpc => cases hp : t.pc y <;> simp_all [Pc.early, Pc.numbering]
    | apply _ _ _ _ hstep =>
        obtain ⟨_, rfl⟩ | ⟨_, rfl⟩ | ⟨_, _, rfl⟩ := State.apply_cases hstep <;>
          simp [Pc.numbering] at hy
    | launch _ _ _ hq => obtain rfl | ⟨z, rfl⟩ := hq <;> simp [Pc.numbering] at hy
    | @exitLoad _ _ q _ _ _ _ _ hq =>
        rw [State.goto_pc_self] at hy
        cases q <;> simp_all [Pc.leaving, Pc.numbering]
    | exit _ _ _ _ _ _ _ _ hq => cases hp : t.pc y <;> simp_all [Pc.leaving, Pc.numbering]
    | _ => simp [Pc.numbering] at hy
  · rw [hturn.pc_of_ne hyx] at hy
    have hpublish : db.thread.pc x ≠ .publish := fun hpc =>
      (hsim.not_numbering (w := x) (.inl (by simp [hpc, Pc.applying])) y).1 hy
    rw [(effect_sequences (.inl hyx)).1, effect_lastSequence hpublish]
    exact h y hy

/-- Without a failed insertion a step changes the status of a writer that it releases only. -/
theorem effect_status_ok (h : Clean db)
    (hok : db.thread.pc x = .insertGroup ∨ db.thread.pc x = .insert → o.status = .ok) {w : Nat}
    (hw : ∀ g, db.thread.pc x = .drain g w → w = g) (hbad : (db.effect c x o).1.status w ≠ .ok) :
    db.status w ≠ .ok := by
  by_cases hwx : w = x
  swap
  · rwa [effect_status hwx hw] at hbad
  subst hwx
  intro hgood
  refine hbad ?_
  cases hpc : db.thread.pc w with
  | apply =>
      rw [Db.effect_apply hpc]
      obtain ⟨_, heq⟩ | ⟨_, ⟨_, heq⟩ | ⟨_, heq⟩⟩ := db.applyGroup_cases (c := c) w o <;>
        rw [heq] <;> exact hgood
  | insertGroup =>
      rw [Db.effect_insertGroup hpc]
      exact (Function.update_self ..).trans (hok (.inl hpc))
  | insert =>
      rw [Db.effect_insert hpc]
      split_ifs
      · exact (Function.update_self ..).trans (hok (.inr hpc))
      · exact hgood
  | report =>
      simp only [Db.effect, hpc]
      split_ifs
      exact hgood
  | complete =>
      simp only [Db.effect, hpc]
      split_ifs
      · exact hgood
      · exact (Function.update_self ..).trans (h.groupStatus _)
  | drain g last =>
      rw [Db.effect_drain hpc]
      split_ifs with hlast
      · exact hgood
      · have hne : w ≠ last := by
          rintro rfl
          exact hlast (hw g hpc)
        exact (Function.update_of_ne hne _ _).trans hgood
  | _ => simpa [Db.effect, hpc] using hgood

/-- A turn whose insertion succeeds keeps errors away from writers at work. -/
theorem Clean.step (h : Clean db) (hsim : Sim c db.thread v)
    (hturn : Turn c db.thread x (db.effect c x o).2 t)
    (hok : db.thread.pc x = .insertGroup ∨ db.thread.pc x = .insert → o.status = .ok) :
    Clean ((db.effect c x o).1.settle c t x) := by
  constructor
  · intro w hw
    rw [Db.settle_thread]
    by_cases hdrain : ∀ g, db.thread.pc x = .drain g w → w = g
    · obtain ⟨hmem, hstate⟩ := h.status w (effect_status_ok h hok hdrain hw)
      exact ⟨hturn.formed_subset hmem, hturn.completed hmem hstate⟩
    · -- the step releases `w`
      push Not at hdrain
      obtain ⟨g, hpc, hne⟩ := hdrain
      cases hturn with
      | drain hpast _ hpc' hmem =>
          obtain ⟨rfl, rfl⟩ : _ = g ∧ _ = w := by simpa using hpc'.symm.trans hpc
          exact ⟨List.mem_flatten.mpr ⟨_, hpast.formed, hmem⟩, State.setState_state_self ..⟩
      | drained _ hpc' | follower _ _ _ hpc' =>
          obtain ⟨h₁, h₂⟩ : _ = g ∧ _ = w := by simpa using hpc'.symm.trans hpc
          exact absurd (h₂.symm.trans h₁) hne
      | early _ hp => simp [hpc, Pc.early] at hp
      | gather _ hp | close hp => simp [hpc, Pc.gathering] at hp
      | returned _ _ hp => simp [hpc] at hp
      | exit _ _ _ _ hp => simp [hpc, Pc.exiting] at hp
      | _ => simp_all
  · intro g
    show (db.effect c x o).1.groupStatus g = .ok
    cases hpc : db.thread.pc x with
    | enter =>
        rw [Db.effect_enter hpc]
        by_cases hgx : g = x
        · rw [hgx]
          exact Function.update_self ..
        · exact (Function.update_of_ne hgx _ _).trans (h.groupStatus g)
    | apply =>
        rw [Db.effect_apply hpc]
        obtain ⟨_, heq⟩ | ⟨_, ⟨_, heq⟩ | ⟨_, heq⟩⟩ := db.applyGroup_cases (c := c) x o <;>
          rw [heq] <;> exact h.groupStatus g
    | report =>
        obtain ⟨g', rest, told, hfront, hphase, hx, hl⟩ := hsim.launched_of_pc hpc trivial
        have hins := hsim.inserting hfront hphase hl
        have hgood : db.status x = .ok := by
          by_contra hbad
          exact hins.state x hx (h.status x hbad).2
        rw [Db.effect_report hpc (hins.group x hx), if_pos hgood]
        exact h.groupStatus g
    | insert | complete | drain =>
        simp only [Db.effect, hpc]
        split_ifs <;> exact h.groupStatus g
    | _ => simpa [Db.effect, hpc] using h.groupStatus g

end Steps

end P2KVS.WriteImpl
