import P2KVS.ScanTest.Handshake

/-!
# What a buffer contains behind its refills

The initial fill of a buffer stores through `operator[]` and a refill through `push_back`. The size
of the vector is still 0 behind the fill, so the first refill begins at the front: behind `r`
refills the elements are the keys from number `scan_size` on, and the first `scan_size` keys are
lost. `scan_buffer_contains` says this of every worker, whatever flags are stored to it, and
`lane_watched` says that the lanes of the program are such workers. The elements are slices, and
what is said of them is the keys they were made of.
-/

namespace P2KVS.ScanTest

open Sorted Storage Transition

/-- A lane with the history variable `refills`: the number of refills since the initial fill, `none`
if the buffer is not in use. -/
structure Watched where
  lane : Lane
  refills : Option Nat

/-- A step of the worker that observes the tail `t` if it polls, or a store to its flag. -/
inductive WatchedAction where
  | work (t : Nat)
  | store (status : ScanStatus)
  deriving DecidableEq, Repr

/-- The keys that the slices in a buffer were made of. -/
def Lane.made (l : Lane) : Vec Slice :=
  l.buffer.map KeyRef.key

namespace Watched

/-- The refills behind a step of the worker. A scan whose `Seek` finds nothing has nothing to
fill. -/
def count (refills : Option Nat) : Pc → Pc → Option Nat
  | .seek, .advance => some 0
  | .fill _ _, .publish => some 0
  | .refill _, .iterOver => refills.map (· + 1)
  | .clear, _ => none
  | .advance, _ => none
  | _, _ => refills

/-- One step. -/
def step (p : Program) (q : Nat) (w : Watched) : WatchedAction → Option Watched
  | .work t => (w.lane.step p q t).map fun l => ⟨l, count w.refills w.lane.pc l.pc⟩
  | .store status => some { w with lane := { w.lane with status } }

/-- Worker `q` alone, under any stores to its flag. -/
def system (p : Program) (q : Nat) : System Watched WatchedAction where
  init := ⟨.start (p.db q), none⟩
  step := step p q

/-- The keys of the current scan: those of the instance at or past the start key. -/
def keys (p : Program) (q : Nat) (w : Watched) : List Slice :=
  (p.db q).keysFrom (startKey w.lane.request)

/-- `scan_size` of the current scan. -/
def scanSize (w : Watched) : Nat :=
  w.lane.request.scanSize.toNat

/-- How many keys the initial fill stores at most. -/
def filled (w : Watched) : Nat :=
  max 1 w.scanSize

/-- Behind `k` keys pushed: they follow those of the initial fill, and the iterator goes on behind
them. -/
structure Pushed (p : Program) (q k : Nat) (w : Watched) : Prop where
  elements : w.lane.made.Contains (((w.keys p q).drop w.filled).take k)
  ahead : (Iterator.next w.lane.iter).ahead = (w.keys p q).drop (w.filled + k)

/-- Behind `r` refills of a scan that has found a key. -/
structure Refilled (p : Program) (q r : Nat) (w : Watched) : Prop extends
    Pushed p q (r * w.scanSize) w where
  refills : w.refills = some r
  found : w.keys p q ≠ []

/-- What holds at each program point. -/
def Inv (p : Program) (q : Nat) (w : Watched) : Prop :=
  match w.lane.pc with
  | .poll | .check | .seek | .exited => w.lane.buffer.size = 0 ∧ w.refills = none
  | .first => w.lane.buffer.size = 0 ∧ w.refills = none ∧
      Iterator.valid w.lane.iter = true ∧ w.lane.iter.ahead = w.keys p q
  | .fill i size => w.lane.buffer.size = 0 ∧ w.refills = none ∧ i = size ∧ 1 ≤ i ∧ i ≤ w.filled ∧
      w.keys p q ≠ [] ∧ (Iterator.next w.lane.iter).ahead = (w.keys p q).drop i
  | .publish | .waitOver | .checkNeed | .clear => ∃ r, w.Refilled p q r
  | .iterOver => ∃ r, w.Refilled p q (r + 1)
  | .refill i => ∃ r, w.refills = some r ∧ w.keys p q ≠ [] ∧ i ≤ w.scanSize ∧
      w.Pushed p q (r * w.scanSize + i)
  | .advance => w.lane.buffer.size = 0 ∧ (w.refills = none ∨ w.refills = some 0 ∧ w.keys p q = [])

end Watched

/-- Behind an exhausted iterator there is nothing. -/
theorem ahead_next_of_not_valid {c : Cursor Slice Slice} (h : Iterator.valid c = false) :
    (Iterator.next c).ahead = [] := by
  have hstay : Iterator.next c = c := if_neg (fun hvalid => by
    rw [show c.valid = false from h] at hvalid
    cases hvalid)
  rw [hstay]
  exact Cursor.ahead_of_not_valid h

/-- A vector without elements contains nothing. -/
theorem contains_nil {α : Type*} {v : Vec α} (h : v.size = 0) : v.Contains [] :=
  ⟨h, List.nil_prefix⟩

namespace Watched

variable {p : Program} {q : Nat} {w : Watched} {l : Lane}

/-- Pushing the key behind the iterator. -/
theorem Pushed.push {k : Nat} {g : Option Nat} {pc : Pc} (h : w.Pushed p q k)
    (hvalid : Iterator.valid (Iterator.next w.lane.iter) = true) :
    Pushed p q (k + 1) ⟨{ w.lane with
      iter := Iterator.next w.lane.iter
      buffer := w.lane.buffer.pushBack ⟨Iterator.key (Iterator.next w.lane.iter), false⟩
      pc := pc }, g⟩ := by
  have hahead := h.ahead
  rw [ahead_of_valid hvalid] at hahead
  have hlt : w.filled + k < (w.keys p q).length := by
    by_contra hge
    rw [List.drop_eq_nil_of_le (not_lt.mp hge)] at hahead
    cases hahead
  rw [List.drop_eq_getElem_cons hlt] at hahead
  obtain ⟨hkey, hrest⟩ := List.cons.inj hahead
  refine ⟨?_, hrest⟩
  have htake : ((w.keys p q).drop w.filled).take (k + 1) =
      ((w.keys p q).drop w.filled).take k ++ [Iterator.key (Iterator.next w.lane.iter)] := by
    have hlt' : k < ((w.keys p q).drop w.filled).length := by
      rw [List.length_drop]
      omega
    rw [List.take_succ_eq_append_getElem hlt', List.getElem_drop, hkey]
  show ((w.lane.buffer.pushBack _).map _).Contains (((w.keys p q).drop w.filled).take (k + 1))
  rw [htake, Vec.map_pushBack]
  exact h.elements.pushBack _

/-- A loop over `Next` that ends behind at most `scan_size` keys has pushed all it can push. -/
theorem Pushed.finish {k i : Nat} {g : Option Nat} {pc : Pc} {iter : Cursor Slice Slice}
    (h : w.Pushed p q (k + i)) (hi : i ≤ w.scanSize) (hend : w.lane.Exhausts i iter) :
    Pushed p q (k + w.scanSize) ⟨{ w.lane with iter := iter, pc := pc }, g⟩ := by
  obtain ⟨_, hinvalid, rfl⟩ | ⟨hge, rfl⟩ := hend
  · -- the instance has no further key
    have hnil := h.ahead
    rw [Cursor.ahead_of_not_valid hinvalid] at hnil
    have hle : (w.keys p q).length ≤ w.filled + (k + i) := List.drop_eq_nil_iff.mp hnil.symm
    have hlen : ((w.keys p q).drop w.filled).length ≤ k + i := by
      rw [List.length_drop]
      omega
    constructor
    · show w.lane.made.Contains (((w.keys p q).drop w.filled).take (k + w.scanSize))
      rw [List.take_of_length_le (by omega), ← List.take_of_length_le hlen]
      exact h.elements
    · show (Iterator.next (Iterator.next w.lane.iter)).ahead =
        (w.keys p q).drop (w.filled + (k + w.scanSize))
      rw [ahead_next_of_not_valid hinvalid, List.drop_eq_nil_of_le (by omega)]
  · obtain rfl : i = w.scanSize := by
      unfold scanSize at hi ⊢
      omega
    exact ⟨h.elements, h.ahead⟩

/-- The initial fill ends with an empty vector and the iterator behind the keys it has stored. -/
theorem pushed_fill {i : Nat} {g : Option Nat} {pc : Pc} {iter : Cursor Slice Slice}
    (hsize : w.lane.buffer.size = 0) (hi : 1 ≤ i) (hle : i ≤ w.filled)
    (hahead : (Iterator.next w.lane.iter).ahead = (w.keys p q).drop i)
    (hend : w.lane.Exhausts i iter) :
    Pushed p q 0 ⟨{ w.lane with iter := iter, pc := pc }, g⟩ := by
  have hempty : w.lane.made.Contains [] := contains_nil hsize
  refine ⟨by rw [List.take_zero]; exact hempty, ?_⟩
  show (Iterator.next iter).ahead = (w.keys p q).drop w.filled
  obtain ⟨_, hinvalid, rfl⟩ | ⟨hge, rfl⟩ := hend
  · rw [Cursor.ahead_of_not_valid hinvalid] at hahead
    have hlen : (w.keys p q).length ≤ i := List.drop_eq_nil_iff.mp hahead.symm
    rw [ahead_next_of_not_valid hinvalid, List.drop_eq_nil_of_le (hlen.trans hle)]
  · have heq : w.filled = i := by
      unfold filled scanSize at hle ⊢
      omega
    rw [hahead, heq]

/-- Every step of the worker keeps the invariant. -/
theorem Inv.work (h : w.Inv p q) (hmove : w.lane.Move p q l) :
    Inv p q ⟨l, count w.refills w.lane.pc l.pc⟩ := by
  cases hmove with
  | poll t pc hpc hnext =>
      simp only [Inv, hpc] at h
      obtain rfl | rfl := hnext
      · simpa [Inv, count, hpc] using h
      · simpa [Inv, count, hpc] using h
  | finish hpc _ | take hpc _ =>
      simp only [Inv, hpc] at h
      simpa [Inv, count, hpc] using h
  | seek iter hpc hiter =>
      simp only [Inv, hpc] at h
      have hahead : iter.ahead = w.keys p q := by
        rw [hiter]
        exact Cursor.ahead_seek (Cursor.start (p.db q)) (startKey w.lane.request)
      by_cases hvalid : Iterator.valid iter = true
      · simp only [if_pos hvalid, Inv, count, hpc]
        exact ⟨h.1, h.2, hvalid, hahead⟩
      · simp only [if_neg hvalid, Inv, count, hpc]
        refine ⟨h.1, .inr ⟨trivial, ?_⟩⟩
        exact hahead.symm.trans (Cursor.ahead_of_not_valid (Bool.eq_false_of_not_eq_true hvalid))
  | first buffer hpc hstore =>
      simp only [Inv, hpc] at h
      obtain ⟨hsize, hnone, hvalid, hahead⟩ := h
      rw [ahead_of_valid hvalid] at hahead
      have hkeys : w.keys p q = Iterator.key w.lane.iter :: (Iterator.next w.lane.iter).ahead :=
        hahead.symm
      simp only [Inv, count, hpc]
      refine ⟨(Vec.size_store hstore).trans hsize, hnone, trivial, Nat.le_refl 1,
        Nat.le_max_left 1 _, ?_, ?_⟩
      · show w.keys p q ≠ []
        simp [hkeys]
      · show (Iterator.next w.lane.iter).ahead = (w.keys p q).drop 1
        simp [hkeys]
  | fill i size buffer hpc hi hvalid hstore =>
      simp only [Inv, hpc] at h
      obtain ⟨hsize, hnone, rfl, hone, hle, hfound, hahead⟩ := h
      simp only [Inv, count, hpc]
      have hlt : i < w.scanSize := by
        unfold scanSize
        omega
      refine ⟨(Vec.size_store hstore).trans hsize, hnone, trivial, Nat.le_succ_of_le hone,
        show i + 1 ≤ max 1 w.scanSize by omega, hfound, ?_⟩
      show (Iterator.next (Iterator.next w.lane.iter)).ahead = (w.keys p q).drop (i + 1)
      rw [← List.tail_drop, ← hahead, ahead_of_valid hvalid, List.tail_cons]
  | filled i size iter hpc hend =>
      simp only [Inv, hpc] at h
      obtain ⟨hsize, _, rfl, hone, hle, hfound, hahead⟩ := h
      simp only [Inv, count, hpc]
      have hpushed : Pushed p q 0 ⟨{ w.lane with iter := iter, pc := .publish }, some 0⟩ :=
        pushed_fill hsize hone hle hahead hend
      exact ⟨0, by simpa using hpushed, rfl, hfound⟩
  | publish hpc | released hpc _ | notOver hpc _ | notNeeded hpc _ =>
      simp only [Inv, hpc] at h
      obtain ⟨r, hrefilled⟩ := h
      simp only [Inv, count, hpc]
      exact ⟨r, ⟨hrefilled.elements, hrefilled.ahead⟩, hrefilled.refills, hrefilled.found⟩
  | needed hpc _ =>
      simp only [Inv, hpc] at h
      obtain ⟨r, hrefilled⟩ := h
      simp only [Inv, count, hpc]
      exact ⟨r, hrefilled.refills, hrefilled.found, Nat.zero_le _, hrefilled.elements,
        hrefilled.ahead⟩
  | refill i hpc hi hvalid =>
      simp only [Inv, hpc] at h
      obtain ⟨r, hrefills, hfound, hle, hpushed⟩ := h
      simp only [Inv, count, hpc]
      refine ⟨r, hrefills, hfound, ?_, hpushed.push hvalid⟩
      show i + 1 ≤ w.scanSize
      unfold scanSize
      omega
  | refilled i iter hpc hend =>
      simp only [Inv, hpc] at h
      obtain ⟨r, hrefills, hfound, hle, hpushed⟩ := h
      simp only [Inv, count, hpc, hrefills]
      have hfinish : Pushed p q (r * w.scanSize + w.scanSize)
          ⟨{ w.lane with iter := iter, pc := .iterOver }, some (r + 1)⟩ :=
        hpushed.finish hle hend
      rw [← Nat.succ_mul] at hfinish
      exact ⟨r, hfinish, rfl, hfound⟩
  | iterOver hpc =>
      simp only [Inv, hpc] at h
      obtain ⟨r, hrefilled⟩ := h
      simp only [Inv, count, hpc]
      exact ⟨r + 1, ⟨hrefilled.elements, hrefilled.ahead⟩, hrefilled.refills, hrefilled.found⟩
  | clear hpc =>
      simp only [Inv, count, hpc]
      exact ⟨rfl, .inl trivial⟩
  | advance hpc =>
      simp only [Inv, hpc] at h
      simp only [Inv, count, hpc]
      exact ⟨h.1, trivial⟩

/-- A store to the flag keeps the invariant. -/
theorem Inv.store (h : w.Inv p q) (status : ScanStatus) :
    Inv p q { w with lane := { w.lane with status := status } } := by
  unfold Inv at h ⊢
  cases hpc : w.lane.pc with
  | publish | waitOver | checkNeed | clear | iterOver =>
      simp only [hpc] at h ⊢
      obtain ⟨r, hrefilled⟩ := h
      exact ⟨r, ⟨hrefilled.elements, hrefilled.ahead⟩, hrefilled.refills, hrefilled.found⟩
  | refill i =>
      simp only [hpc] at h ⊢
      obtain ⟨r, hrefills, hfound, hle, hpushed⟩ := h
      exact ⟨r, hrefills, hfound, hle, hpushed.elements, hpushed.ahead⟩
  | _ =>
      simp only [hpc] at h ⊢
      exact h

/-- The invariant holds in every reachable state of a worker. -/
theorem inv_reachable {allowed : Watched → WatchedAction → Prop}
    (h : (system p q).Reachable allowed w) : w.Inv p q := by
  refine h.invariant (I := fun w => w.Inv p q) ⟨rfl, rfl⟩ ?_
  intro w a w' _ hinv _ hstep
  cases a with
  | work t =>
      simp only [system, step, Option.map_eq_some_iff] at hstep
      obtain ⟨l, hl, rfl⟩ := hstep
      exact hinv.work (Lane.move_of_step hl)
  | store status =>
      cases hstep
      exact hinv.store status

/-- While the handshake is going on, refills are only added. -/
theorem count_inside {r : Nat} {pc pc' : Pc} (h : pc.inside = true) :
    ∃ r', count (some (r + 1)) pc pc' = some (r' + 1) := by
  cases pc with
  | waitOver | checkNeed | iterOver => exact ⟨r, rfl⟩
  | refill i =>
      cases pc' with
      | iterOver => exact ⟨r + 1, rfl⟩
      | _ => exact ⟨r, rfl⟩
  | _ => simp [Pc.inside] at h

end Watched

/-- A worker stores `MERGE_START`, or `ITER_OVER` when it has answered. -/
theorem Lane.Move.status {p : Program} {q : Nat} {l l' : Lane} (h : l.Move p q l') :
    l'.status = l.status ∨ l.pc = .publish ∧ l'.status = .mergeStart ∨ l.pc = .iterOver := by
  cases h with
  | publish hpc => exact .inr (.inl ⟨hpc, rfl⟩)
  | iterOver hpc => exact .inr (.inr hpc)
  | _ => exact .inl rfl

/-- The lane is a worker whose flag is stored to from outside, and one that shows `ITER_OVER` has
refilled its buffer. -/
def Lane.Answers (p : Program) (q : Nat) (l : Lane) : Prop :=
  ∃ refills, (Watched.system p q).Reachable (fun _ _ => True) ⟨l, refills⟩ ∧
    (l.status = .iterOver → ∃ r, refills = some (r + 1))

/-- Every lane of the program is such a worker in every reachable state. -/
theorem lane_watched {p : Program} {allowed : State → Action → Prop} {s : State}
    (h : (system p).Reachable allowed s) : ∀ q < p.queueNum, (s.lanes q).Answers p q := by
  refine h.invariant (I := fun s => ∀ q < p.queueNum, (s.lanes q).Answers p q) ?_ ?_
  · intro q _
    refine ⟨none, .init, fun hstatus => ?_⟩
    cases hstatus
  intro s a t hs hinv _ hstep
  have hshake := handshake_reachable hs
  cases a with
  | work q tail =>
      simp only [system, step] at hstep
      split_ifs at hstep with hq
      simp only [Option.map_eq_some_iff] at hstep
      obtain ⟨l, hl, rfl⟩ := hstep
      obtain ⟨refills, hreach, hover⟩ := hinv q hq.1
      refine forall_update (P := fun q l => l.Answers p q) hinv
        ⟨Watched.count refills (s.lanes q).pc l.pc, ?_, ?_⟩
      · refine .step hreach trivial (a := .work tail) ?_
        simp only [Watched.system, Watched.step, hl, Option.map_some]
      · intro hstatus
        rcases (Lane.move_of_step hl).status with hsame | ⟨_, hstart⟩ | hpc
        · -- the flag was `ITER_OVER` before, so the handshake is going on
          obtain ⟨r, rfl⟩ := hover (hsame ▸ hstatus)
          refine Watched.count_inside ?_
          by_contra hout
          have hscan := (hshake q hq.1).outside (Bool.eq_false_of_not_eq_true hout)
          rw [hsame, hscan] at hstatus
          cases hstatus
        · rw [hstart] at hstatus
          cases hstatus
        · have hrefilled := Watched.inv_reachable hreach
          simp only [Watched.Inv, hpc] at hrefilled
          obtain ⟨r, hr⟩ := hrefilled
          exact ⟨r, by rw [hpc, show refills = some (r + 1) from hr.refills]; rfl⟩
  | merge junk =>
      simp only [system, step, Option.map_eq_some_iff] at hstep
      obtain ⟨⟨m, store⟩, hm, rfl⟩ := hstep
      cases store with
      | none => exact hinv
      | some stored =>
          intro q hq
          obtain ⟨refills, hreach, hover⟩ := hinv q hq
          by_cases heq : q = stored.1
          · subst heq
            simp only [setStatus, Function.update_self]
            refine ⟨refills, .step hreach trivial (a := .store stored.2) rfl, fun hstatus => ?_⟩
            exact absurd hstatus (Merge.move_of_step hm).store_ne.2
          · simp only [setStatus, Function.update_of_ne heq]
            exact ⟨refills, hreach, hover⟩

/-- What a buffer contains. In every state of a worker behind the initial fill and `r` refills, the
elements of the vector are slices of `r * scan_size` keys (fewer if there are no more) from number
`scan_size` on. They are the first `(r + 1) * scan_size` keys at or past the start key exactly when
there is no such key. -/
theorem scan_buffer_contains {p : Program} {q r : Nat} {w : Watched}
    (h : (Watched.system p q).Reachable (fun _ _ => True) w) (hsize : 1 ≤ w.lane.request.scanSize)
    (hrefills : w.refills = some r) (hpc : ∀ i, w.lane.pc ≠ .refill i) :
    w.lane.made.Contains (((w.keys p q).drop w.scanSize).take (r * w.scanSize)) ∧
      (w.lane.made.Contains
          ((w.keys p q).take (min (w.keys p q).length ((r + 1) * w.scanSize))) ↔
        w.keys p q = []) := by
  have hpos : 1 ≤ w.scanSize := by
    unfold Watched.scanSize
    omega
  have hfilled : w.filled = w.scanSize := Nat.max_eq_right hpos
  -- the points with a defined number of refills are those behind a fill, and a scan without keys
  have hcases : w.Refilled p q r ∨ (w.lane.buffer.size = 0 ∧ w.keys p q = []) := by
    have hinv := Watched.inv_reachable h
    unfold Watched.Inv at hinv
    have hsome : ∀ {r'}, w.Refilled p q r' → w.Refilled p q r := by
      intro r' hr'
      obtain rfl : r' = r := Option.some.inj (hr'.refills.symm.trans hrefills)
      exact hr'
    cases hcase : w.lane.pc with
    | refill i => exact absurd hcase (hpc i)
    | publish | waitOver | checkNeed | clear | iterOver =>
        simp only [hcase] at hinv
        obtain ⟨r', hr'⟩ := hinv
        exact .inl (hsome hr')
    | advance =>
        simp only [hcase, hrefills] at hinv
        obtain ⟨hzero, hnone | ⟨_, hnil⟩⟩ := hinv
        · cases hnone
        · exact .inr ⟨hzero, hnil⟩
    | _ => simp [hcase, hrefills] at hinv
  obtain hrefilled | ⟨hzero, hnil⟩ := hcases
  · have helements := hrefilled.elements
    rw [hfilled] at helements
    refine ⟨helements, fun hwhole => ?_, fun hnil => absurd hnil hrefilled.found⟩
    -- the two lists differ in length unless both are empty
    have hlength := helements.size.symm.trans hwhole.size
    rw [List.length_take, List.length_drop, List.length_take, Nat.succ_mul] at hlength
    exact List.length_eq_zero_iff.mp (by omega)
  · rw [hnil]
    have hempty : w.lane.made.Contains [] := contains_nil hzero
    exact ⟨by simpa using hempty, fun _ => rfl, fun _ => by simpa using hempty⟩

/-- Worker 0 of `oneQueue` fills its buffer, is asked for more keys and answers once. -/
def refilledOnce : Watched :=
  (Watched.system oneQueue 0).after
    (List.replicate 6 (.work 1) ++ .store .needIter :: List.replicate 4 (.work 1))

/-- The state of a worker that has answered once is reachable. -/
theorem reachable_refilledOnce :
    (Watched.system oneQueue 0).Reachable (fun _ _ => True) refilledOnce :=
  System.reachable_after_free (by decide)

/-- Behind the refill the vector contains the second key only. -/
theorem scan_buffer_contains_one_queue :
    refilledOnce.refills = some 1 ∧ refilledOnce.lane.made.Contains [[2]] ∧
      ¬ refilledOnce.lane.made.Contains
        ((refilledOnce.keys oneQueue 0).take
          (min (refilledOnce.keys oneQueue 0).length ((1 + 1) * refilledOnce.scanSize))) := by
  have hrefills : refilledOnce.refills = some 1 := by decide
  have hpc : ∀ i, refilledOnce.lane.pc ≠ .refill i := by
    intro i hpc
    have hover : refilledOnce.lane.pc = .iterOver := by decide
    cases hover.symm.trans hpc
  obtain ⟨hcontains, hiff⟩ :=
    scan_buffer_contains reachable_refilledOnce (by decide) hrefills hpc
  exact ⟨hrefills, hcontains, fun hwhole => absurd (hiff.mp hwhole) (by decide)⟩

/-- After the initial fill and one refill with `scan_size` 1 over the keys 1, 2 and 3 the vector
should contain the keys 1 and 2; its size is 1 and its element is the key 2. -/
theorem scan_buffer_loses_keys :
    ∃ w, (Watched.system oneQueue 0).Reachable (fun _ _ => True) w ∧ w.refills = some 1 ∧
      w.scanSize = 1 ∧ w.keys oneQueue 0 = [[1], [2], [3]] ∧ w.lane.buffer.size = 1 ∧
      w.lane.made.at? 0 = some [2] ∧
      ¬ w.lane.made.Contains ((w.keys oneQueue 0).take
        (min (w.keys oneQueue 0).length ((1 + 1) * w.scanSize))) := by
  refine ⟨refilledOnce, reachable_refilledOnce, by decide, by decide, by decide, by decide,
    by decide, ?_⟩
  intro hwhole
  have hsize : refilledOnce.lane.buffer.size = 2 := hwhole.size
  exact absurd hsize (by decide)

end P2KVS.ScanTest
