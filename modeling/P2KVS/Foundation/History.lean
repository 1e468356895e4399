import Mathlib.Data.List.GetD
import Mathlib.Data.List.Induction

/-!
# Histories and positions

`Every P history` relates each entry of a history to the entries before it, which is the form of
every ordering law about logged operations. `Extends P` relates a history to a later one by the
entries in between. `positions p n` lists the positions below `n` that satisfy `p`; a consumer that
handles its input in order handles exactly these.
-/

namespace P2KVS.History

variable {α β : Type*}

/-- Every entry satisfies `P` together with the entries before it. -/
def Every (P : List α → α → Prop) (history : List α) : Prop :=
  ∀ before entry after, history = before ++ entry :: after → P before entry

/-- The empty history satisfies every ordering law. -/
theorem every_nil (P : List α → α → Prop) : Every P [] := by
  intro before entry after h
  simp at h

/-- Appending an entry adds one obligation, about that entry and the whole old history. -/
theorem every_append_singleton (P : List α → α → Prop) (history : List α) (last : α) :
    Every P (history ++ [last]) ↔ Every P history ∧ P history last := by
  constructor
  · intro h
    refine ⟨?_, h history last [] rfl⟩
    intro before entry after heq
    exact h before entry (after ++ [last]) (by simp [heq])
  · intro h before entry after heq
    obtain ⟨hold, hlast⟩ := h
    -- the entry is the new one, or it lies in the old history
    rcases List.eq_nil_or_concat after with rfl | ⟨init, final, rfl⟩
    · obtain ⟨rfl, hentry⟩ := List.append_inj' heq rfl
      cases hentry
      exact hlast
    · have heq' : history ++ [last] = (before ++ entry :: init) ++ [final] := by
        simpa using heq
      exact hold before entry init (List.append_inj' heq' rfl).1

/-- `later` continues `history` with entries that satisfy `P`. -/
def Extends (P : α → Prop) (history later : List α) : Prop :=
  ∃ made, later = history ++ made ∧ ∀ entry ∈ made, P entry

section Extends

variable {P : α → Prop} {history middle later : List α}

/-- A history continues itself. -/
theorem extends_refl (P : α → Prop) (history : List α) : Extends P history history :=
  ⟨[], (List.append_nil _).symm, List.forall_mem_nil _⟩

/-- Appending one entry. -/
theorem extends_concat (history : List α) {entry : α} (h : P entry) :
    Extends P history (history ++ [entry]) :=
  ⟨[entry], rfl, List.forall_mem_singleton.mpr h⟩

/-- One continuation after another. -/
theorem Extends.trans (h : Extends P history middle) (h' : Extends P middle later) :
    Extends P history later := by
  obtain ⟨made, rfl, hmade⟩ := h
  obtain ⟨made', rfl, hmade'⟩ := h'
  exact ⟨made ++ made', List.append_assoc _ _ _, List.forall_mem_append.mpr ⟨hmade, hmade'⟩⟩

end Extends

/-- The positions below `n` that satisfy `p`, in increasing order. -/
def positions (p : Nat → Bool) (n : Nat) : List Nat :=
  (List.range n).filter p

/-- No position lies below zero. -/
@[simp] theorem positions_zero (p : Nat → Bool) : positions p 0 = [] := rfl

/-- Passing position `n` appends it exactly when it satisfies the predicate. -/
theorem positions_succ (p : Nat → Bool) (n : Nat) :
    positions p (n + 1) = positions p n ++ if p n then [n] else [] := by
  simp only [positions, List.range_succ, List.filter_append, List.filter_cons, List.filter_nil]

/-- Membership in `positions`. -/
@[simp] theorem mem_positions {p : Nat → Bool} {n i : Nat} :
    i ∈ positions p n ↔ i < n ∧ p i = true := by
  simp [positions]

/-- Positions are listed without repetition. -/
theorem positions_nodup (p : Nat → Bool) (n : Nat) : (positions p n).Nodup :=
  List.nodup_range.filter p

/-- The only position below `n` that satisfies `p`. -/
theorem positions_eq_singleton {p : Nat → Bool} {n k : Nat} (hk : k < n) (hp : p k = true)
    (honly : ∀ i < n, p i = true → i = k) : positions p n = [k] := by
  refine List.perm_singleton.mp ?_
  refine (List.perm_ext_iff_of_nodup (positions_nodup p n)
    (List.pairwise_singleton _ k)).mpr fun i => ?_
  rw [mem_positions, List.mem_singleton]
  constructor
  · intro hi
    exact honly i hi.1 hi.2
  · rintro rfl
    exact ⟨hk, hp⟩

/-- Reading a list at the positions whose entries satisfy `p` filters the list. -/
theorem map_positions (xs : List α) (blank : α) (p : α → Bool) (f : α → β) :
    (positions (fun i => p (xs.getD i blank)) xs.length).map (fun i => f (xs.getD i blank)) =
      (xs.filter p).map f := by
  induction xs using List.reverseRecOn with
  | nil => rfl
  | append_singleton xs x ih =>
      have hold : ∀ i ∈ List.range xs.length,
          (xs ++ [x]).getD i blank = xs.getD i blank := by
        intro i hi
        exact List.getD_append _ _ _ _ (List.mem_range.mp hi)
      have hfilter : positions (fun i => p ((xs ++ [x]).getD i blank)) xs.length =
          positions (fun i => p (xs.getD i blank)) xs.length :=
        List.filter_congr fun i hi => by rw [hold i hi]
      have hmap : (positions (fun i => p (xs.getD i blank)) xs.length).map
            (fun i => f ((xs ++ [x]).getD i blank)) =
          (positions (fun i => p (xs.getD i blank)) xs.length).map
            (fun i => f (xs.getD i blank)) :=
        List.map_congr_left fun i hi => by
          rw [hold i (List.mem_range.mpr (mem_positions.mp hi).1)]
      have hlast : (xs ++ [x]).getD xs.length blank = x := by simp
      rw [List.length_append, List.length_singleton, positions_succ, List.map_append, hfilter,
        hmap, ih, List.filter_append, List.map_append, hlast]
      cases hp : p x <;> simp [hp]

section Marker

variable (mark : α → Prop) {xs : List α} {last blank : α} {n : Nat}

/-- A reader that has met no marker has not passed the list in front of one. -/
theorem le_length_of_unmarked (hlast : mark last)
    (hbefore : ∀ i < n, ¬ mark ((xs ++ [last]).getD i blank)) : n ≤ xs.length := by
  by_contra hlt
  refine hbefore xs.length (by omega) ?_
  rw [List.getD_append_right _ _ _ _ (Nat.le_refl _), Nat.sub_self]
  exact hlast

/-- A reader whose first marker is at `n` has read exactly the list in front of it. -/
theorem eq_length_of_marked (hreal : ∀ x ∈ xs, ¬ mark x) (hlast : mark last)
    (hbefore : ∀ i < n, ¬ mark ((xs ++ [last]).getD i blank))
    (hat : mark ((xs ++ [last]).getD n blank)) : n = xs.length := by
  rcases Nat.lt_or_eq_of_le (le_length_of_unmarked mark hlast hbefore) with hlt | heq
  · rw [List.getD_append _ _ _ _ hlt, List.getD_eq_getElem _ _ hlt] at hat
    exact absurd hat (hreal _ (List.getElem_mem hlt))
  · exact heq

end Marker

end P2KVS.History
