import Mathlib.Data.List.Nodup
import Mathlib.Logic.Function.Basic

/-!
# Queues threaded through their elements

A queue whose elements carry the links themselves: `older` is set when an element is appended,
`newer` is created later by a walk from the newest element towards the oldest one, which stops at
the first link it finds. `Linked older newer q gap` says that the links describe `q`, oldest first.
Links that exist are right, and they reach from the oldest element upwards without a hole, except
directly below the position `gap` of a walk that is going on.
-/

namespace P2KVS.Intrusive

variable {α : Type*}

/-- The links of the elements of `q` describe `q`. -/
structure Linked (older newer : α → Option α) (q : List α) (gap : Option Nat) : Prop where
  nodup : q.Nodup
  older_first : ∀ {x}, q[0]? = some x → older x = none
  older_next : ∀ {i x y}, q[i]? = some x → q[i + 1]? = some y → older y = some x
  newer_right : ∀ {i x}, q[i]? = some x → newer x = none ∨ newer x = q[i + 1]?
  newer_below : ∀ {i x y}, q[i]? = some x → q[i + 1]? = some y → newer y ≠ none →
    newer x ≠ none ∨ gap = some (i + 1)

/-- Two positions of a queue without duplicates hold different elements. -/
theorem index_inj {q : List α} (h : q.Nodup) {i j : Nat} {x : α} (hi : q[i]? = some x)
    (hj : q[j]? = some x) : i = j := by
  have hlt := (List.getElem?_eq_some_iff.mp hi).1
  exact (List.getElem?_inj hlt h).mp (hi.trans hj.symm)

namespace Linked

variable {older newer : α → Option α} {q : List α} {gap : Option Nat}

/-- The empty queue. -/
theorem nil : Linked older newer [] gap where
  nodup := List.nodup_nil
  older_first h := by simp at h
  older_next h := by simp at h
  newer_right h := by simp at h
  newer_below h := by simp at h

/-- Only the links of the elements matter. -/
theorem congr {older' newer' : α → Option α} (h : Linked older newer q gap)
    (holder : ∀ x ∈ q, older' x = older x) (hnewer : ∀ x ∈ q, newer' x = newer x) :
    Linked older' newer' q gap where
  nodup := h.nodup
  older_first hx := by rw [holder _ (List.mem_of_getElem? hx), h.older_first hx]
  older_next hx hy := by rw [holder _ (List.mem_of_getElem? hy), h.older_next hx hy]
  newer_right hx := by rw [hnewer _ (List.mem_of_getElem? hx)]; exact h.newer_right hx
  newer_below hx hy := by
    rw [hnewer _ (List.mem_of_getElem? hx), hnewer _ (List.mem_of_getElem? hy)]
    exact h.newer_below hx hy

/-- A link that exists leads to the next element. -/
theorem newer_eq (h : Linked older newer q gap) {i : Nat} {x : α} (hx : q[i]? = some x)
    (hnewer : newer x ≠ none) : newer x = q[i + 1]? :=
  (h.newer_right hx).resolve_left hnewer

section Append

variable [DecidableEq α]

/-- Appending an element that has no newer link and whose older link is the newest element. -/
theorem push {w : α} (h : Linked older newer q gap) (hw : w ∉ q) (hnone : newer w = none) :
    Linked (Function.update older w q.getLast?) newer (q ++ [w]) gap where
  nodup := by
    rw [List.nodup_append]
    refine ⟨h.nodup, List.nodup_singleton w, fun a ha b hb => ?_⟩
    rw [List.mem_singleton.mp hb]
    exact fun heq => hw (heq ▸ ha)
  older_first {x} hx := by
    rcases q with _ | ⟨a, rest⟩
    · simp only [List.nil_append, List.getElem?_cons_zero, Option.some.injEq] at hx
      simp [← hx]
    · simp only [List.cons_append, List.getElem?_cons_zero, Option.some.injEq] at hx
      have hne : x ≠ w := fun heq => hw (by simp [← heq, hx])
      rw [Function.update_of_ne hne]
      exact h.older_first (by simpa using hx)
  older_next {i x y} hx hy := by
    rw [List.getElem?_append] at hx hy
    split_ifs at hx hy with h₁ h₂ h₂
    · have hne : y ≠ w := fun heq => hw (heq ▸ List.mem_of_getElem? hy)
      rw [Function.update_of_ne hne]
      exact h.older_next hx hy
    · -- the new element behind the newest one
      have hi : i = q.length - 1 := by omega
      obtain rfl : w = y := by
        have : i + 1 - q.length = 0 := by omega
        simpa [this] using hy
      rw [Function.update_self, List.getLast?_eq_getElem?, ← hi, hx]
    · omega
    · have : ¬ i + 1 - q.length = 0 := by omega
      rw [List.getElem?_eq_none (by simp; omega)] at hy
      cases hy
  newer_right {i x} hx := by
    rw [List.getElem?_append] at hx
    split_ifs at hx with hlt
    · obtain hnone | heq := h.newer_right hx
      · exact .inl hnone
      · by_cases hi : i + 1 < q.length
        · exact .inr (by rw [heq, List.getElem?_append_left hi])
        · exact .inl (by rw [heq, List.getElem?_eq_none (by omega)])
    · obtain rfl : w = x := by
        have hi := (List.getElem?_eq_some_iff.mp hx).1
        have : i - q.length = 0 := by simpa using hi
        simpa [this] using hx
      exact .inl hnone
  newer_below {i x y} hx hy hy' := by
    rw [List.getElem?_append] at hx hy
    split_ifs at hx hy with h₁ h₂ h₂
    · exact h.newer_below hx hy hy'
    · obtain rfl : w = y := by
        have : i + 1 - q.length = 0 := by omega
        simpa [this] using hy
      exact absurd hnone hy'
    · omega
    · rw [List.getElem?_eq_none (by simp; omega)] at hy
      cases hy

/-- The walk creates the link below its position and moves there. -/
theorem connect {i : Nat} {x y : α} (h : Linked older newer q (some (i + 1)))
    (hx : q[i]? = some x) (hy : q[i + 1]? = some y) :
    Linked older (Function.update newer x (some y)) q (some i) where
  nodup := h.nodup
  older_first := h.older_first
  older_next := h.older_next
  newer_right {j z} hz := by
    by_cases heq : z = x
    · subst heq
      obtain rfl := index_inj h.nodup hz hx
      exact .inr (by rw [Function.update_self, hy])
    · rw [Function.update_of_ne heq]
      exact h.newer_right hz
  newer_below {j a b} ha hb hne := by
    by_cases hax : a = x
    · exact .inl (by simp [hax])
    by_cases hbx : b = x
    · subst hbx
      obtain rfl := index_inj h.nodup hb hx
      exact .inr rfl
    rw [Function.update_of_ne hbx] at hne
    rw [Function.update_of_ne hax]
    obtain hlink | hgap := h.newer_below ha hb hne
    · exact .inl hlink
    · -- the old hole lay below `y`, that is at `x`
      obtain rfl : j = i := by simpa using hgap.symm
      exact absurd (Option.some.inj (ha.symm.trans hx)) hax

/-- Removing the oldest elements and clearing the older link of the first one that stays. -/
theorem drop {k : Nat} {y : α} (h : Linked older newer q none) (hy : q[k]? = some y) :
    Linked (Function.update older y none) newer (q.drop k) none where
  nodup := h.nodup.sublist (List.drop_sublist k q)
  older_first {x} hx := by
    rw [List.getElem?_drop, Nat.add_zero] at hx
    obtain rfl : y = x := Option.some.inj (hy.symm.trans hx)
    exact Function.update_self ..
  older_next {i a b} ha hb := by
    rw [List.getElem?_drop] at ha hb
    have hne : b ≠ y := fun heq => by
      have := index_inj h.nodup (heq ▸ hb) hy
      omega
    rw [Function.update_of_ne hne]
    exact h.older_next ha hb
  newer_right {i a} ha := by
    rw [List.getElem?_drop] at ha ⊢
    exact h.newer_right ha
  newer_below {i a b} ha hb hne := by
    rw [List.getElem?_drop] at ha hb
    exact (h.newer_below ha hb hne).imp_right (by simp)

end Append

/-- A walk may begin anywhere. -/
theorem beginWalk (h : Linked older newer q none) (i : Nat) : Linked older newer q (some i) where
  nodup := h.nodup
  older_first := h.older_first
  older_next := h.older_next
  newer_right := h.newer_right
  newer_below hx hy hne := .inl ((h.newer_below hx hy hne).resolve_right (by simp))

/-- The walk ends at the oldest element, or above a link that exists. -/
theorem endWalk {i : Nat} (h : Linked older newer q (some i))
    (hlink : ∀ {j x}, i = j + 1 → q[j]? = some x → newer x ≠ none) :
    Linked older newer q none where
  nodup := h.nodup
  older_first := h.older_first
  older_next := h.older_next
  newer_right := h.newer_right
  newer_below hx hy hne := by
    obtain hnewer | hgap := h.newer_below hx hy hne
    · exact .inl hnewer
    · exact .inl (hlink (Option.some.inj hgap) hx)

/-- Without a walk, below a link that exists all links exist. -/
theorem newer_of_le (h : Linked older newer q none) {i j : Nat} {x y : α} (hx : q[i]? = some x)
    (hy : q[j]? = some y) (hle : i ≤ j) (hnewer : newer y ≠ none) : newer x ≠ none := by
  induction j generalizing y with
  | zero =>
      obtain rfl : i = 0 := by omega
      rwa [← Option.some.inj (hx.symm.trans hy)] at hnewer
  | succ j ih =>
      by_cases heq : i = j + 1
      · subst heq
        rwa [← Option.some.inj (hx.symm.trans hy)] at hnewer
      · obtain ⟨hlt, _⟩ := List.getElem?_eq_some_iff.mp hy
        have hz : q[j]? = some (q[j]) := List.getElem?_eq_getElem (by omega)
        exact ih hz (by omega) ((h.newer_below hz hy hnewer).resolve_right (by simp))

end Linked

end P2KVS.Intrusive
