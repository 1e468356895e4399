import Mathlib.Algebra.GroupWithZero.Nat
import Mathlib.Data.Finset.Max
import Mathlib.Data.Fintype.Basic
import Mathlib.Data.List.FinRange
import Mathlib.Data.List.Pairwise
import Mathlib.Data.Prod.Lex
import Mathlib.Order.WithBot

/-!
# Merging sorted lists

`merge key lists` holds all elements of finitely many lists, ordered by key and, among equal keys,
by the list they come from. It is the stable sort of the lists one after the other. The two rules
for machines that merge are `merge_eq_cons` and `merge_eq_concat`: the first element is the head of
the first list whose head is least, the last element is the end of the last list whose end is
greatest. `take_merge` says that the first `m` elements need only `m` elements of each list.
-/

namespace P2KVS.Merging

variable {α K : Type*} [LinearOrder K] (key : α → K)

/-- The elements ordered by key. The sort is stable. -/
def sortBy (l : List α) : List α :=
  l.mergeSort fun a b => decide (key a ≤ key b)

/-- All elements of the lists, ordered by key and, among equal keys, by list. -/
def merge {n : Nat} (lists : Fin n → List α) : List α :=
  sortBy key ((List.finRange n).flatMap lists)

variable {key}

/-- Sorting keeps the elements. -/
@[simp] theorem mem_sortBy {l : List α} {x : α} : x ∈ sortBy key l ↔ x ∈ l :=
  List.mem_mergeSort

/-- The elements come in the order of their keys. -/
theorem sortBy_sorted (l : List α) : (sortBy key l).Pairwise fun a b => key a ≤ key b := by
  have h : (sortBy key l).Pairwise fun a b => decide (key a ≤ key b) = true :=
    List.pairwise_mergeSort
      (fun a b c hab hbc => by simpa using le_trans (of_decide_eq_true hab) (of_decide_eq_true hbc))
      (fun a b => by simpa using le_total (key a) (key b)) l
  exact h.imp of_decide_eq_true

/-- The sort is stable: it keeps the order among equal keys. -/
theorem filter_sortBy (l : List α) (k : K) :
    (sortBy key l).filter (fun x => key x = k) = l.filter fun x => key x = k := by
  have hequal : (l.filter fun x => key x = k).Pairwise
      fun a b => decide (key a ≤ key b) = true := by
    refine List.pairwise_of_forall_mem_list fun a ha b hb => ?_
    simp only [List.mem_filter, decide_eq_true_eq] at ha hb
    simp [ha.2, hb.2]
  have hsublist : (l.filter fun x => key x = k).Sublist (sortBy key l) :=
    List.sublist_mergeSort
      (fun a b c hab hbc => by simpa using le_trans (of_decide_eq_true hab) (of_decide_eq_true hbc))
      (fun a b => by simpa using le_total (key a) (key b)) hequal List.filter_sublist
  have hfiltered := hsublist.filter fun x => decide (key x = k)
  rw [List.filter_filter, List.filter_congr fun x _ => Bool.and_self _] at hfiltered
  exact (hfiltered.eq_of_length ((List.mergeSort_perm l _).filter _).length_eq.symm).symm

/-- A list that is ordered by key is determined by its elements of each key. -/
theorem eq_of_filter_eq {a b : List α} (ha : a.Pairwise fun x y => key x ≤ key y)
    (hb : b.Pairwise fun x y => key x ≤ key y)
    (h : ∀ k, a.filter (fun x => key x = k) = b.filter fun x => key x = k) : a = b := by
  induction a generalizing b with
  | nil =>
      cases b with
      | nil => rfl
      | cons y b => exact absurd (h (key y)) (by simp)
  | cons x a ih =>
      cases b with
      | nil => exact absurd (h (key x)) (by simp)
      | cons y b =>
          obtain ⟨hx, ha'⟩ := List.pairwise_cons.mp ha
          obtain ⟨hy, hb'⟩ := List.pairwise_cons.mp hb
          have hmem : ∀ z, z ∈ x :: a ↔ z ∈ y :: b := by
            intro z
            have hz := congrArg (z ∈ ·) (h (key z))
            simpa using hz
          -- both heads have the least key
          have hxy : key x ≤ key y := by
            rcases List.mem_cons.mp ((hmem y).mpr List.mem_cons_self) with heq | hin
            · rw [heq]
            · exact hx y hin
          have hyx : key y ≤ key x := by
            rcases List.mem_cons.mp ((hmem x).mp List.mem_cons_self) with heq | hin
            · rw [heq]
            · exact hy x hin
          have heq : x = y := by
            have hhead := h (key x)
            rw [List.filter_cons_of_pos (by simp), List.filter_cons_of_pos
              (by simpa using le_antisymm hyx hxy)] at hhead
            exact (List.cons.inj hhead).1
          subst heq
          refine congrArg (x :: ·) (ih ha' hb' fun k => ?_)
          have hk := h k
          by_cases hkey : key x = k
          · rw [List.filter_cons_of_pos (by simpa using hkey),
              List.filter_cons_of_pos (by simpa using hkey)] at hk
            exact (List.cons.inj hk).2
          · rwa [List.filter_cons_of_neg (by simpa using hkey),
              List.filter_cons_of_neg (by simpa using hkey)] at hk

/-- What characterises the sorted list. -/
theorem eq_sortBy {a l : List α} (hsorted : a.Pairwise fun x y => key x ≤ key y)
    (h : ∀ k, a.filter (fun x => key x = k) = l.filter fun x => key x = k) : a = sortBy key l :=
  eq_of_filter_eq hsorted (sortBy_sorted l) fun k => (h k).trans (filter_sortBy l k).symm

/-- The sorted list begins with an element whose key is least and which is the first of its key. -/
theorem sortBy_eq_cons {front back : List α} {x : α} (hfront : ∀ y ∈ front, key x < key y)
    (hback : ∀ y ∈ back, key x ≤ key y) :
    sortBy key (front ++ x :: back) = x :: sortBy key (front ++ back) := by
  refine (eq_sortBy ?_ fun k => ?_).symm
  · refine List.pairwise_cons.mpr ⟨fun y hy => ?_, sortBy_sorted _⟩
    rcases List.mem_append.mp (mem_sortBy.mp hy) with hy | hy
    · exact le_of_lt (hfront y hy)
    · exact hback y hy
  · by_cases hkey : key x = k
    · -- no element of the same key stands in front
      have hnone : front.filter (fun y => key y = k) = [] := by
        refine List.filter_eq_nil_iff.mpr fun y hy => ?_
        simpa using ne_of_gt (hkey ▸ hfront y hy)
      simp [filter_sortBy, hkey, hnone]
    · simp [filter_sortBy, hkey]

/-- The sorted list ends with an element whose key is greatest and which is the last of its key. -/
theorem sortBy_eq_concat {front back : List α} {x : α} (hfront : ∀ y ∈ front, key y ≤ key x)
    (hback : ∀ y ∈ back, key y < key x) :
    sortBy key (front ++ x :: back) = sortBy key (front ++ back) ++ [x] := by
  refine (eq_sortBy ?_ fun k => ?_).symm
  · refine List.pairwise_append.mpr ⟨sortBy_sorted _, List.pairwise_singleton _ _, ?_⟩
    intro y hy z hz
    rw [List.mem_singleton.mp hz]
    rcases List.mem_append.mp (mem_sortBy.mp hy) with hy | hy
    · exact hfront y hy
    · exact le_of_lt (hback y hy)
  · by_cases hkey : key x = k
    · -- no element of the same key stands behind
      have hnone : back.filter (fun y => key y = k) = [] := by
        refine List.filter_eq_nil_iff.mpr fun y hy => ?_
        simpa using ne_of_lt (hkey ▸ hback y hy)
      simp [filter_sortBy, hkey, hnone]
    · simp [filter_sortBy, hkey]

/-- The numbers below `n` in order, split at one of them. -/
theorem finRange_split {n : Nat} (c : Fin n) :
    ∃ before after, List.finRange n = before ++ c :: after ∧ (∀ i, i ∈ before ↔ i < c) ∧
      ∀ i, i ∈ after ↔ c < i := by
  obtain ⟨before, after, hsplit⟩ := List.append_of_mem (List.mem_finRange c)
  have hsorted := List.pairwise_lt_finRange n
  rw [hsplit, List.pairwise_append, List.pairwise_cons] at hsorted
  obtain ⟨_, ⟨hafter, _⟩, hbefore⟩ := hsorted
  have hlt : ∀ i ∈ before, i < c := fun i hi => hbefore i hi c List.mem_cons_self
  have hall : ∀ i, i ∈ before ∨ i = c ∨ i ∈ after := by
    intro i
    have hmem := List.mem_finRange i
    rwa [hsplit, List.mem_append, List.mem_cons] at hmem
  refine ⟨before, after, hsplit, fun i => ⟨hlt i, fun hi => ?_⟩, fun i => ⟨hafter i, fun hi => ?_⟩⟩
  · rcases hall i with h | rfl | h
    · exact h
    · exact absurd hi (lt_irrefl _)
    · exact absurd hi (lt_asymm (hafter i h))
  · rcases hall i with h | rfl | h
    · exact absurd hi (lt_asymm (hlt i h))
    · exact absurd hi (lt_irrefl _)
    · exact h

section Lists

variable {n : Nat} {lists : Fin n → List α} {c : Fin n} {x : α} {rest : List α}

/-- Replacing one list leaves the lists in front of it and behind it in place. -/
theorem flatMap_update (lists : Fin n → List α) (c : Fin n) :
    ∃ front back : List α, (∀ y ∈ front, ∃ i < c, y ∈ lists i) ∧
      (∀ y ∈ back, ∃ i, c < i ∧ y ∈ lists i) ∧
      ∀ l, (List.finRange n).flatMap (Function.update lists c l) = front ++ (l ++ back) := by
  obtain ⟨before, after, hsplit, hbefore, hafter⟩ := finRange_split c
  refine ⟨before.flatMap lists, after.flatMap lists, ?_, ?_, fun l => ?_⟩
  · intro y hy
    obtain ⟨i, hi, hmem⟩ := List.mem_flatMap.mp hy
    exact ⟨i, (hbefore i).mp hi, hmem⟩
  · intro y hy
    obtain ⟨i, hi, hmem⟩ := List.mem_flatMap.mp hy
    exact ⟨i, (hafter i).mp hi, hmem⟩
  · rw [hsplit, List.flatMap_append, List.flatMap_cons, Function.update_self]
    congr 1
    · exact List.flatMap_congr fun i hi => Function.update_of_ne (ne_of_lt ((hbefore i).mp hi)) _ _
    · congr 1
      exact List.flatMap_congr fun i hi => Function.update_of_ne (ne_of_gt ((hafter i).mp hi)) _ _

/-- Membership in a merge. -/
@[simp] theorem mem_merge : x ∈ merge key lists ↔ ∃ i, x ∈ lists i := by
  simp [merge]

/-- A merge has as many elements as the lists have together. -/
theorem length_merge : (merge key lists).length = ((List.finRange n).map fun i =>
    (lists i).length).sum := by
  rw [merge, sortBy, List.length_mergeSort, List.length_flatMap]

/-- Nothing comes from empty lists. -/
theorem merge_eq_nil (h : ∀ i, lists i = []) : merge key lists = [] := by
  refine List.eq_nil_iff_forall_not_mem.mpr fun x hx => ?_
  obtain ⟨i, hi⟩ := mem_merge.mp hx
  simp [h i] at hi

/-- The head of a sorted list is least. -/
theorem head_le {l : List α} (hsorted : l.Pairwise fun a b => key a ≤ key b) {y : α} (hy : y ∈ l) :
    ∃ z, l.head? = some z ∧ key z ≤ key y := by
  cases l with
  | nil => cases hy
  | cons z tail =>
      refine ⟨z, rfl, ?_⟩
      rcases List.mem_cons.mp hy with rfl | hy
      · exact le_refl _
      · exact (List.pairwise_cons.mp hsorted).1 y hy

/-- The end of a sorted list is greatest. -/
theorem le_getLast {l : List α} (hsorted : l.Pairwise fun a b => key a ≤ key b) {y : α}
    (hy : y ∈ l) : ∃ z, l.getLast? = some z ∧ key y ≤ key z := by
  rcases List.eq_nil_or_concat l with rfl | ⟨init, z, rfl⟩
  · cases hy
  · rw [List.concat_eq_append] at hsorted hy ⊢
    refine ⟨z, List.getLast?_concat, ?_⟩
    rcases List.mem_append.mp hy with hy | hy
    · exact (List.pairwise_append.mp hsorted).2.2 y hy z (List.mem_singleton_self z)
    · rw [List.mem_singleton.mp hy]

/-- A list in strict key order is the merge of lists that hold the same elements without
repetition. -/
theorem eq_merge {l : List α} (hsorted : l.Pairwise fun a b => key a < key b)
    (hnodup : ((List.finRange n).flatMap lists).Nodup) (hmem : ∀ x, x ∈ l ↔ ∃ i, x ∈ lists i) :
    l = merge key lists := by
  have hne : l.Pairwise fun a b => key a ≠ key b := hsorted.imp fun hlt => ne_of_lt hlt
  have hdistinct : l.Nodup := hne.imp fun hkey heq => hkey (congrArg key heq)
  have hperm : l.Perm (merge key lists) := by
    refine ((List.perm_ext_iff_of_nodup hdistinct hnodup).mpr fun x => ?_).trans
      (List.mergeSort_perm _ _).symm
    rw [hmem, List.mem_flatMap]
    simp
  -- elements of one key are equal, so the order by key leaves no choice
  have hantisymm : ∀ a b, a ∈ l → b ∈ l → key a ≤ key b → key b ≤ key a → a = b := by
    intro a b ha hb hab hba
    have : Std.Symm fun a b : α => key a ≠ key b := ⟨fun _ _ hkey => hkey.symm⟩
    by_contra hdiff
    exact hne.forall ha hb hdiff (le_antisymm hab hba)
  exact hperm.eq_of_pairwise (fun a b ha hb => hantisymm a b ha (hperm.mem_iff.mpr hb))
    (hsorted.imp le_of_lt) (sortBy_sorted _)

/-- A merge begins with the head of the first list whose head is least. -/
theorem merge_eq_cons (hsorted : ∀ i, (lists i).Pairwise fun a b => key a ≤ key b)
    (hc : lists c = x :: rest) (hleast : ∀ i y, (lists i).head? = some y → key x ≤ key y)
    (hfirst : ∀ i < c, ∀ y, (lists i).head? = some y → key x < key y) :
    merge key lists = x :: merge key (Function.update lists c rest) := by
  obtain ⟨front, back, hfront, hback, hupdate⟩ := flatMap_update lists c
  have hlists := hupdate (lists c)
  rw [Function.update_eq_self, hc] at hlists
  have hall : ∀ i, ∀ y ∈ lists i, key x ≤ key y := by
    intro i y hy
    obtain ⟨z, hz, hzy⟩ := head_le (hsorted i) hy
    exact (hleast i z hz).trans hzy
  rw [merge, merge, hlists, hupdate, List.cons_append]
  refine sortBy_eq_cons ?_ ?_
  · intro y hy
    obtain ⟨i, hi, hmem⟩ := hfront y hy
    obtain ⟨z, hz, hzy⟩ := head_le (hsorted i) hmem
    exact (hfirst i hi z hz).trans_le hzy
  · intro y hy
    rcases List.mem_append.mp hy with hy | hy
    · exact hall c y (hc ▸ List.mem_cons_of_mem x hy)
    · obtain ⟨i, _, hmem⟩ := hback y hy
      exact hall i y hmem

/-- A merge ends with the end of the last list whose end is greatest. -/
theorem merge_eq_concat (hsorted : ∀ i, (lists i).Pairwise fun a b => key a ≤ key b)
    (hc : lists c = rest ++ [x]) (hgreatest : ∀ i y, (lists i).getLast? = some y → key y ≤ key x)
    (hlast : ∀ i, c < i → ∀ y, (lists i).getLast? = some y → key y < key x) :
    merge key lists = merge key (Function.update lists c rest) ++ [x] := by
  obtain ⟨front, back, hfront, hback, hupdate⟩ := flatMap_update lists c
  have hlists := hupdate (lists c)
  rw [Function.update_eq_self, hc] at hlists
  have hall : ∀ i, ∀ y ∈ lists i, key y ≤ key x := by
    intro i y hy
    obtain ⟨z, hz, hyz⟩ := le_getLast (hsorted i) hy
    exact hyz.trans (hgreatest i z hz)
  rw [merge, merge, hlists, hupdate, List.append_assoc, List.singleton_append, ← List.append_assoc,
    ← List.append_assoc]
  refine sortBy_eq_concat ?_ ?_
  · intro y hy
    rcases List.mem_append.mp hy with hy | hy
    · obtain ⟨i, _, hmem⟩ := hfront y hy
      exact hall i y hmem
    · exact hall c y (hc ▸ List.mem_append_left _ hy)
  · intro y hy
    obtain ⟨i, hi, hmem⟩ := hback y hy
    obtain ⟨z, hz, hyz⟩ := le_getLast (hsorted i) hmem
    exact hyz.trans_lt (hlast i hi z hz)

/-- The lists are all empty, or there is a first one whose head is least. -/
theorem nil_or_head (key : α → K) (lists : Fin n → List α) :
    (∀ i, lists i = []) ∨ ∃ c x rest, lists c = x :: rest ∧
      (∀ i y, (lists i).head? = some y → key x ≤ key y) ∧
      ∀ i < c, ∀ y, (lists i).head? = some y → key x < key y := by
  by_cases hnil : ∀ i, lists i = []
  · exact .inl hnil
  right
  obtain ⟨i₀, hi₀⟩ := not_forall.mp hnil
  -- order the lists by their heads and then by their places; empty lists come last
  let rank : Fin n → WithTop K ×ₗ Fin n := fun i =>
    toLex ((lists i).head?.elim ⊤ fun x => (key x : WithTop K), i)
  obtain ⟨c, _, hc⟩ := Finset.exists_min_image Finset.univ rank ⟨i₀, Finset.mem_univ i₀⟩
  have hle : ∀ i y, (lists i).head? = some y →
      rank c ≤ toLex ((key y : WithTop K), i) := by
    intro i y hy
    have hi := hc i (Finset.mem_univ i)
    simpa only [rank, hy, Option.elim_some] using hi
  cases hlist : lists c with
  | nil =>
      obtain ⟨y, tail, hhead⟩ := List.exists_cons_of_ne_nil hi₀
      have htop := hle i₀ y (by rw [hhead]; rfl)
      simp only [rank, hlist, List.head?_nil, Option.elim_none, Prod.Lex.toLex_le_toLex] at htop
      simp at htop
  | cons x rest =>
      simp only [rank, hlist, List.head?_cons, Option.elim_some, Prod.Lex.toLex_le_toLex,
        WithTop.coe_lt_coe, WithTop.coe_inj] at hle
      refine ⟨c, x, rest, hlist, fun i y hy => ?_, fun i hi y hy => ?_⟩
      · exact (hle i y hy).elim le_of_lt fun heq => le_of_eq heq.1
      · exact (hle i y hy).elim id fun heq => absurd hi (not_lt.mpr heq.2)

/-- The first `m` elements of a merge need only the first `m` elements of each list. -/
theorem take_merge {short : Fin n → List α} {m : Nat}
    (hsorted : ∀ i, (lists i).Pairwise fun a b => key a ≤ key b)
    (hshort : ∀ i, short i <+: lists i)
    (hlong : ∀ i, m ≤ (short i).length ∨ short i = lists i) :
    (merge key short).take m = (merge key lists).take m := by
  induction m generalizing lists short with
  | zero => rfl
  | succ m ih =>
      obtain hnil | ⟨c, x, rest, hc, hleast, hfirst⟩ := nil_or_head key lists
      · have hnil' : ∀ i, short i = [] := fun i => List.prefix_nil.mp (hnil i ▸ hshort i)
        rw [merge_eq_nil hnil, merge_eq_nil hnil']
      · have hhead : ∀ i y, (short i).head? = some y → (lists i).head? = some y :=
          fun i y hy => List.singleton_prefix_iff_head?_eq_some.mp
            ((List.singleton_prefix_iff_head?_eq_some.mpr hy).trans (hshort i))
        -- the shortened list keeps the head
        obtain ⟨rest', hc', hprefix, hrest⟩ : ∃ rest', short c = x :: rest' ∧ rest' <+: rest ∧
            (m ≤ rest'.length ∨ rest' = rest) := by
          have hpre := hshort c
          have hlen := hlong c
          rw [hc] at hpre hlen
          cases hs : short c with
          | nil => simp [hs] at hlen
          | cons y rest' =>
              rw [hs] at hpre hlen
              obtain ⟨rfl, htail⟩ := List.cons_prefix_cons.mp hpre
              refine ⟨rest', rfl, htail, hlen.imp (fun h => ?_) fun h => (List.cons.inj h).2⟩
              simpa using h
        rw [merge_eq_cons hsorted hc hleast hfirst,
          merge_eq_cons (fun i => (hsorted i).sublist (hshort i).sublist) hc'
            (fun i y hy => hleast i y (hhead i y hy))
            (fun i hi y hy => hfirst i hi y (hhead i y hy)),
          List.take_succ_cons, List.take_succ_cons]
        refine congrArg (x :: ·) (ih ?_ ?_ ?_)
        · refine (Function.forall_update_iff lists fun _ l => l.Pairwise _).mpr
            ⟨?_, fun i _ => hsorted i⟩
          have hsort := hsorted c
          rw [hc] at hsort
          exact (List.pairwise_cons.mp hsort).2
        · intro i
          by_cases hi : i = c
          · subst hi
            simpa using hprefix
          · simpa [Function.update_of_ne hi] using hshort i
        · intro i
          by_cases hi : i = c
          · subst hi
            simpa using hrest
          · simp only [Function.update_of_ne hi]
            exact (hlong i).imp (fun h => Nat.le_of_succ_le h) id

end Lists

end P2KVS.Merging
