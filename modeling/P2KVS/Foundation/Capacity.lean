import Mathlib.Data.List.Induction
import P2KVS.Foundation.Channel

/-!
# Rows that are long enough

The producer does not look at the length of a row before it stores. `Contained` says that no run
stores outside the row of its enqueue, so that no enqueue changes a slot of another row.
`contained_iff_fits` says that this is decided by the program alone: it holds exactly when the
content of every row fits it.
-/

namespace P2KVS.Channel.Pipeline

open Transition

variable {α W C : Type*} (p : Pipeline α W C)

/-- In every run, every enqueue stores to a slot inside its own row and changes no slot of another
row. -/
def Contained : Prop :=
  ∀ s, p.system.Reachable (fun _ _ => True) s → ∀ e rest, s.todo = e :: rest →
    s.tail e.queue < p.row ∧
      ∀ q ≠ e.queue, ∀ i < p.row, p.rowView (p.fillSlot s e) q i = p.rowView s q i

variable {p}

/-- The producer can run up to any point of its program. -/
theorem exists_dispatched {before after : List (Enqueue α)}
    (hprogram : p.program = before ++ after) :
    ∃ s, p.system.Reachable (fun _ _ => True) s ∧ s.todo = after ∧ s.filled = false ∧
      ∀ q, s.tail q = (before.filter fun e => e.queue = q).length := by
  induction before using List.reverseRecOn generalizing after with
  | nil => exact ⟨p.initial, .init, hprogram, rfl, fun _ => rfl⟩
  | append_singleton before e ih =>
      obtain ⟨s, hs, htodo, hfilled, htail⟩ := ih (hprogram.trans (List.append_assoc ..))
      have hfill : p.system.step s .dispatch = some (p.fillSlot s e) := by
        show p.dispatch s = some (p.fillSlot s e)
        simp [dispatch, htodo, hfilled]
      have hpublish : p.system.step (p.fillSlot s e) .dispatch =
          some (publish (p.fillSlot s e) e after) := by
        show p.dispatch (p.fillSlot s e) = some (publish (p.fillSlot s e) e after)
        simp [dispatch, fillSlot, htodo]
      refine ⟨_, .step (.step hs trivial hfill) trivial hpublish, rfl, rfl, fun q => ?_⟩
      show Function.update s.tail e.queue (s.tail e.queue + 1) q = _
      by_cases hq : q = e.queue
      · subst hq
        simp [htail]
      · simp [Function.update_of_ne hq, htail, Ne.symm hq]

/-- The stores of the producer stay inside the rows exactly when the content of every row fits. -/
theorem contained_iff_fits : p.Contained ↔ p.Fits := by
  constructor
  · intro hcontained
    -- along the program, the number of enqueues into a row never exceeds its length
    have hbound : ∀ before after, p.program = before ++ after →
        ∀ q, (before.filter fun e => e.queue = q).length ≤ p.row := by
      intro before
      induction before using List.reverseRecOn with
      | nil => exact fun _ _ _ => Nat.zero_le _
      | append_singleton before e ih =>
          intro after hprogram q
          rw [List.append_assoc] at hprogram
          have hold := ih _ hprogram q
          obtain ⟨s, hs, htodo, _, htail⟩ := exists_dispatched hprogram
          have hlt := (hcontained s hs e after htodo).1
          rw [htail] at hlt
          rw [List.filter_append, List.length_append]
          by_cases hq : e.queue = q
          · subst hq
            have hone : ([e].filter fun x => x.queue = e.queue).length = 1 := by simp
            omega
          · simpa [hq] using hold
    intro q _
    rw [content, List.length_map]
    exact hbound p.program [] (List.append_nil _).symm q
  · intro hfit s hs e rest htodo
    have hdel := (delivered_reachable hfit hs).1
    refine ⟨(hdel.next_in_row hfit htodo).2, fun q hq i hi => ?_⟩
    exact hdel.rowView_fillSlot hfit htodo hi fun heq => hq (congrArg Prod.fst heq)

end P2KVS.Channel.Pipeline
