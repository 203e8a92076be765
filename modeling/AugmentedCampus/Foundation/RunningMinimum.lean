import Mathlib.Order.Basic

/-! Loops that keep the best item so far. `improves` is the test under which an
eligible item replaces it; the two usual ones are `<` and `≤`. -/
namespace AugmentedCampus.Foundation

universe u v w

variable {State : Type u} {Item : Type v} {M : Type w} [Preorder M]

/-- What one item does: it is passed over, being no better, or becomes the best. -/
structure KeepsBest (improves : M → M → Prop) (eligible : Item → Prop) (cost : Item → M)
    (distance : State → M) (closest : State → Item) (body : State → Item → State) : Prop where
  weaken : ∀ first second, improves first second → first ≤ second
  trans : ∀ first second third, improves first second → improves second third →
    improves first third
  step : ∀ best item,
    (body best item = best ∧ (eligible item → distance best ≤ cost item)) ∨
      eligible item ∧ improves (cost item) (distance best) ∧
        distance (body best item) = cost item ∧ closest (body best item) = item

variable {improves : M → M → Prop} {eligible : Item → Prop} {cost : Item → M}
  {distance : State → M} {closest : State → Item} {body : State → Item → State}

/-- The loop ends where it began, no item being better, or at a cheapest eligible item. -/
theorem KeepsBest.run (keeps : KeepsBest improves eligible cost distance closest body)
    (items : List Item) (best : State) :
    (items.foldl body best = best ∧ ∀ item ∈ items, eligible item → distance best ≤ cost item) ∨
      ∃ item ∈ items, eligible item ∧ improves (cost item) (distance best) ∧
        closest (items.foldl body best) = item ∧
        ∀ other ∈ items, eligible other → cost item ≤ cost other := by
  induction items generalizing best with
  | nil => exact .inl ⟨rfl, by simp⟩
  | cons first rest ih =>
    rw [List.foldl_cons]
    rcases keeps.step best first with ⟨same, passed⟩ | ⟨suits, better, paid, taken⟩
    · rw [same]
      rcases ih best with ⟨kept, others⟩ | ⟨item, member, suitable, improved, chosen, least⟩
      · refine .inl ⟨kept, fun item member => ?_⟩
        rcases List.mem_cons.mp member with rfl | later
        · exact passed
        · exact others item later
      · refine .inr ⟨item, List.mem_cons_of_mem _ member, suitable, improved, chosen, ?_⟩
        intro other present matching
        rcases List.mem_cons.mp present with rfl | later
        · exact (keeps.weaken _ _ improved).trans (passed matching)
        · exact least other later matching
    · rcases ih (body best first) with
        ⟨kept, others⟩ | ⟨item, member, suitable, improved, chosen, least⟩
      · rw [paid] at others
        refine .inr ⟨first, List.mem_cons_self, suits, better, by rw [kept, taken], ?_⟩
        intro other present matching
        rcases List.mem_cons.mp present with rfl | later
        · exact le_refl _
        · exact others other later matching
      · rw [paid] at improved
        refine .inr ⟨item, List.mem_cons_of_mem _ member, suitable,
          keeps.trans _ _ _ improved better, chosen, ?_⟩
        intro other present matching
        rcases List.mem_cons.mp present with rfl | later
        · exact keeps.weaken _ _ improved
        · exact least other later matching

end AugmentedCampus.Foundation
