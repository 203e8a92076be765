import AugmentedCampus.Foundation.Fallible
import Mathlib.Data.List.Induction

/-! Loops that may fail, seen from the items they have handled. A register keeps the
value that the last item to write it left there. -/
namespace AugmentedCampus.Foundation

universe u v w

variable {Reason : Type u} {State Item : Type v} {Value : Type w}

/-- Where a list is cut before its last item, or at it. -/
theorem concat_eq_append_cons {items earlier later : List Item} {last item : Item}
    (cut : items ++ [last] = earlier ++ item :: later) :
    later = [] ∧ items = earlier ∧ last = item ∨
      ∃ rest, later = rest ++ [last] ∧ items = earlier ++ item :: rest := by
  rcases List.eq_nil_or_concat later with rfl | ⟨rest, other, rfl⟩
  · left
    obtain ⟨same, single⟩ := List.append_inj' cut rfl
    cases single
    exact ⟨rfl, same, rfl⟩
  · right
    rw [List.concat_eq_append, ← List.cons_append, ← List.append_assoc] at cut
    obtain ⟨same, single⟩ := List.append_inj' cut rfl
    cases single
    exact ⟨rest, List.concat_eq_append, same⟩

section Loops

variable {body : State → Item → Except Reason State} {start : State}

theorem foldlM_concat_eq_ok {items : List Item} {item : Item} {last : State} :
    (items ++ [item]).foldlM body start = .ok last ↔
      ∃ before, items.foldlM body start = .ok before ∧ body before item = .ok last := by
  rw [foldlM_append_eq_ok]
  constructor
  · rintro ⟨before, handled, final⟩
    obtain ⟨next, reached, stop⟩ := foldlM_cons_eq_ok.mp final
    cases stop
    exact ⟨before, handled, reached⟩
  · rintro ⟨before, handled, reached⟩
    exact ⟨before, handled, foldlM_cons_eq_ok.mpr ⟨last, reached, rfl⟩⟩

/-- What one more item keeps of the items handled and the state reached holds of every run. -/
theorem foldlM_past {past : List Item → State → Prop} (first : past [] start)
    (step : ∀ items before item after, items.foldlM body start = .ok before →
      past items before → body before item = .ok after → past (items ++ [item]) after)
    {items : List Item} {last : State} (finished : items.foldlM body start = .ok last) :
    past items last := by
  induction items using List.reverseRecOn generalizing last with
  | nil =>
    cases finished
    exact first
  | append_singleton items item ih =>
    obtain ⟨before, handled, reached⟩ := foldlM_concat_eq_ok.mp finished
    exact step items before item last handled (ih handled) reached

end Loops

/-- No item wrote a value in the state that it left. -/
def Unwritten (loop : List Item → Except Reason State) (write : Item → State → Option Value)
    (items : List Item) : Prop :=
  ∀ earlier item later after, items = earlier ++ item :: later →
    loop (earlier ++ [item]) = .ok after → write item after = none

/-- The last item to write a value wrote this one. -/
def LastWrite (loop : List Item → Except Reason State) (write : Item → State → Option Value)
    (items : List Item) (value : Value) : Prop :=
  ∃ earlier item later after, items = earlier ++ item :: later ∧
    loop (earlier ++ [item]) = .ok after ∧ write item after = some value ∧
    Unwritten (fun middle => loop (earlier ++ item :: middle)) write later

section Registers

variable {loop : List Item → Except Reason State} {write : Item → State → Option Value}
  {items : List Item} {item : Item} {after : State} {value : Value}

theorem Unwritten.nil : Unwritten loop write [] := by
  intro earlier item later after cut
  simp at cut

theorem Unwritten.concat (unwritten : Unwritten loop write items)
    (reached : loop (items ++ [item]) = .ok after) (silent : write item after = none) :
    Unwritten loop write (items ++ [item]) := by
  intro earlier other later state cut left
  rcases concat_eq_append_cons cut with ⟨rfl, rfl, rfl⟩ | ⟨rest, rfl, rfl⟩
  · rw [reached] at left
    cases left
    exact silent
  · exact unwritten earlier other rest state rfl left

theorem LastWrite.here (reached : loop (items ++ [item]) = .ok after)
    (written : write item after = some value) : LastWrite loop write (items ++ [item]) value :=
  ⟨items, item, [], after, rfl, reached, written, .nil⟩

theorem LastWrite.concat (last : LastWrite loop write items value)
    (reached : loop (items ++ [item]) = .ok after) (silent : write item after = none) :
    LastWrite loop write (items ++ [item]) value := by
  obtain ⟨earlier, writer, later, state, rfl, left, written, unwritten⟩ := last
  refine ⟨earlier, writer, later ++ [item], state, by simp, left, written, ?_⟩
  refine unwritten.concat ?_ silent
  rwa [List.append_assoc, List.cons_append] at reached

/-- A register that each item either writes or leaves alone holds what was written
last, or what it held at the start. -/
theorem foldlM_register {body : State → Item → Except Reason State} {start last : State}
    {read : State → Value}
    (keeps : ∀ (items : List Item) before item after, items.foldlM body start = .ok before →
      body before item = .ok after → read after = (write item after).getD (read before))
    (finished : items.foldlM body start = .ok last) :
    Unwritten (List.foldlM body start) write items ∧ read last = read start ∨
      LastWrite (List.foldlM body start) write items (read last) := by
  refine @foldlM_past _ _ _ body start (fun items last =>
    Unwritten (List.foldlM body start) write items ∧ read last = read start ∨
      LastWrite (List.foldlM body start) write items (read last)) (Or.inl ⟨.nil, rfl⟩) ?_ _ _ finished
  intro items before item after handled known reached
  have whole := foldlM_concat_eq_ok.mpr ⟨before, handled, reached⟩
  have kept := keeps items before item after handled reached
  cases written : write item after with
  | some value =>
    rw [written, Option.getD_some] at kept
    exact Or.inr (.here whole (kept ▸ written))
  | none =>
    rw [written, Option.getD_none] at kept
    rw [kept]
    rcases known with ⟨unwritten, same⟩ | last
    · exact Or.inl ⟨unwritten.concat whole written, same⟩
    · exact Or.inr (last.concat whole written)

end Registers

end AugmentedCampus.Foundation
