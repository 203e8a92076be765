import Mathlib.Data.List.Basic

/-! What a run keeps: logs of writes each of which meets a guard in the state it
is applied to, and loops whose body can fail. -/
namespace AugmentedCampus.Foundation

universe u v

variable {State : Type u} {Write : Type v}

def Admitted (apply : State → Write → State) (guard : State → Write → Prop) :
    State → List Write → Prop
  | _, [] => True
  | state, write :: rest => guard state write ∧ Admitted apply guard (apply state write) rest

instance Admitted.decidable (apply : State → Write → State) (guard : State → Write → Prop)
    [∀ state write, Decidable (guard state write)] :
    ∀ state writes, Decidable (Admitted apply guard state writes)
  | _, [] => .isTrue trivial
  | state, write :: rest =>
    have := Admitted.decidable apply guard (apply state write) rest
    inferInstanceAs (Decidable (guard state write ∧ Admitted apply guard (apply state write) rest))

/-- The writes of calls made one after the other, each in the state that the
writes before it have led to. -/
def callLog (apply : State → Write → State) : List (State → List Write) → State → List Write
  | [], _ => []
  | call :: rest, state => call state ++ callLog apply rest ((call state).foldl apply state)

namespace Admitted

variable {apply : State → Write → State} {guard : State → Write → Prop} {state : State}

@[simp] theorem nil : Admitted apply guard state [] := trivial

@[simp] theorem cons_iff {write : Write} {rest : List Write} :
    Admitted apply guard state (write :: rest) ↔
      guard state write ∧ Admitted apply guard (apply state write) rest :=
  Iff.rfl

theorem append_iff {first second : List Write} :
    Admitted apply guard state (first ++ second) ↔
      Admitted apply guard state first ∧ Admitted apply guard (first.foldl apply state) second := by
  induction first generalizing state with
  | nil => simp
  | cons write rest ih => simp [ih, and_assoc]

/-- A log that is cut off is still admitted. -/
theorem take {writes : List Write} (admitted : Admitted apply guard state writes) (cut : Nat) :
    Admitted apply guard state (writes.take cut) := by
  rw [← List.take_append_drop cut writes, append_iff] at admitted
  exact admitted.1

variable {Inv : State → Prop}

/-- What every admitted write preserves holds after each write of the log. -/
theorem scanl (preserved : ∀ state write, Inv state → guard state write → Inv (apply state write))
    {writes : List Write} (holds : Inv state) (admitted : Admitted apply guard state writes) :
    ∀ reached ∈ writes.scanl apply state, Inv reached := by
  induction writes generalizing state with
  | nil =>
    intro reached member
    rwa [List.mem_singleton.mp member]
  | cons write rest ih =>
    intro reached member
    rw [List.scanl_cons] at member
    rcases List.mem_cons.mp member with rfl | later
    · exact holds
    · exact ih (preserved state write holds admitted.1) admitted.2 reached later

theorem foldl (preserved : ∀ state write, Inv state → guard state write → Inv (apply state write))
    {writes : List Write} (holds : Inv state) (admitted : Admitted apply guard state writes) :
    Inv (writes.foldl apply state) := by
  induction writes generalizing state with
  | nil => exact holds
  | cons write rest ih => exact ih (preserved state write holds admitted.1) admitted.2

/-- Calls that are admitted wherever the invariant holds are admitted one after the other. -/
theorem callLog (preserved : ∀ state write, Inv state → guard state write → Inv (apply state write))
    {calls : List (State → List Write)}
    (respects : ∀ call ∈ calls, ∀ state, Inv state → Admitted apply guard state (call state))
    (holds : Inv state) : Admitted apply guard state (Foundation.callLog apply calls state) := by
  induction calls generalizing state with
  | nil => trivial
  | cons call rest ih =>
    have first := respects call List.mem_cons_self state holds
    exact append_iff.mpr ⟨first, ih (fun call member =>
      respects call (List.mem_cons_of_mem _ member)) (first.foldl preserved holds)⟩

end Admitted

/-- What the body keeps of the items done so far, the ones to come being known, holds of all. -/
theorem foldl_keeps {Item : Type v} {body : State → Item → State}
    {Inv : List Item → State → Prop} {all : List Item}
    (step : ∀ done item rest state, done ++ item :: rest = all → Inv done state →
      Inv (done ++ [item]) (body state item))
    {done items : List Item} {state : State} (split : done ++ items = all) (holds : Inv done state) :
    Inv all (items.foldl body state) := by
  induction items generalizing done state with
  | nil =>
    rw [List.append_nil] at split
    exact split ▸ holds
  | cons item rest ih => exact ih (by simpa using split) (step done item rest state split holds)

section Loops

variable {Item : Type v} {body : State → Item → Option State} {Inv : List Item → State → Prop}

/-- What the body keeps, item by item, holds of all the items when the loop does not fail. -/
theorem foldlM_keeps
    (step : ∀ done state item next, Inv done state → body state item = some next →
      Inv (done ++ [item]) next)
    {done items : List Item} {state last : State} (holds : Inv done state)
    (finished : items.foldlM body state = some last) : Inv (done ++ items) last := by
  induction items generalizing done state with
  | nil =>
    cases finished
    simpa using holds
  | cons item rest ih =>
    cases first : body state item with
    | none => simp [first] at finished
    | some next =>
      have remaining : rest.foldlM body next = some last := by simpa [first] using finished
      simpa using ih (step done state item next holds first) remaining

theorem foldlM_preserves (Kept : State → Prop)
    (step : ∀ state item next, Kept state → body state item = some next → Kept next)
    {items : List Item} {state last : State} (holds : Kept state)
    (finished : items.foldlM body state = some last) : Kept last :=
  @foldlM_keeps State Item body (fun _ => Kept) (fun _ => step) [] items state last holds finished

end Loops

end AugmentedCampus.Foundation
