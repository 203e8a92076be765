import Mathlib.Data.List.Basic

/-! Scripts that may throw. What a script did before it threw stays done, so a
triple has one postcondition for the end and one for the throw. -/
namespace AugmentedCampus.Foundation

universe u v w

/-- A script leaves a state, and the error if it threw. -/
abbrev Script (State : Type u) (Error : Type v) := State → State × Option Error

namespace Script

variable {State : Type u} {Error : Type v} {Item : Type w}

def modify (change : State → State) : Script State Error := fun state => (change state, none)

def throw (error : Error) : Script State Error := fun state => (state, some error)

def andThen (first second : Script State Error) : Script State Error := fun state =>
  match first state with
  | (reached, none) => second reached
  | (reached, some error) => (reached, some error)

/-- A script that looks at the state first. -/
def reading (script : State → Script State Error) : Script State Error := fun state =>
  script state state

/-- The loop over `items`; a throw leaves it. -/
def forEach (body : Item → Script State Error) : List Item → Script State Error
  | [] => modify id
  | item :: rest => (body item).andThen (forEach body rest)

/-- From `before` the script ends in `after` or throws in `broken`. -/
def Triple (before : State → Prop) (script : Script State Error) (after : State → Prop)
    (broken : Error → State → Prop) : Prop :=
  ∀ state, before state →
    match script state with
    | (reached, none) => after reached
    | (reached, some error) => broken error reached

variable {first second script : Script State Error} {before middle after : State → Prop}
  {broken : Error → State → Prop} {change : State → State} {error : Error} {state : State}

namespace Triple

theorem modify (holds : ∀ state, before state → after (change state)) :
    Triple before (.modify change) after broken :=
  holds

theorem throw (holds : ∀ state, before state → broken error state) :
    Triple before (.throw error) after broken :=
  holds

theorem andThen (left : Triple before first middle broken)
    (right : Triple middle second after broken) : Triple before (first.andThen second) after broken := by
  intro state holds
  have reached := left state holds
  unfold Script.andThen
  rcases ran : first state with ⟨next, none | error⟩ <;> rw [ran] at reached
  · exact right next reached
  · exact reached

theorem imp {weaker : State → Prop} {later : Error → State → Prop}
    (triple : Triple before script after broken) (ends : ∀ state, after state → weaker state)
    (throws : ∀ error state, broken error state → later error state) :
    Triple before script weaker later := by
  intro state holds
  have reached := triple state holds
  rcases ran : script state with ⟨next, none | error⟩ <;> rw [ran] at reached
  · exact ends next reached
  · exact throws error next reached

/-- The loop rule: `invariant` speaks about the items that have been gone through. -/
theorem forEach {body : Item → Script State Error} (invariant : List Item → State → Prop)
    (items done : List Item)
    (step : ∀ earlier item later, done ++ items = earlier ++ item :: later →
      Triple (invariant earlier) (body item) (invariant (earlier ++ [item])) broken) :
    Triple (invariant done) (.forEach body items) (invariant (done ++ items)) broken := by
  induction items generalizing done with
  | nil =>
    rw [List.append_nil]
    exact .modify fun _ holds => holds
  | cons item rest ih =>
    refine (step done item rest rfl).andThen ?_
    have regrouped : done ++ item :: rest = done ++ [item] ++ rest := by simp
    rw [regrouped]
    exact ih (done ++ [item]) fun earlier next later split =>
      step earlier next later (regrouped.trans split)

/-- What holds after the end and after a throw holds of the state that is left. -/
theorem left (triple : Triple before script after broken) (holds : before state)
    (throws : ∀ error state, broken error state → after state) : after (script state).1 := by
  have reached := triple state holds
  rcases ran : script state with ⟨next, none | error⟩ <;> rw [ran] at reached
  · exact reached
  · exact throws error next reached

/-- A script that cannot throw. -/
theorem ends (triple : Triple before script after fun _ _ => False) (holds : before state) :
    ∃ reached, script state = (reached, none) ∧ after reached := by
  have result := triple state holds
  rcases finished : script state with ⟨reached, none | error⟩
  · rw [finished] at result
    exact ⟨reached, rfl, result⟩
  · rw [finished] at result
    exact result.elim

end Triple

/-- Ended or thrown out of, the script leaves the invariant. -/
abbrev Keeps (invariant : State → Prop) (script : Script State Error) : Prop :=
  Triple invariant script invariant fun _ => invariant

namespace Keeps

variable {invariant : State → Prop}

theorem modify (holds : ∀ state, invariant state → invariant (change state)) :
    Keeps invariant (.modify change : Script State Error) :=
  holds

theorem throw : Keeps invariant (.throw error : Script State Error) :=
  fun _ holds => holds

theorem andThen (left : Keeps invariant first) (right : Keeps invariant second) :
    Keeps invariant (first.andThen second) :=
  Triple.andThen left right

theorem forEach {body : Item → Script State Error} {items : List Item}
    (step : ∀ item ∈ items, Keeps invariant (body item)) : Keeps invariant (.forEach body items) :=
  Triple.forEach (fun _ => invariant) items [] fun earlier item later split =>
    step item (by rw [← List.nil_append items, split]; simp)

theorem reading {script : State → Script State Error}
    (holds : ∀ state, invariant state → Keeps invariant (script state)) :
    Keeps invariant (.reading script) :=
  fun state ready => holds state ready state ready

theorem left (keeps : Keeps invariant script) (holds : invariant state) :
    invariant (script state).1 :=
  Triple.left keeps holds fun _ _ => id

end Keeps

end Script

end AugmentedCampus.Foundation
