import Mathlib.Data.List.Basic

/-! Calls that fail for one of several reasons, with the rules to show that of
these reasons only some ever come about. -/
namespace AugmentedCampus.Foundation

universe u v

variable {Reason : Type u} {Value Result State Item : Type v}

/-- The value, or a failure for the given reason. -/
def orFail (reason : Reason) : Option Value → Except Reason Value
  | some value => .ok value
  | none => .error reason

@[simp] theorem orFail_some (reason : Reason) (value : Value) :
    orFail reason (some value) = .ok value := rfl

theorem bind_eq_ok {call : Except Reason Value} {next : Value → Except Reason Result}
    {result : Result} :
    (call >>= next) = .ok result ↔ ∃ value, call = .ok value ∧ next value = .ok result := by
  cases call with
  | ok value => simp [bind, Except.bind]
  | error reason => simp [bind, Except.bind]

theorem foldlM_cons_eq_ok {body : State → Item → Except Reason State} {item : Item}
    {rest : List Item} {state last : State} :
    (item :: rest).foldlM body state = .ok last ↔
      ∃ next, body state item = .ok next ∧ rest.foldlM body next = .ok last := by
  rw [List.foldlM_cons, bind_eq_ok]

theorem foldlM_append_eq_ok {body : State → Item → Except Reason State} {first second : List Item}
    {state last : State} :
    (first ++ second).foldlM body state = .ok last ↔
      ∃ middle, first.foldlM body state = .ok middle ∧ second.foldlM body middle = .ok last := by
  rw [List.foldlM_append, bind_eq_ok]

/-- A loop goes on from where it is. -/
theorem foldlM_resume {body : State → Item → Except Reason State} {first : List Item}
    {state middle : State} (reached : first.foldlM body state = .ok middle) (second : List Item) :
    (first ++ second).foldlM body state = second.foldlM body middle := by
  rw [List.foldlM_append, reached]
  rfl

/-- A loop settles when each call of its body does, for some bound on what it may spend. -/
theorem foldlM_settles {body : Nat → State → Item → Except Reason State} {invariant : State → Prop}
    (step : ∀ state item, invariant state → ∃ bound next, invariant next ∧
      ∀ fuel, bound ≤ fuel → body fuel state item = .ok next)
    (items : List Item) {state : State} (holds : invariant state) :
    ∃ bound last, ∀ fuel, bound ≤ fuel → items.foldlM (body fuel) state = .ok last := by
  induction items generalizing state with
  | nil => exact ⟨0, state, fun _ _ => rfl⟩
  | cons item rest ih =>
    obtain ⟨bound, next, kept, settled⟩ := step state item holds
    obtain ⟨limit, last, finished⟩ := ih kept
    refine ⟨max bound limit, last, fun fuel enough => ?_⟩
    have early := settled fuel (Nat.le_trans (Nat.le_max_left _ _) enough)
    have late := finished fuel (Nat.le_trans (Nat.le_max_right _ _) enough)
    exact foldlM_cons_eq_ok.mpr ⟨next, early, late⟩

/-- The call gives a value with the property or fails for an allowed reason. -/
def Ends (allowed : Reason → Prop) (property : Value → Prop) : Except Reason Value → Prop
  | .ok value => property value
  | .error reason => allowed reason

namespace Ends

variable {allowed : Reason → Prop} {property : Value → Prop} {call : Except Reason Value}

theorem ne_error (ends : Ends allowed property call) {reason : Reason} (excluded : ¬ allowed reason) :
    call ≠ .error reason := by
  rintro rfl
  exact excluded ends

/-- A call that has no reason to fail has a value. -/
theorem exists_ok (ends : Ends (fun _ : Reason => False) property call) :
    ∃ value, call = .ok value ∧ property value := by
  cases call with
  | ok value => exact ⟨value, rfl, ends⟩
  | error reason => exact ends.elim

theorem orFail {reason : Reason} {option : Option Value} (absent : option = none → allowed reason) :
    Ends allowed (fun value => option = some value) (orFail reason option) := by
  cases option with
  | none => exact absent rfl
  | some value => rfl

theorem imp {other : Value → Prop} (ends : Ends allowed property call)
    (implies : ∀ value, property value → other value) : Ends allowed other call := by
  cases call with
  | ok value => exact implies value ends
  | error reason => exact ends

theorem bind {next : Value → Except Reason Result} {other : Result → Prop}
    (first : Ends allowed property call)
    (second : ∀ value, property value → Ends allowed other (next value)) :
    Ends allowed other (call >>= next) := by
  cases call with
  | ok value => exact second value first
  | error reason => exact first

/-- An invariant of the body is one of the loop. -/
theorem foldlM {body : State → Item → Except Reason State} {invariant : State → Prop}
    (step : ∀ state item, invariant state → Ends allowed invariant (body state item))
    (items : List Item) {state : State} (holds : invariant state) :
    Ends allowed invariant (items.foldlM body state) := by
  induction items generalizing state with
  | nil => exact holds
  | cons item rest ih =>
    rw [List.foldlM_cons]
    exact (step state item holds).bind fun next kept => ih kept

end Ends

/-- Fuel above the bound gives the value; less of it gives the value or runs short,
and no other failure comes about. -/
structure Settles (short : Reason) (bound : Nat) (run : Nat → Except Reason Value)
    (value : Value) : Prop where
  ends : ∀ fuel, bound < fuel → run fuel = .ok value
  otherwise : ∀ fuel, run fuel = .ok value ∨ run fuel = .error short

namespace Settles

variable {short : Reason} {bound limit : Nat} {run : Nat → Except Reason Value} {value : Value}

/-- The loop stops at once. -/
theorem stop (spent : run 0 = .error short) (stops : ∀ fuel, run (fuel + 1) = .ok value) :
    Settles short bound run value := by
  constructor
  · intro fuel enough
    obtain ⟨left, rfl⟩ := Nat.exists_eq_succ_of_ne_zero (Nat.ne_zero_of_lt enough)
    exact stops left
  · intro fuel
    cases fuel with
    | zero => exact Or.inr spent
    | succ left => exact Or.inl (stops left)

/-- The loop goes on as another one, for which the bound is smaller. -/
theorem step {next : Nat → Except Reason Value} (spent : run 0 = .error short)
    (continues : ∀ fuel, run (fuel + 1) = next fuel) (settles : Settles short limit next value)
    (shorter : limit < bound) : Settles short bound run value := by
  constructor
  · intro fuel enough
    obtain ⟨left, rfl⟩ := Nat.exists_eq_succ_of_ne_zero (Nat.ne_zero_of_lt enough)
    rw [continues]
    exact settles.ends left (by omega)
  · intro fuel
    cases fuel with
    | zero => exact Or.inr spent
    | succ left =>
      rw [continues]
      exact settles.otherwise left

/-- What is done with the value, once there is one, adds no failure. -/
theorem bind {Outcome : Type*} {next : Value → Except Reason Outcome} {outcome : Outcome}
    (settles : Settles short bound run value) (gives : next value = .ok outcome) :
    Settles short bound (fun fuel => (run fuel).bind next) outcome := by
  constructor
  · intro fuel enough
    rw [settles.ends fuel enough]
    exact gives
  · intro fuel
    rcases settles.otherwise fuel with found | stops
    · rw [found]
      exact Or.inl gives
    · rw [stops]
      exact Or.inr rfl

end Settles

end AugmentedCampus.Foundation
