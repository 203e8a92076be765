import Mathlib.Data.List.AList

/-! Dictionaries whose records are set, removed and enumerated. -/
namespace AugmentedCampus.Foundation

universe u v w x

abbrev Dictionary (Key : Type u) (Value : Type v) := AList fun _ : Key => Value

namespace Dictionary

variable {Key : Type u} {Value : Type v}

def values (dictionary : Dictionary Key Value) : List Value := dictionary.entries.map Sigma.snd

/-- An order in which the records of a dictionary are enumerated. -/
structure Order (Key : Type u) (Value : Type v) where
  arrange : Dictionary Key Value → List Value
  perm : ∀ dictionary, (arrange dictionary).Perm dictionary.values

/-- The order in which the records lie. -/
def Order.asStored : Order Key Value := ⟨values, fun _ => .refl _⟩

open Classical in
/-- The records of a dictionary may be enumerated in any order. -/
theorem Order.exists_arrange (dictionary : Dictionary Key Value) {listing : List Value}
    (perm : listing.Perm dictionary.values) :
    ∃ order : Order Key Value, order.arrange dictionary = listing := by
  refine ⟨⟨fun other => if other = dictionary then listing else other.values, fun other => ?_⟩, ?_⟩
  · by_cases same : other = dictionary
    · rw [if_pos same, same]
      exact perm
    · rw [if_neg same]
  · exact if_pos rfl

variable [DecidableEq Key]

/-- Replace the record under `key`; `none` removes it. -/
def set (dictionary : Dictionary Key Value) (key : Key) : Option Value → Dictionary Key Value
  | some value => dictionary.insert key value
  | none => dictionary.erase key

theorem lookup_set (dictionary : Dictionary Key Value) (key other : Key) (value : Option Value) :
    (set dictionary key value).lookup other =
      if other = key then value else dictionary.lookup other := by
  by_cases same : other = key
  · subst other
    cases value <;> simp [set]
  · cases value <;> simp [set, same, AList.lookup_insert_ne, AList.lookup_erase_ne]

theorem mem_values {dictionary : Dictionary Key Value} {value : Value} :
    value ∈ dictionary.values ↔ ∃ key, dictionary.lookup key = some value := by
  simp only [values, List.mem_map]
  constructor
  · intro listed
    obtain ⟨⟨key, record⟩, member, rfl⟩ := listed
    exact ⟨key, AList.mem_lookup_iff.mpr member⟩
  · intro stored
    obtain ⟨key, found⟩ := stored
    exact ⟨⟨key, value⟩, AList.mem_lookup_iff.mp found, rfl⟩

theorem Order.mem_arrange (order : Order Key Value) {dictionary : Dictionary Key Value}
    {value : Value} :
    value ∈ order.arrange dictionary ↔ ∃ key, dictionary.lookup key = some value :=
  (order.perm dictionary).mem_iff.trans mem_values

theorem entries_eq_nil {dictionary : Dictionary Key Value} :
    dictionary.entries = [] ↔ ∀ key, dictionary.lookup key = none := by
  constructor
  · intro empty key
    simp [AList.lookup, empty]
  · intro absent
    apply List.eq_nil_iff_forall_not_mem.mpr
    intro entry member
    have found := AList.mem_lookup_iff.mpr member
    simp [absent] at found

section Collect

variable {Key : Type u} {Value : Type v} {Other : Type w} {Result : Type x} [DecidableEq Key]
  [DecidableEq Other]

/-- The entries that `move` makes of those of a dictionary. -/
def collect (move : Key → Value → Option (Other × Result)) (dictionary : Dictionary Key Value) :
    Dictionary Other Result :=
  dictionary.entries.foldr
    (fun entry moved =>
      match move entry.1 entry.2 with
      | some (key, value) => moved.insert key value
      | none => moved) ∅

/-- No two entries may be moved to one key. -/
theorem lookup_collect {move : Key → Value → Option (Other × Result)}
    (injective : ∀ first stored second kept key one two, move first stored = some (key, one) →
      move second kept = some (key, two) → first = second)
    (dictionary : Dictionary Key Value) {key : Other} {value : Result} :
    (collect move dictionary).lookup key = some value ↔
      ∃ old stored, dictionary.lookup old = some stored ∧ move old stored = some (key, value) := by
  have listed : (collect move dictionary).lookup key = some value ↔
      ∃ entry ∈ dictionary.entries, move entry.1 entry.2 = some (key, value) := by
    have distinct := dictionary.nodupKeys
    unfold collect
    generalize dictionary.entries = entries at distinct
    induction entries with
    | nil => simp
    | cons entry rest ih =>
      obtain ⟨fresh, later⟩ := List.nodupKeys_cons.mp distinct
      simp only [List.foldr_cons, List.exists_mem_cons_iff]
      cases moved : move entry.1 entry.2 with
      | none => simpa [moved] using ih later
      | some place =>
        obtain ⟨target, result⟩ := place
        by_cases here : key = target
        · subst key
          simp only [AList.lookup_insert, Option.some.injEq, Prod.mk.injEq, true_and]
          constructor
          · exact .inl
          · rintro (same | ⟨other, member, lands⟩)
            · exact same
            · rw [injective _ _ _ _ _ _ _ moved lands] at fresh
              exact absurd (List.mem_keys_of_mem member) fresh
        · simpa [AList.lookup_insert_ne here, Ne.symm here] using ih later
  rw [listed]
  constructor
  · rintro ⟨entry, member, moved⟩
    exact ⟨entry.1, entry.2, AList.mem_lookup_iff.mpr member, moved⟩
  · rintro ⟨old, stored, found, moved⟩
    exact ⟨⟨old, stored⟩, AList.mem_lookup_iff.mp found, moved⟩

/-- The same values under other keys; what `move` gives no key is left out. -/
def rekey (move : Key → Option Other) (dictionary : Dictionary Key Value) :
    Dictionary Other Value :=
  dictionary.collect fun key value => (move key).map (·, value)

theorem lookup_rekey {move : Key → Option Other}
    (injective : ∀ first second key, move first = some key → move second = some key →
      first = second)
    (dictionary : Dictionary Key Value) {key : Other} {value : Value} :
    (rekey move dictionary).lookup key = some value ↔
      ∃ old, move old = some key ∧ dictionary.lookup old = some value := by
  have moved {old : Key} {key : Other} {stored value : Value} :
      (move old).map (·, stored) = some (key, value) ↔ move old = some key ∧ stored = value := by
    cases move old <;> simp
  rw [rekey, lookup_collect fun first _ second _ key _ _ one two =>
    injective first second key (moved.mp one).1 (moved.mp two).1]
  simp only [moved]
  constructor
  · rintro ⟨old, stored, found, lands, rfl⟩
    exact ⟨old, lands, found⟩
  · rintro ⟨old, lands, found⟩
    exact ⟨old, value, found, lands, rfl⟩

/-- What is left when some keys go. -/
def without (gone : Key → Prop) [DecidablePred gone] (dictionary : Dictionary Key Value) :
    Dictionary Key Value :=
  dictionary.rekey fun key => if gone key then none else some key

omit [DecidableEq Other] in
theorem lookup_without (gone : Key → Prop) [DecidablePred gone] (dictionary : Dictionary Key Value)
    (key : Key) :
    (without gone dictionary).lookup key = if gone key then none else dictionary.lookup key := by
  have kept {old key : Key} (moved : (if gone old then none else some old) = some key) :
      ¬ gone old ∧ old = key := by
    by_cases left : gone old
    · simp [left] at moved
    · exact ⟨left, by simpa [left] using moved⟩
  refine Option.ext fun value => ?_
  rw [without, lookup_rekey fun first second key one two => (kept one).2.trans (kept two).2.symm]
  by_cases left : gone key
  · simp only [left, if_true, reduceCtorEq, iff_false]
    rintro ⟨old, moved, _⟩
    obtain ⟨stays, rfl⟩ := kept moved
    exact stays left
  · simp only [left, if_false]
    constructor
    · rintro ⟨old, moved, found⟩
      rwa [← (kept moved).2]
    · exact fun found => ⟨key, by simp [left], found⟩

/-- The values that `convert` does not fail on, under their keys. -/
def convertValues (convert : Value → Option Result) (dictionary : Dictionary Key Value) :
    Dictionary Key Result :=
  dictionary.collect fun key value => (convert value).map (key, ·)

theorem lookup_convertValues (convert : Value → Option Result) (dictionary : Dictionary Key Value)
    (key : Key) :
    (convertValues convert dictionary).lookup key = (dictionary.lookup key).bind convert := by
  have moved {old key : Key} {stored : Value} {result : Result} :
      (convert stored).map (old, ·) = some (key, result) ↔ old = key ∧ convert stored = some result := by
    cases convert stored <;> simp [eq_comm]
  refine Option.ext fun result => ?_
  rw [convertValues, lookup_collect fun first _ second _ key _ _ one two =>
    (moved.mp one).1.trans (moved.mp two).1.symm]
  simp only [moved, Option.bind_eq_some_iff]
  constructor
  · rintro ⟨old, stored, found, rfl, result⟩
    exact ⟨stored, found, result⟩
  · rintro ⟨stored, found, result⟩
    exact ⟨key, stored, found, rfl, result⟩

theorem values_convertValues (convert : Value → Option Result) (dictionary : Dictionary Key Value) :
    (convertValues convert dictionary).values = dictionary.values.filterMap convert := by
  obtain ⟨entries, distinct⟩ := dictionary
  induction entries with
  | nil => rfl
  | cons entry rest ih =>
    obtain ⟨fresh, later⟩ := List.nodupKeys_cons.mp distinct
    have unfolded : convertValues convert ⟨entry :: rest, distinct⟩ =
        match convert entry.2 with
        | some value => (convertValues convert ⟨rest, later⟩).insert entry.1 value
        | none => convertValues convert ⟨rest, later⟩ := by
      cases converted : convert entry.2 <;> simp [convertValues, collect, converted]
    have absent : entry.1 ∉ convertValues convert ⟨rest, later⟩ := by
      rw [← AList.lookup_eq_none, lookup_convertValues, Option.bind_eq_none_iff]
      intro value found
      have listed : entry.1 ∈ (⟨rest, later⟩ : Dictionary Key Value) :=
        AList.lookup_isSome.mp (Option.isSome_iff_exists.mpr ⟨value, found⟩)
      exact absurd listed fresh
    have known := ih later
    unfold values at known ⊢
    rw [unfolded, List.map_cons, List.filterMap_cons, ← known]
    cases convert entry.2 with
    | none => rfl
    | some value =>
      simp only [AList.insert_of_notMem absent]
      rfl

end Collect

/-- Dictionaries that store the same have the same values. -/
theorem values_perm {first second : Dictionary Key Value}
    (same : ∀ key, first.lookup key = second.lookup key) : first.values.Perm second.values := by
  refine (List.lookup_ext first.nodupKeys second.nodupKeys fun key value => ?_).map Sigma.snd
  have equal := same key
  simp only [AList.lookup] at equal
  rw [equal]

end Dictionary

end AugmentedCampus.Foundation
