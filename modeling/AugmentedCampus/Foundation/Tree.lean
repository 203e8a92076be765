import AugmentedCampus.Foundation.Dictionary
import Mathlib.Data.List.Dedup

/-! Trees that are kept as the leaves at their paths. Without a leaf there is no tree: what
is set to nothing is gone, and so is a branch without leaves. -/
namespace AugmentedCampus.Foundation

universe u v

namespace Leaves

variable {Label : Type u} {Leaf : Type v} [DecidableEq Label]
  {leaves value : Dictionary (List Label) Leaf} {path other : List Label}

/-- The leaves below a path, by the rest of their paths. -/
def below (leaves : Dictionary (List Label) Leaf) (path : List Label) :
    Dictionary (List Label) Leaf :=
  leaves.rekey fun leafPath => leafPath.dropPrefix? path

theorem dropPrefix?_eq_some {rest : List Label} :
    other.dropPrefix? path = some rest ↔ other = path ++ rest := by
  simp [List.dropPrefix?_eq_some_iff]

theorem lookup_below (leaves : Dictionary (List Label) Leaf) (path rest : List Label) :
    (below leaves path).lookup rest = leaves.lookup (path ++ rest) := by
  refine Option.ext fun leaf => ?_
  rw [below, Dictionary.lookup_rekey fun first second rest one two =>
    (dropPrefix?_eq_some.mp one).trans (dropPrefix?_eq_some.mp two).symm]
  simp only [dropPrefix?_eq_some]
  exact exists_eq_left

/-- The leaves of `value` in the place of those below the path. A leaf above it gives way,
unless there are none. -/
def graft (leaves : Dictionary (List Label) Leaf) (path : List Label)
    (value : Dictionary (List Label) Leaf) : Dictionary (List Label) Leaf :=
  value.rekey (fun rest => some (path ++ rest)) ∪
    leaves.without fun other => path <+: other ∨ other <+: path ∧ value.entries ≠ []

theorem lookup_moved (value : Dictionary (List Label) Leaf) (path : List Label) {leaf : Leaf} :
    (value.rekey fun rest => some (path ++ rest)).lookup other = some leaf ↔
      ∃ rest, path ++ rest = other ∧ value.lookup rest = some leaf := by
  rw [Dictionary.lookup_rekey fun first second key one two =>
    List.append_cancel_left (Option.some.inj (one.trans two.symm))]
  simp only [Option.some.injEq]

theorem lookup_graft_below (leaves : Dictionary (List Label) Leaf) (path : List Label)
    (value : Dictionary (List Label) Leaf) (rest : List Label) :
    (graft leaves path value).lookup (path ++ rest) = value.lookup rest := by
  refine Option.ext fun leaf => ?_
  have replaced : (leaves.without fun other =>
      path <+: other ∨ other <+: path ∧ value.entries ≠ []).lookup (path ++ rest) = none := by
    rw [Dictionary.lookup_without, if_pos (.inl (List.prefix_append path rest))]
  rw [graft, AList.lookup_union_eq_some, replaced, lookup_moved]
  simp

theorem lookup_graft (leaves : Dictionary (List Label) Leaf)
    (value : Dictionary (List Label) Leaf) (outside : ¬ path <+: other) :
    (graft leaves path value).lookup other =
      if other <+: path ∧ value.entries ≠ [] then none else leaves.lookup other := by
  have absent : other ∉ value.rekey fun rest => some (path ++ rest) := by
    rw [← AList.lookup_eq_none, Option.eq_none_iff_forall_ne_some]
    intro leaf moved
    obtain ⟨rest, same, _⟩ := (lookup_moved value path).mp moved
    exact outside ⟨rest, same⟩
  rw [graft, AList.lookup_union_right absent, Dictionary.lookup_without]
  simp only [outside, false_or]

end Leaves

/-- No leaf is above another. -/
structure Tree (Label : Type u) (Leaf : Type v) [DecidableEq Label] where
  leaves : Dictionary (List Label) Leaf
  apart : ∀ path rest leaf, leaves.lookup path = some leaf → rest ≠ [] →
    leaves.lookup (path ++ rest) = none

namespace Tree

variable {Label : Type u} {Leaf : Type v} [DecidableEq Label] {tree : Tree Label Leaf}
  {path other : List Label}

def empty : Tree Label Leaf := ⟨∅, by simp⟩

/-- The leaf at a path. -/
def get (tree : Tree Label Leaf) (path : List Label) : Option Leaf := tree.leaves.lookup path

/-- What stands at a path, as a tree of its own. -/
def snapshot (tree : Tree Label Leaf) (path : List Label) : Tree Label Leaf where
  leaves := Leaves.below tree.leaves path
  apart place rest leaf found longer := by
    rw [Leaves.lookup_below] at found ⊢
    rw [← List.append_assoc]
    exact tree.apart _ rest leaf found longer

@[simp] theorem get_snapshot (tree : Tree Label Leaf) (path rest : List Label) :
    (tree.snapshot path).get rest = tree.get (path ++ rest) :=
  Leaves.lookup_below ..

/-- Put a tree in the place of what stands at a path. -/
def set (tree : Tree Label Leaf) (path : List Label) (value : Tree Label Leaf) : Tree Label Leaf where
  leaves := Leaves.graft tree.leaves path value.leaves
  apart place rest leaf found longer := by
    by_cases inside : path <+: place
    · obtain ⟨between, rfl⟩ := inside
      rw [Leaves.lookup_graft_below] at found
      rw [List.append_assoc, Leaves.lookup_graft_below]
      exact value.apart between rest leaf found longer
    · rw [Leaves.lookup_graft _ _ inside] at found
      split at found
      · cases found
      rename_i stays
      by_cases reaches : path <+: place ++ rest
      · -- The leaf is above the path: it has stayed because nothing was put there.
        have above : place <+: path :=
          (List.prefix_or_prefix_of_prefix (List.prefix_append place rest) reaches).resolve_right
            inside
        have nothing : value.leaves.entries = [] := by
          by_contra something
          exact stays ⟨above, something⟩
        obtain ⟨between, same⟩ := reaches
        rw [← same, Leaves.lookup_graft_below]
        exact Dictionary.entries_eq_nil.mp nothing between
      · rw [Leaves.lookup_graft _ _ reaches, tree.apart place rest leaf found longer, ite_self]

theorem get_set_below (tree : Tree Label Leaf) (path : List Label) (value : Tree Label Leaf)
    (rest : List Label) : (tree.set path value).get (path ++ rest) = value.get rest :=
  Leaves.lookup_graft_below ..

/-- Neither above nor below the path anything changes. -/
theorem get_set_apart (tree value : Tree Label Leaf) (outside : ¬ path <+: other)
    (inside : ¬ other <+: path) : (tree.set path value).get other = tree.get other := by
  unfold get set
  rw [Leaves.lookup_graft _ _ outside, if_neg fun above => inside above.1]

section Children

/-- The labels right below the root. -/
def labels (tree : Tree Label Leaf) : List Label :=
  (tree.leaves.keys.filterMap List.head?).dedup

theorem mem_labels {label : Label} :
    label ∈ tree.labels ↔ ∃ rest leaf, tree.get (label :: rest) = some leaf := by
  simp only [labels, List.mem_dedup, List.mem_filterMap, List.head?_eq_some_iff]
  constructor
  · rintro ⟨place, listed, rest, rfl⟩
    obtain ⟨leaf, found⟩ := Option.isSome_iff_exists.mp (AList.lookup_isSome.mpr listed)
    exact ⟨rest, leaf, found⟩
  · rintro ⟨rest, leaf, found⟩
    exact ⟨_, AList.lookup_isSome.mp (Option.isSome_iff_exists.mpr ⟨leaf, found⟩), rest, rfl⟩

/-- The children of what is neither nothing nor a leaf. -/
def object (tree : Tree Label Leaf) : Option (Dictionary Label (Tree Label Leaf)) :=
  if tree.labels = [] then none
  else some <| tree.labels.foldr (fun label children => children.insert label (tree.snapshot [label])) ∅

theorem object_eq_none : tree.object = none ↔ ∀ label rest, tree.get (label :: rest) = none := by
  simp [object, List.eq_nil_iff_forall_not_mem, mem_labels, Option.eq_none_iff_forall_ne_some]

theorem lookup_object {children : Dictionary Label (Tree Label Leaf)}
    (object : tree.object = some children) (label : Label) :
    children.lookup label =
      if label ∈ tree.labels then some (tree.snapshot [label]) else none := by
  unfold Tree.object at object
  split at object
  · cases object
  cases object
  generalize tree.labels = labels
  induction labels with
  | nil => simp
  | cons head rest ih =>
    rw [List.foldr_cons]
    by_cases same : label = head
    · subst label
      simp [AList.lookup_insert]
    · rw [AList.lookup_insert_ne same, ih]
      simp [same]

end Children

end Tree

end AugmentedCampus.Foundation
