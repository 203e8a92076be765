import Mathlib.Algebra.Order.Group.Defs
import Mathlib.Data.List.Chain
import Mathlib.Logic.Relation

/-! Walks in a directed graph as lists of vertices, their weight, and the two
facts best-first search rests on: a walk leaving a set crosses its border, and
a potential that never drops by more than an edge is bounded by the weight. -/
namespace AugmentedCampus.Foundation

universe u v w

variable {V : Type u} {M : Type v}

inductive IsWalk (edge : V → V → Prop) : V → V → List V → Prop where
  | stay {source : V} : IsWalk edge source source [source]
  | move {source next target : V} {nodes : List V} (step : edge source next)
      (rest : IsWalk edge next target nodes) : IsWalk edge source target (source :: nodes)

def walkCost [Add M] [Zero M] (weight : V → V → M) : List V → M
  | first :: second :: rest => weight first second + walkCost weight (second :: rest)
  | _ => 0

section Shape

variable {edge : V → V → Prop} {source middle next target : V} {nodes front back : List V}

theorem IsWalk.head (walk : IsWalk edge source target nodes) : nodes.head? = some source := by
  cases walk <;> rfl

theorem IsWalk.exists_cons (walk : IsWalk edge source target nodes) :
    ∃ rest, nodes = source :: rest := by
  cases walk with
  | stay => exact ⟨[], rfl⟩
  | move _ _ => exact ⟨_, rfl⟩

theorem IsWalk.last (walk : IsWalk edge source target nodes) : nodes.getLast? = some target := by
  induction walk with
  | stay => rfl
  | move step rest ih =>
    obtain ⟨tail, same⟩ := rest.exists_cons
    rw [same] at ih ⊢
    rw [List.getLast?_cons_cons]
    exact ih

theorem IsWalk.chain (walk : IsWalk edge source target nodes) : nodes.IsChain edge := by
  induction walk with
  | stay => exact List.isChain_singleton _
  | move step rest ih =>
    obtain ⟨tail, same⟩ := rest.exists_cons
    rw [same] at ih ⊢
    exact List.isChain_cons_cons.mpr ⟨step, ih⟩

theorem IsWalk.snoc (walk : IsWalk edge source target nodes) (step : edge target next) :
    IsWalk edge source next (nodes ++ [next]) := by
  induction walk with
  | stay => exact .move step .stay
  | move first rest ih => exact .move first (ih step)

/-- A walk stays one in any relation that holds of its own edges. -/
theorem IsWalk.imp {other : V → V → Prop} (walk : IsWalk edge source target nodes)
    (kept : ∀ first ∈ nodes, ∀ second ∈ nodes, edge first second → other first second) :
    IsWalk other source target nodes := by
  induction walk with
  | stay => exact .stay
  | @move source next target nodes step rest ih =>
    obtain ⟨tail, same⟩ := rest.exists_cons
    refine .move (kept source List.mem_cons_self next ?_ step) (ih ?_)
    · rw [same]
      exact List.mem_cons_of_mem _ List.mem_cons_self
    · intro first one second two
      exact kept first (List.mem_cons_of_mem _ one) second (List.mem_cons_of_mem _ two)

/-- A walk is its ends and a chain between them. -/
theorem IsWalk.of_chain (head : nodes.head? = some source) (last : nodes.getLast? = some target)
    (chain : nodes.IsChain edge) : IsWalk edge source target nodes := by
  induction nodes generalizing source with
  | nil => cases head
  | cons first rest ih =>
    cases head
    cases rest with
    | nil =>
      cases last
      exact .stay
    | cons second others =>
      obtain ⟨step, tail⟩ := List.isChain_cons_cons.mp chain
      rw [List.getLast?_cons_cons] at last
      exact .move step (ih rfl last tail)

/-- A map of the vertices that keeps the edges of a walk keeps the walk. -/
theorem IsWalk.map {W : Type w} {other : W → W → Prop} (image : V → W)
    (walk : IsWalk edge source target nodes)
    (kept : ∀ first ∈ nodes, ∀ second ∈ nodes, edge first second →
      other (image first) (image second)) :
    IsWalk other (image source) (image target) (nodes.map image) := by
  induction walk with
  | stay => exact .stay
  | @move source next target nodes step rest ih =>
    obtain ⟨tail, same⟩ := rest.exists_cons
    refine .move (kept source List.mem_cons_self next ?_ step) (ih ?_)
    · rw [same]
      exact List.mem_cons_of_mem _ List.mem_cons_self
    · intro first one second two
      exact kept first (List.mem_cons_of_mem _ one) second (List.mem_cons_of_mem _ two)

theorem IsWalk.reaches (walk : IsWalk edge source target nodes) :
    Relation.ReflTransGen edge source target := by
  induction walk with
  | stay => exact .refl
  | move step rest ih => exact .head step ih

/-- A walk from inside a set to outside has an edge over its border. -/
theorem IsWalk.crossing (walk : IsWalk edge source target nodes) (inside : V → Prop)
    (start : inside source) (finish : ¬ inside target) :
    ∃ last first front back, inside last ∧ ¬ inside first ∧ edge last first ∧
      IsWalk edge source last front ∧ IsWalk edge first target back ∧ nodes = front ++ back := by
  induction walk with
  | stay => exact False.elim (finish start)
  | @move source next target nodes step rest ih =>
    by_cases within : inside next
    · obtain ⟨last, first, front, back, kept, left, border, before, after, same⟩ := ih within finish
      exact ⟨last, first, source :: front, back, kept, left, border, .move step before, after,
        by rw [same, List.cons_append]⟩
    · exact ⟨source, next, [source], nodes, start, within, step, .stay, rest, rfl⟩

end Shape

section Weight

variable {edge : V → V → Prop} {source middle next target : V} {nodes front back : List V}

theorem IsWalk.cost_move [Add M] [Zero M] (weight : V → V → M)
    (rest : IsWalk edge next target nodes) :
    walkCost weight (source :: nodes) = weight source next + walkCost weight nodes := by
  obtain ⟨tail, same⟩ := rest.exists_cons
  rw [same]
  rfl

/-- The weight of two walks joined by an edge. -/
theorem IsWalk.cost_bridge [AddMonoid M] (weight : V → V → M)
    (before : IsWalk edge source middle front) (after : IsWalk edge next target back) :
    walkCost weight (front ++ back) =
      walkCost weight front + (weight middle next + walkCost weight back) := by
  induction before with
  | stay =>
    rw [List.singleton_append, after.cost_move weight]
    simp [walkCost]
  | @move source between middle nodes step rest ih =>
    obtain ⟨tail, same⟩ := rest.exists_cons
    rw [List.cons_append, rest.cost_move weight, add_assoc, ← ih]
    rw [same]
    rfl

theorem IsWalk.cost_snoc [AddMonoid M] (weight : V → V → M)
    (walk : IsWalk edge source target nodes) :
    walkCost weight (nodes ++ [next]) = walkCost weight nodes + weight target next := by
  rw [walk.cost_bridge weight (.stay : IsWalk edge next next [next])]
  simp [walkCost]

/-- Edge by edge the image weighs the same. -/
theorem IsWalk.cost_map {W : Type w} [AddMonoid M] (weight : V → V → M) (other : W → W → M)
    (image : V → W) (walk : IsWalk edge source target nodes)
    (kept : ∀ first ∈ nodes, ∀ second ∈ nodes, edge first second →
      weight first second = other (image first) (image second)) :
    walkCost weight nodes = walkCost other (nodes.map image) := by
  induction walk with
  | stay => rfl
  | @move source next target nodes step rest ih =>
    obtain ⟨tail, rfl⟩ := rest.exists_cons
    have later := ih fun first one second two =>
      kept first (List.mem_cons_of_mem _ one) second (List.mem_cons_of_mem _ two)
    rw [List.map_cons, List.map_cons, walkCost, walkCost, ← List.map_cons, ← later,
      kept source (by simp) next (by simp) step]

/-- A potential that each edge lowers by at most its weight is lowered by a
walk by at most the walk's weight. -/
theorem IsWalk.potential_le [AddMonoid M] [Preorder M] [AddLeftMono M]
    (weight : V → V → M) (potential : V → M)
    (consistent : ∀ first second, edge first second →
      potential first ≤ weight first second + potential second)
    (walk : IsWalk edge source target nodes) :
    potential source ≤ walkCost weight nodes + potential target := by
  induction walk with
  | stay => simp [walkCost]
  | @move source next target nodes step rest ih =>
    calc potential source
        ≤ weight source next + potential next := consistent _ _ step
      _ ≤ weight source next + (walkCost weight nodes + potential target) := by gcongr
      _ = walkCost weight (source :: nodes) + potential target := by
          rw [rest.cost_move weight, add_assoc]

/-- A weight with the triangle inequality is at most that of any detour. -/
theorem IsWalk.weight_le [AddMonoid M] [Preorder M] [AddLeftMono M] (weight : V → V → M)
    (triangle : ∀ first second third,
      weight first third ≤ weight first second + weight second third)
    (stays : weight target target = 0) (walk : IsWalk edge source target nodes) :
    weight source target ≤ walkCost weight nodes := by
  have bounded := walk.potential_le weight (fun vertex => weight vertex target)
    (fun first second _ => triangle first second target)
  rwa [stays, add_zero] at bounded

end Weight

end AugmentedCampus.Foundation
