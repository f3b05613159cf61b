import Avro.Proofs.Derivation.Step
import Mathlib.Data.List.Basic

/-!
# How deep a derivation goes

Between two named types a derivation opens no composite type twice, and it defines each named type once. So there is
enough depth (`Progress.HasDepth`) if there is a round over all types for each that is not defined, and one level for
each that is not pending. A step into a definition or into a composite type takes one level of it.
-/

namespace Avro

/-! ## Types that are not visited -/

namespace TypeGraph

variable {g : TypeGraph} {active active' : List TypeId}

theorem unvisited_nil : g.unvisited [] = g.size := by simp [unvisited]

theorem unvisited_le_of_subset (h : active ⊆ active') : g.unvisited active' ≤ g.unvisited active := by
  unfold unvisited
  refine List.Sublist.length_le (List.monotone_filter_right _ fun id hid => ?_)
  simp only [decide_eq_true_eq] at hid ⊢
  exact fun hmem => hid (h hmem)

theorem unvisited_concat_lt {id : TypeId} (hid : id < g.size) (hnew : id ∉ active) :
    g.unvisited (active ++ [id]) < g.unvisited active := by
  have hsub : id :: active ⊆ active ++ [id] := by
    intro x hx
    simpa [or_comm] using hx
  exact Nat.lt_of_le_of_lt (unvisited_le_of_subset hsub) (unvisited_cons_lt hid hnew)

end TypeGraph

/-! ## Enough depth -/

namespace Progress

/-- The types that are defined. -/
def ids (s : Progress) : List TypeId := s.registry.entries.map Prod.fst

/-- There is depth for all types that are not defined and for those that are not pending. -/
def HasDepth (s : Progress) (g : TypeGraph) (n : Nat) : Prop :=
  g.unvisited s.ids * (g.size + 1) + g.unvisited s.pending + 1 ≤ n

variable {g : TypeGraph} {s s' : Progress} {id : TypeId} {n : Nat}

theorem ids_define {fullName : String} : (s.define id fullName).ids = s.ids ++ [id] := by simp [define, ids]

theorem hasDepth_start : ({} : Progress).HasDepth g (RuleTable.depthBound g) := by
  show g.unvisited [] * (g.size + 1) + g.unvisited [] + 1 ≤ _
  rw [TypeGraph.unvisited_nil, RuleTable.depthBound, Nat.mul_comm (g.size + 1), Nat.add_assoc]
  have : (g.size + 2) * (g.size + 1) = g.size * (g.size + 1) + 2 * (g.size + 1) := Nat.add_mul _ _ _
  omega

theorem not_hasDepth_zero : ¬ s.HasDepth g 0 := Nat.not_succ_le_zero _

/-- What is defined takes no depth away. -/
theorem HasDepth.of_subset (h : s.HasDepth g n) (hids : s.ids ⊆ s'.ids) (hpending : s'.pending = s.pending) :
    s'.HasDepth g n := by
  unfold HasDepth at h ⊢
  have hmul := Nat.mul_le_mul_right (g.size + 1) (TypeGraph.unvisited_le_of_subset (g := g) hids)
  rw [hpending]
  omega

/-- There is depth for what a type defines, where nothing is pending. -/
theorem HasDepth.define (h : s.HasDepth g (n + 1)) (hid : id < g.size) (hnew : id ∉ s.ids) (fullName : String) :
    { s.define id fullName with pending := [] }.HasDepth g n := by
  unfold HasDepth at h
  have hmul := Nat.mul_le_mul_right (g.size + 1) (Nat.succ_le_of_lt (TypeGraph.unvisited_concat_lt hid hnew))
  rw [Nat.succ_mul] at hmul
  show g.unvisited (s.define id fullName).ids * (g.size + 1) + g.unvisited [] + 1 ≤ n
  rw [ids_define, TypeGraph.unvisited_nil]
  omega

/-- There is depth for the parts of a type that is not pending. -/
theorem HasDepth.pend (h : s.HasDepth g (n + 1)) (hid : id < g.size) (hnew : id ∉ s.pending) :
    { s with pending := id :: s.pending }.HasDepth g n := by
  unfold HasDepth at h
  have hlt := TypeGraph.unvisited_cons_lt hid hnew
  show g.unvisited s.ids * (g.size + 1) + g.unvisited (id :: s.pending) + 1 ≤ n
  omega

end Progress
end Avro
