import Avro.Proofs.Derivation.Dispatch
import Mathlib.Logic.Relation

/-!
# What a type leads to

The edges that a derivation follows from a type are those to the fields of a record, the members of a union, and the
parts of a collection that is not stored as a JSON document (`TypeGraph.followed`). A type is `Reachable` from another
if such edges lead from one to the other. A step that does not start at a named type is `LeadsUnnamed`; a cycle of
such steps has no schema.
-/

namespace Avro.TypeGraph

open Relation

/-- The edges that a derivation follows from a type. -/
def followed (g : TypeGraph) (d : Descriptor) : List Edge :=
  match d.shape with
  | .record fs => fs.map Field.type
  | .union members => members
  | .sequence element => if g.isJson d then [] else [element]
  | .map _ value => if g.isJson d then [] else [value]
  | _ => []

/-- An edge that is followed leads from one type to the other, even if the description of the other is gone. -/
def Leads (g : TypeGraph) (a b : TypeId) : Prop := ∃ d, g.get? a = some d ∧ ∃ e ∈ g.followed d, e.target = b

/-- Edges that are followed lead from one type to the other. -/
abbrev Reachable (g : TypeGraph) : TypeId → TypeId → Prop := ReflTransGen g.Leads

/-- An edge leads from a type without a name of its own to the other type. -/
def LeadsUnnamed (g : TypeGraph) (a b : TypeId) : Prop :=
  ∃ d, g.get? a = some d ∧ d.isNamed = false ∧ ∃ e ∈ g.followed d, e.target = b

/-- The second type is a member of the first, which is a union. -/
def HasMember (g : TypeGraph) (a b : TypeId) : Prop :=
  ∃ d members, g.get? a = some d ∧ d.shape = .union members ∧ ∃ e ∈ members, e.target = b

/-! ## Steps -/

variable {g : TypeGraph} {a b : TypeId} {d : Descriptor}

theorem LeadsUnnamed.leads (h : g.LeadsUnnamed a b) : g.Leads a b := by
  obtain ⟨d, hget, -, he⟩ := h
  exact ⟨d, hget, he⟩

theorem HasMember.leadsUnnamed (h : g.HasMember a b) : g.LeadsUnnamed a b := by
  obtain ⟨d, members, hget, hd, e, he, rfl⟩ := h
  exact ⟨d, hget, by simp [Descriptor.isNamed, hd], e, by simpa [followed, hd] using he, rfl⟩

theorem leads_field {fs : List Field} {f : Field} (hget : g.get? a = some d) (hd : d.shape = .record fs) (hf : f ∈ fs) :
    g.Leads a f.type.target :=
  ⟨d, hget, f.type, by simpa [followed, hd] using ⟨f, hf, rfl⟩, rfl⟩

theorem leadsUnnamed_element {element : Edge} (hget : g.get? a = some d) (hd : d.shape = .sequence element)
    (hj : g.isJson d = false) : g.LeadsUnnamed a element.target :=
  ⟨d, hget, by simp [Descriptor.isNamed, hd], element, by simp [followed, hd, hj], rfl⟩

theorem leadsUnnamed_value {key value : Edge} (hget : g.get? a = some d) (hd : d.shape = .map key value)
    (hj : g.isJson d = false) : g.LeadsUnnamed a value.target :=
  ⟨d, hget, by simp [Descriptor.isNamed, hd], value, by simp [followed, hd, hj], rfl⟩

/-! ## Paths -/

theorem reachable_of_leadsUnnamed (h : ReflTransGen g.LeadsUnnamed a b) : g.Reachable a b :=
  ReflTransGen.mono (fun _ _ => LeadsUnnamed.leads) _ _ h

theorem leadsUnnamed_of_hasMember (h : ReflTransGen g.HasMember a b) : ReflTransGen g.LeadsUnnamed a b :=
  ReflTransGen.mono (fun _ _ => HasMember.leadsUnnamed) _ _ h

theorem transGen_of_hasMember (h : TransGen g.HasMember a b) : TransGen g.LeadsUnnamed a b :=
  TransGen.mono (fun _ _ => HasMember.leadsUnnamed) _ _ h

/-- A type from which all ways of some kind end is not on a cycle of that kind. -/
theorem not_cycle_of_acc {Next : TypeId → TypeId → Prop} (h : Acc (Function.swap Next) a) : ¬ TransGen Next a a := by
  induction h with
  | intro a _ ih =>
    intro hcycle
    -- the cycle can be entered one step later, at a type that comes before `a` in the order
    obtain ⟨b, hab, hba⟩ := TransGen.head'_iff.mp hcycle
    exact ih b hab (TransGen.tail' hba hab)

end Avro.TypeGraph
