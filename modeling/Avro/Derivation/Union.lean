import Avro.Derivation.Basic

/-!
# Unions

A schema has no union directly inside a union, so nested unions are spliced into the outer one (`flatMembers`), where a
type counts once. A default of a union belongs to the first member that accepts it (`choose`), and that member comes
first in the schema.
-/

namespace Avro

namespace TypeGraph

/-- The number of types that are not in the list. -/
def unvisited (g : TypeGraph) (active : List TypeId) : Nat := ((List.range g.size).filter (· ∉ active)).length

theorem lt_size_of_get? {g : TypeGraph} {id : TypeId} {d : Descriptor} (h : g.get? id = some d) : id < g.size := by
  unfold get? at h
  by_cases hlt : id < g.places.size
  · exact hlt
  · simp [Array.getElem?_eq_none (Nat.le_of_not_lt hlt)] at h

theorem unvisited_cons_lt {g : TypeGraph} {active : List TypeId} {id : TypeId} (hid : id < g.size)
    (hnew : id ∉ active) : g.unvisited (id :: active) < g.unvisited active := by
  have hsub : ((List.range g.size).filter (· ∉ id :: active)) =
      ((List.range g.size).filter (· ∉ active)).filter (· ≠ id) := by
    rw [List.filter_filter]
    apply List.filter_congr
    intro x _
    simp only [List.mem_cons, not_or, Bool.decide_and]
  unfold unvisited
  rw [hsub]
  have hmem : id ∈ (List.range g.size).filter (· ∉ active) := by simp [hid, hnew]
  exact List.length_filter_lt_length_iff_exists.mpr ⟨id, hmem, by simp⟩

/--
Adds the members of a list of edges to those in `out`: unions by their own members, the others unless they are there.
The unions around the list are `active`; one that is met again has itself for a member.
-/
def spliceInto (g : TypeGraph) (active out : List TypeId) : List Edge → Except TypeFault (List TypeId)
  | [] => .ok out
  | e :: es =>
    match _hd : g.target? e with
    | none => .error (.gone e.target)
    | some d =>
      match d.shape with
      | .union inner =>
        if _hnew : e.target ∈ active then .error (.unsupported (.memberOfItself d.name))
        else
          match spliceInto g (e.target :: active) out inner with
          | .ok out' => spliceInto g active out' es
          | .error f => .error f
      | _ => spliceInto g active (if e.target ∈ out then out else out ++ [e.target]) es
termination_by es => (g.unvisited active, es.length)
decreasing_by
  · exact Prod.Lex.left _ _ (unvisited_cons_lt (lt_size_of_get? _hd) _hnew)
  · exact Prod.Lex.right _ (Nat.lt_succ_self _)
  · exact Prod.Lex.right _ (Nat.lt_succ_self _)

/-- The members of a union, in order, with nested unions spliced in and no type twice. -/
def flatMembers (g : TypeGraph) (members : List Edge) : Except TypeFault (List TypeId) := g.spliceInto [] [] members

end TypeGraph

/-- The member of a union that a default belongs to, with its encoding there and the other members in order. -/
structure Choice where
  member : TypeId
  encoded : Json
  others : List TypeId

namespace Choice

/-- The members with the chosen one in front. -/
def order (c : Choice) : List TypeId := c.member :: c.others

end Choice

namespace Encode

/-- The first member that accepts the value, if there is one. -/
def firstAccepting (encode : TypeId → Value → Encode Json) (v : Value) : List TypeId → Option (Option Choice)
  | [] => some none
  | m :: ms =>
    match (encode m v).outcome with
    | none => none
    | some (.ok j) => some (some ⟨m, j, ms⟩)
    | some (.error _) => (firstAccepting encode v ms).map fun c? => c?.map fun c => { c with others := m :: c.others }

/-- The member that a default belongs to. -/
def choose (g : TypeGraph) (encode : TypeId → Value → Encode Json) (members : List TypeId) (v : Value) :
    Encode Choice :=
  match firstAccepting encode v members with
  | none => endless
  | some (some c) => pure c
  | some none =>
    throw (.expected ("one of [" ++ ", ".intercalate (members.map g.nameOf) ++ "]") v)

end Encode

namespace Derive

/-- The schemas of several types. -/
def schemas (parts : Parts) : List TypeId → Derive (List Schema)
  | [] => pure []
  | m :: ms => do
    let s ← parts.schema m
    let ss ← schemas parts ms
    pure (s :: ss)

/-- The union of several types, of which none is a union. -/
def unionOf (parts : Parts) (members : List TypeId) : Derive Schema := .union <$> schemas parts members

/-- The union of the members that edges lead to. -/
def union (cx : Setting) (parts : Parts) (members : List Edge) : Derive Schema := do
  unionOf parts (← ofFault (cx.graph.flatMembers members))

end Derive
end Avro
