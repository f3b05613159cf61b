import Avro.Error.Message
import Avro.Proofs.Graph.Members
import Mathlib

/-!
# Graphs that read alike

A `Renaming` relates types of two graphs one to one such that the descriptions of related types read alike: all that
they say is the same, and their edges lead to related types, or to descriptions that are gone in both graphs. So
what is looked up along edges reads alike too (`follow_alike`, `flatMembers_alike`), and related types have the same
rules of the library (`find_eq`).

Errors tell which description is gone. Two errors read alike if they are the same once that identity is masked: for all
identities by one, or for each by itself, so that the errors are equal.
-/

namespace Avro

/-! ## Errors with other identities -/

section Masked

variable (mask : TypeId → TypeId)

/-- The fault with another identity of a description that is gone. -/
def TypeFault.masked : TypeFault → TypeFault
  | gone id => gone (mask id)
  | f => f

def Reason.masked : Reason → Reason
  | type f => type (f.masked mask)
  | r => r

def Mismatch.masked (m : Mismatch) : Mismatch := ⟨m.path, m.reason.masked mask⟩

def SchemaError.masked : SchemaError → SchemaError
  | type f => type (f.masked mask)
  | invalidDefault field m => invalidDefault field (m.masked mask)
  | endlessDefault => endlessDefault

variable (showId : TypeId → String)

theorem TypeFault.message_masked (f : TypeFault) :
    (f.masked mask).message showId = f.message fun id => showId (mask id) := by
  cases f <;> rfl

theorem Reason.message_masked (r : Reason) : (r.masked mask).message showId = r.message fun id => showId (mask id) := by
  cases r with
  | type f => exact f.message_masked mask showId
  | _ => rfl

/-- The text of an error with other identities shows these in place of its own. -/
theorem SchemaError.message_masked (e : SchemaError) :
    (e.masked mask).message showId = e.message fun id => showId (mask id) := by
  cases e with
  | type f => exact f.message_masked mask showId
  | invalidDefault field m =>
    exact congrArg ("Invalid default for field " ++ field ++ m.pathText ++ ": " ++ ·)
      (m.reason.message_masked mask showId)
  | endlessDefault => rfl

end Masked

theorem TypeFault.masked_id (f : TypeFault) : f.masked id = f := by cases f <;> rfl

theorem Reason.masked_id (r : Reason) : r.masked id = r := by
  cases r with
  | type f => exact congrArg type f.masked_id
  | _ => rfl

theorem SchemaError.masked_id (e : SchemaError) : e.masked id = e := by
  cases e with
  | type f => exact congrArg type f.masked_id
  | invalidDefault field m => exact congrArg (fun r => invalidDefault field ⟨m.path, r⟩) m.reason.masked_id
  | endlessDefault => rfl

/-! ## Results that read alike -/

/-- Both succeed with related results, or fail with errors that are the same to `view`. -/
inductive Results {ε α β : Type} (view : ε → ε) (R : α → β → Prop) : Except ε α → Except ε β → Prop
  | ok {a : α} {b : β} : R a b → Results view R (.ok a) (.ok b)
  | error {e e' : ε} : view e = view e' → Results view R (.error e) (.error e')

namespace Results

variable {ε α β : Type} {view : ε → ε} {R : α → β → Prop}

theorem refl (x : Except ε α) : Results view Eq x x := by
  cases x with
  | ok a => exact .ok rfl
  | error e => exact .error rfl

/-- Results that are equal but for what `view` does not show are equal to it. -/
theorem mapError_eq {x y : Except ε α} (h : Results view Eq x y) : x.mapError view = y.mapError view := by
  cases h with
  | ok h => rw [h]
  | error h => exact congrArg Except.error h

end Results

/-! ## Descriptions that read alike -/

/-- Fields that are the same but for where the edges to their types lead. -/
structure Field.Alike (E : Edge → Edge → Prop) (f f' : Field) : Prop where
  name : f.name = f'.name
  type : E f.type f'.type
  default : f.default = f'.default
  doc : f.doc = f'.doc
  otherName : f.otherName = f'.otherName

/-- Shapes that are the same but for where their edges lead. -/
inductive Shape.Alike (E : Edge → Edge → Prop) : Shape → Shape → Prop
  | basic {kind : Basic} : Alike E (.basic kind) (.basic kind)
  | refined {kind : Refined} : Alike E (.refined kind) (.refined kind)
  | namedString : Alike E .namedString .namedString
  | enum {symbols : List String} : Alike E (.enum symbols) (.enum symbols)
  | record {fs fs' : List Field} : List.Forall₂ (Field.Alike E) fs fs' → Alike E (.record fs) (.record fs')
  | union {members members' : List Edge} : List.Forall₂ E members members' → Alike E (.union members) (.union members')
  | map {key value key' value' : Edge} : E key key' → E value value' → Alike E (.map key value) (.map key' value')
  | sequence {element element' : Edge} : E element element' → Alike E (.sequence element) (.sequence element')
  | decimal {params : List Int} : Alike E (.decimal params) (.decimal params)
  | forward {name : String} : Alike E (.forward name) (.forward name)

/-- Descriptions that are the same but for where their edges lead. -/
structure Descriptor.Alike (E : Edge → Edge → Prop) (d d' : Descriptor) : Prop where
  name : d.name = d'.name
  origin : d.origin = d'.origin
  doc : d.doc = d'.doc
  shape : d.shape.Alike E d'.shape

/-! ### Edges -/

/-- The edges from a type of the shape. -/
def Shape.edges : Shape → List Edge
  | .record fs => fs.map Field.type
  | .union members => members
  | .map key value => [key, value]
  | .sequence element => [element]
  | _ => []

section Edges

variable {E F : Edge → Edge → Prop} {x y : Shape}

/-- Shapes that read alike have related edges, in one order. -/
theorem Shape.Alike.edges (h : x.Alike E y) : List.Forall₂ E x.edges y.edges := by
  cases h with
  | record hfs =>
    rw [Shape.edges, Shape.edges, List.forall₂_map_left_iff, List.forall₂_map_right_iff]
    exact hfs.imp fun _ _ => Field.Alike.type
  | union hmembers => exact hmembers
  | map hkey hvalue => exact .cons hkey (.cons hvalue .nil)
  | sequence helement => exact .cons helement .nil
  | _ => exact .nil

/-- The edges may be related in another way, if those of the shape are. -/
theorem Shape.Alike.imp_of_mem (hEF : ∀ {e e'}, e ∈ x.edges → E e e' → F e e') (h : x.Alike E y) : x.Alike F y := by
  cases h with
  | record hfs =>
    have hmem := (List.forall₂_and_left _ _).mpr ⟨fun f hf => List.mem_map_of_mem (f := Field.type) hf, hfs⟩
    exact .record (hmem.imp fun _ _ ⟨hf, halike⟩ => { halike with type := hEF hf halike.type })
  | union hmembers =>
    have hmem := (List.forall₂_and_left _ _).mpr ⟨fun _ he => he, hmembers⟩
    exact .union (hmem.imp fun _ _ ⟨he, hE⟩ => hEF he hE)
  | map hkey hvalue => exact .map (hEF List.mem_cons_self hkey) (hEF (List.mem_cons_of_mem _ List.mem_cons_self) hvalue)
  | sequence helement => exact .sequence (hEF List.mem_cons_self helement)
  | basic => exact .basic
  | refined => exact .refined
  | namedString => exact .namedString
  | enum => exact .enum
  | decimal => exact .decimal
  | forward => exact .forward

/-- A shape reads like itself if its edges are related to themselves. -/
theorem Shape.alike_self (h : ∀ e ∈ x.edges, E e e) : x.Alike E x := by
  cases x with
  | record fs =>
    exact .record (List.forall₂_same.mpr fun f hf => ⟨rfl, h _ (List.mem_map_of_mem hf), rfl, rfl, rfl⟩)
  | union members => exact .union (List.forall₂_same.mpr h)
  | map key value => exact .map (h _ List.mem_cons_self) (h _ (List.mem_cons_of_mem _ List.mem_cons_self))
  | sequence element => exact .sequence (h _ List.mem_cons_self)
  | basic => exact .basic
  | refined => exact .refined
  | namedString => exact .namedString
  | enum => exact .enum
  | decimal => exact .decimal
  | forward => exact .forward

end Edges

namespace Descriptor.Alike

variable {E : Edge → Edge → Prop} {d d' : Descriptor}

theorem label_eq (h : d.Alike E d') : d.label = d'.label := by
  obtain ⟨name, origin, doc, shape⟩ := d
  obtain ⟨name', origin', doc', shape'⟩ := d'
  obtain ⟨hname, -, -, hshape⟩ := h
  cases hname
  unfold Descriptor.label
  cases hshape <;> rfl

end Descriptor.Alike

/-! ## Renamings -/

/-- Types of two graphs that are related one to one, with descriptions that read alike. -/
structure Renaming (g g' : TypeGraph) where
  Rel : TypeId → TypeId → Prop
  /-- What stands for the identity of a description that is gone, where errors are compared. -/
  mask : TypeId → TypeId
  inj : ∀ {a b a' b'}, Rel a b → Rel a' b' → (a = a' ↔ b = b')
  alike : ∀ {a b}, Rel a b → ∃ d d', g.get? a = some d ∧ g'.get? b = some d' ∧
    d.Alike (fun e e' => Rel e.target e'.target ∨
      g.get? e.target = none ∧ g'.get? e'.target = none ∧ mask e.target = mask e'.target) d'

namespace Renaming

variable {g g' : TypeGraph} (ρ : Renaming g g')

/-- The types are related, or the descriptions of both are gone and errors tell so alike. -/
def Near (a b : TypeId) : Prop := ρ.Rel a b ∨ g.get? a = none ∧ g'.get? b = none ∧ ρ.mask a = ρ.mask b

/-- The edges lead to related types, or nowhere. -/
def NearEdge (e e' : Edge) : Prop := ρ.Near e.target e'.target

/-- Descriptions that read alike, along the renaming. -/
def Reads (d d' : Descriptor) : Prop := d.Alike ρ.NearEdge d'

variable {ρ} {a b : TypeId} {d d' : Descriptor} {e e' : Edge}

theorem get?_cases (h : ρ.Near a b) : g.get? a = none ∧ g'.get? b = none ∧ ρ.mask a = ρ.mask b ∨
    ∃ d d', g.get? a = some d ∧ g'.get? b = some d' ∧ ρ.Rel a b ∧ ρ.Reads d d' := by
  rcases h with h | h
  · obtain ⟨d, d', ha, hb, hd⟩ := ρ.alike h
    exact .inr ⟨d, d', ha, hb, h, hd⟩
  · exact .inl h

/-- Near types are related if there is a description of one. -/
theorem rel_of_get? (h : ρ.Near a b) (ha : g.get? a = some d) :
    ρ.Rel a b ∧ ∃ d', g'.get? b = some d' ∧ ρ.Reads d d' := by
  rcases get?_cases h with ⟨hnone, -⟩ | ⟨d₁, d', ha', hb, hab, hd⟩
  · cases ha.symm.trans hnone
  · cases ha.symm.trans ha'
    exact ⟨hab, d', hb, hd⟩

/-- Where an edge leads there is a description that reads alike, or both lead nowhere. -/
theorem follow_alike (h : ρ.NearEdge e e') : Results (TypeFault.masked ρ.mask) ρ.Reads (g.follow e) (g'.follow e') := by
  unfold TypeGraph.follow TypeGraph.target?
  rcases get?_cases h with ⟨ha, hb, hmask⟩ | ⟨d, d', ha, hb, -, hd⟩
  · rw [ha, hb]
    exact .error (congrArg TypeFault.gone hmask)
  · rw [ha, hb]
    exact .ok hd

/-! ## Rules -/

theorem isBasic_eq (h : ρ.Reads d d') (kind : Basic) : d.isBasic kind = d'.isBasic kind := by
  obtain ⟨name, origin, doc, shape⟩ := d
  obtain ⟨name', origin', doc', shape'⟩ := d'
  obtain ⟨-, -, -, hshape⟩ := h
  cases hshape <;> rfl

theorem isRecord_eq (h : ρ.Reads d d') : d.isRecord = d'.isRecord := by
  obtain ⟨name, origin, doc, shape⟩ := d
  obtain ⟨name', origin', doc', shape'⟩ := d'
  obtain ⟨-, -, -, hshape⟩ := h
  cases hshape <;> rfl

theorem isJsonObject_eq (h : ρ.Reads d d') : g.isJsonObject d = g'.isJsonObject d' := by
  obtain ⟨name, origin, doc, shape⟩ := d
  obtain ⟨name', origin', doc', shape'⟩ := d'
  obtain ⟨-, -, -, hshape⟩ := h
  cases hshape with
  | map hkey hvalue =>
    simp only [TypeGraph.isJsonObject, TypeGraph.target?]
    rcases get?_cases hkey with ⟨hk, hk', -⟩ | ⟨k, k', hk, hk', -, hkd⟩
    · simp only [hk, hk']
    · rcases get?_cases hvalue with ⟨hv, hv', -⟩ | ⟨v, v', hv, hv', -, hvd⟩
      · simp only [hk, hk', hv, hv']
      · simp only [hk, hk', hv, hv', isBasic_eq hkd, isBasic_eq hvd]
  | _ => rfl

theorem isJsonArray_eq (h : ρ.Reads d d') : g.isJsonArray d = g'.isJsonArray d' := by
  obtain ⟨name, origin, doc, shape⟩ := d
  obtain ⟨name', origin', doc', shape'⟩ := d'
  obtain ⟨-, -, -, hshape⟩ := h
  cases hshape with
  | sequence helement =>
    simp only [TypeGraph.isJsonArray, TypeGraph.target?]
    rcases get?_cases helement with ⟨he, he', -⟩ | ⟨e, e', he, he', -, hed⟩
    · simp only [he, he']
    · simp only [he, he', isJsonObject_eq hed]
  | _ => rfl

/-- A rule of the library takes care of both types or of neither. -/
theorem handles_eq (h : ρ.Reads d d') : ∀ r ∈ RuleTable.library, r.handles g d = r.handles g' d' := by
  have hobject := isJsonObject_eq h
  have harray := isJsonArray_eq h
  have hrecord := isRecord_eq h
  obtain ⟨name, origin, doc, shape⟩ := d
  obtain ⟨name', origin', doc', shape'⟩ := d'
  obtain ⟨-, -, -, hshape⟩ := h
  apply RuleTable.library_cases
  case json => exact congrArg₂ or hobject harray
  case record => exact hrecord
  all_goals cases hshape <;> rfl

/-- Related types have the same rule of a table of rules of the library, or the same fault. -/
theorem find_eq {t : RuleTable} (ht : t.OfLibrary) (h : ρ.Reads d d') : t.find g d = t.find g' d' := by
  have hfind : t.find? g d = t.find? g' d' := by
    unfold RuleTable.find?
    congr 1
    exact List.find?_congr fun e he => handles_eq h e.rule (ht e he)
  rw [RuleTable.find, RuleTable.find, hfind, h.label_eq]

/-! ## Members of unions -/

theorem nameOf_eq (h : ρ.Rel a b) : g.nameOf a = g'.nameOf b := by
  obtain ⟨d, d', ha, hb, hd⟩ := ρ.alike h
  simp only [TypeGraph.nameOf, ha, hb, Option.map_some, hd.name]

theorem mem_iff {as bs : List TypeId} (h : List.Forall₂ ρ.Rel as bs) (hab : ρ.Rel a b) : a ∈ as ↔ b ∈ bs :=
  List.rel_mem (R := ρ.Rel) ⟨fun _ _ _ h h' => (ρ.inj h h').mpr rfl, fun _ _ _ h h' => (ρ.inj h h').mp rfl⟩ hab h

/-- The shapes of types that read alike are unions with members that do, or both are no unions. -/
theorem union_cases (h : ρ.Reads d d') : (∃ members members', d.shape = .union members ∧ d'.shape = .union members' ∧
    List.Forall₂ ρ.NearEdge members members') ∨
      (∀ members, d.shape ≠ .union members) ∧ ∀ members, d'.shape ≠ .union members := by
  obtain ⟨name, origin, doc, shape⟩ := d
  obtain ⟨name', origin', doc', shape'⟩ := d'
  obtain ⟨-, -, -, hshape⟩ := h
  cases hshape with
  | union hmembers => exact .inl ⟨_, _, rfl, rfl, hmembers⟩
  | _ => exact .inr ⟨nofun, nofun⟩

/-- Members that are spliced along near edges are related one by one. -/
theorem spliceInto_alike {active out active' out' : List TypeId} {es es' : List Edge}
    (hactive : List.Forall₂ ρ.Rel active active') (hout : List.Forall₂ ρ.Rel out out')
    (hes : List.Forall₂ ρ.NearEdge es es') : Results (TypeFault.masked ρ.mask) (List.Forall₂ ρ.Rel)
      (g.spliceInto active out es) (g'.spliceInto active' out' es') := by
  fun_induction TypeGraph.spliceInto g active out es generalizing active' out' es' with
  | case1 =>
    cases hes
    rw [TypeGraph.spliceInto]
    exact .ok hout
  | case2 active out e es hd =>
    cases hes with
    | cons he hes =>
    rcases get?_cases he with ⟨-, hd', hmask⟩ | ⟨d, -, ha, -⟩
    · rw [TypeGraph.spliceInto_gone hd']
      exact .error (congrArg TypeFault.gone hmask)
    · cases hd.symm.trans ha
  | case3 active out e es d hd inner hu hmem =>
    cases hes with
    | cons he hes =>
    obtain ⟨hrel, d', hd', hreads⟩ := rel_of_get? he hd
    obtain ⟨_, inner', hu₁, hu', hinner⟩ := (union_cases hreads).resolve_right fun h => h.1 _ hu
    rw [TypeGraph.spliceInto_union hd' hu', if_pos ((mem_iff hactive hrel).mp hmem), hreads.name]
    exact .error rfl
  | case4 active out e es d hd inner hu hnew out₁ hsplice ih₂ ih₁ =>
    cases hes with
    | cons he hes =>
    obtain ⟨hrel, d', hd', hreads⟩ := rel_of_get? he hd
    obtain ⟨_, inner', hu₁, hu', hinner⟩ := (union_cases hreads).resolve_right fun h => h.1 _ hu
    cases hu.symm.trans hu₁
    have hspliced := ih₂ (.cons hrel hactive) hout hinner
    rw [TypeGraph.spliceInto_union hd' hu', if_neg fun h => hnew ((mem_iff hactive hrel).mpr h)]
    rw [hsplice] at hspliced
    generalize g'.spliceInto _ out' inner' = r at hspliced
    cases hspliced with
    | ok hout₁ => exact ih₁ hactive hout₁ hes
  | case5 active out e es d hd inner hu hnew f hsplice ih =>
    cases hes with
    | cons he hes =>
    obtain ⟨hrel, d', hd', hreads⟩ := rel_of_get? he hd
    obtain ⟨_, inner', hu₁, hu', hinner⟩ := (union_cases hreads).resolve_right fun h => h.1 _ hu
    cases hu.symm.trans hu₁
    have hspliced := ih (.cons hrel hactive) hout hinner
    rw [TypeGraph.spliceInto_union hd' hu', if_neg fun h => hnew ((mem_iff hactive hrel).mpr h)]
    rw [hsplice] at hspliced
    generalize g'.spliceInto _ out' inner' = r at hspliced
    cases hspliced with
    | error hf => exact .error hf
  | case6 active out e es d hd hu ih =>
    cases hes with
    | cons he hes =>
    obtain ⟨hrel, d', hd', hreads⟩ := rel_of_get? he hd
    have hnot : ¬ ∃ members members', d.shape = .union members ∧ d'.shape = .union members' ∧
        List.Forall₂ ρ.NearEdge members members' := by
      rintro ⟨members, -, h, -⟩
      exact hu members h
    obtain ⟨-, hu'⟩ := (union_cases hreads).resolve_left hnot
    rw [TypeGraph.spliceInto_leaf hd' hu']
    refine ih hactive ?_ hes
    split
    · next hmem => rwa [if_pos ((mem_iff hout hrel).mp hmem)]
    · next hmem =>
      rw [if_neg fun h => hmem ((mem_iff hout hrel).mpr h)]
      exact List.rel_append hout (.cons hrel .nil)

/-- Unions that read alike have related members, in one order. -/
theorem flatMembers_alike {members members' : List Edge} (h : List.Forall₂ ρ.NearEdge members members') :
    Results (TypeFault.masked ρ.mask) (List.Forall₂ ρ.Rel) (g.flatMembers members) (g'.flatMembers members') :=
  spliceInto_alike .nil .nil h

end Renaming
end Avro
