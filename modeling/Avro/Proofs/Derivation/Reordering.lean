import Avro.Proofs.Conformance.Null
import Avro.Proofs.Derivation.Ownership

/-!
# The members of a union in the order for a default

A field with a default, whose type is a union, can go three ways. If all members refuse the default, so does the field
(`field_refused`). If some member accepts it behind members that refuse it, the field shows that member first, then all
others as they stand, and the default as that member encodes it (`field_accepted`). If the encoding for a member has no
end behind members that refuse the default, neither has the field (`field_endless`). There is no fourth way
(`Setting.refuses_or_first`), so `field_movesOne` says all of such a field.

The default may as well be encoded for the member in front once the members are in order: there is one and it accepts
the default, so what is done where it does not has no effect (`reorderedType_eq`).
-/

namespace Avro

open RuleTable

/-! ## Members that neither accept nor refuse -/

namespace Encode

variable {g : TypeGraph} {encode : TypeId → Value → Encode Json} {v : Value} {m : TypeId}

/-- A member for which the encoding has no end hides all behind it. -/
theorem choose_endless {after : List TypeId} (hend : (encode m v).outcome = none) {before : List TypeId}
    (hbefore : ∀ b ∈ before, ∃ e, (encode b v).outcome = some (.error e)) :
    (choose g encode (before ++ m :: after) v).outcome = none := by
  have hfirst : firstAccepting encode v (before ++ m :: after) = none := by
    induction before with
    | nil => simp [firstAccepting, hend]
    | cons b before ih =>
      obtain ⟨⟨e, he⟩, hbefore⟩ := List.forall_mem_cons.mp hbefore
      rw [List.cons_append, firstAccepting, he, ih hbefore]
      rfl
  unfold choose
  rw [hfirst]
  rfl

end Encode

/-- What a type does not refuse it accepts, if the encoding has an end. -/
theorem Setting.accepts_or_endless {cx : Setting} {m : TypeId} {v : Value} (h : ¬ cx.Refuses m v) :
    cx.Accepts m v ∨ (standard.encode cx m v).outcome = none := by
  cases hm : (standard.encode cx m v).outcome with
  | none => exact .inr rfl
  | some r =>
    cases r with
    | ok j => exact .inl ⟨j, hm⟩
    | error e => exact absurd ⟨e, hm⟩ h

/-! ## Fields -/

namespace Derive

variable {cx : Setting} {parts : Parts} {name : String} {s : Progress}

/-- The encoding of a default makes no progress, and its mismatch is one of the field. -/
theorem runFrom_ofEncode {α : Type} {e : Encode α} : (ofEncode name e).runFrom s =
    e.outcome.map fun r => (r.mapError (.invalidDefault name), s) := by
  have hattempt : (attempt e).runFrom s = e.outcome.map fun r => (.ok r, s) := rfl
  unfold ofEncode
  rw [runFrom_bind, hattempt]
  cases e.outcome with
  | none => rfl
  | some r => cases r <;> rfl

/-- The default as the first of the members encodes it, with what is done where it refuses, and where there is none. -/
def encodedByFirst (parts : Parts) (refused : Mismatch → Derive Json) (noMember : Derive Json) (v : Value) :
    List TypeId → Derive Json
  | [] => noMember
  | m :: _ => do
    match ← attempt (parts.encode m v) with
    | .ok j => pure j
    | .error e => refused e

/-- The type of a field in two passes: the members are put in order, then the first of them encodes the default. -/
def reorderedType (cx : Setting) (parts : Parts) (name : String) (refused : Mismatch → Derive Json)
    (noMember : Derive Json) (v : Value) (members : List Edge) : Derive (Schema × Option Json) := do
  let flat ← ofFault (cx.graph.flatMembers members)
  let order ← ofEncode name (Choice.order <$> Encode.choose cx.graph parts.encode flat v)
  let encoded ← encodedByFirst parts refused noMember v order
  let schema ← unionOf parts order
  pure (schema, some encoded)

/-- The member that a default belongs to is there and accepts it again. -/
theorem encodedByFirst_order {g : TypeGraph} {flat : List TypeId} {v : Value} {c : Choice}
    {refused : Mismatch → Derive Json} {noMember : Derive Json}
    (hc : (Encode.choose g parts.encode flat v).outcome = some (.ok c)) :
    (encodedByFirst parts refused noMember v c.order).runFrom s = some (.ok c.encoded, s) := by
  obtain ⟨_, _, -, -, hok, -⟩ := Encode.choose_ok_iff.mp hc
  have hattempt : (attempt (parts.encode c.member v)).runFrom s = some (.ok (.ok c.encoded), s) := by
    show ((parts.encode c.member v).outcome.map fun r => (Except.ok r, s)) = _
    rw [hok]
    rfl
  rw [Choice.order, encodedByFirst, runFrom_bind, hattempt]
  rfl

/-- **Two passes do what one does**, whatever is done where the first member refuses or where there is none. -/
theorem reorderedType_eq {f : Field} {d : Descriptor} {v : Value} {members : List Edge} (hv : f.default = some v)
    (hd : d.shape = .union members) (refused : Mismatch → Derive Json) (noMember : Derive Json) :
    (reorderedType cx parts name refused noMember v members).runFrom s = (fieldType cx parts name f d).runFrom s := by
  rw [fieldType_of_union hv hd, reorderedType]
  cases cx.graph.flatMembers members with
  | error e => rfl
  | ok flat =>
    simp only [ofFault, pure_bind, runFrom_bind, runFrom_ofEncode, Encode.outcome_map]
    cases hc : (Encode.choose cx.graph parts.encode flat v).outcome with
    | none => rfl
    | some r =>
      cases r with
      | error e => rfl
      | ok c =>
        simp only [Option.map_some, Option.bind_some, Except.map, Except.mapError, encodedByFirst_order hc,
          runFrom_map]
        cases (unionOf parts c.order).runFrom s with
        | none => rfl
        | some r =>
          obtain ⟨r, u⟩ := r
          cases r <;> rfl

end Derive

section Fields

open Derive

variable {cx : Setting} {n : Nat} {s s' : Progress} {f : Field} {v : Value} {flat before after : List TypeId}
  {m : TypeId} {j : Json} {sf : SchemaField Schema}

/-- The field has a name that may be, the default, and a union of the members for its type. -/
structure Setting.UnionField (cx : Setting) (f : Field) (v : Value) (flat : List TypeId) : Prop where
  name : Name.check (cx.fieldName f) = .ok ()
  default : f.default = some v
  type : ∃ d members, cx.graph.get? f.type.target = some d ∧ d.shape = .union members ∧
    cx.graph.flatMembers members = .ok flat

variable (h : cx.UnionField f v flat)
include h

theorem Setting.UnionField.ready {d : Descriptor} (hget : cx.graph.get? f.type.target = some d) : cx.FieldReady f d :=
  ⟨h.name, fun _ => by simp [h.default], hget⟩

/-- Behind the checks, the member is chosen and the members are derived in its order. -/
theorem field_of_union (parts : Parts) : field cx parts f =
    ofEncode (cx.fieldName f) (Encode.choose cx.graph parts.encode flat v) >>= fun c =>
      (fun σs => ⟨cx.fieldName f, .union σs, cx.fieldDoc f.doc, some c.encoded⟩) <$> schemas parts c.order := by
  obtain ⟨d, members, hget, hd, hflat⟩ := h.type
  rw [field_of_ready (h.ready hget), fieldType_of_union h.default hd, hflat]
  simp only [ofFault, pure_bind, unionOf, map_eq_pure_bind, bind_assoc]

/-- If all members refuse the default, so does the field, and no progress is made. -/
theorem field_refused (hall : ∀ m ∈ flat, cx.Refuses m v) :
    (field cx (standard.partsWithin cx n) f).runFrom s = some (.error (.invalidDefault (cx.fieldName f)
      (.expected ("one of [" ++ ", ".intercalate (flat.map cx.graph.nameOf) ++ "]") v)), s) := by
  rw [field_of_union h, runFrom_bind, runFrom_ofEncode]
  rw [show (Encode.choose cx.graph (standard.partsWithin cx n).encode flat v).outcome = _ from
    Encode.choose_refused hall]
  rfl

/-- The member that accepts the default comes first, and the others as they stand. -/
theorem field_accepted (hflat : flat = before ++ m :: after) (hbefore : ∀ b ∈ before, cx.Refuses b v)
    (hj : (standard.encode cx m v).outcome = some (.ok j)) :
    (field cx (standard.partsWithin cx n) f).runFrom s =
      ((fun σs => ⟨cx.fieldName f, .union σs, cx.fieldDoc f.doc, some j⟩) <$>
        schemas (standard.partsWithin cx n) (m :: (before ++ after))).runFrom s := by
  have hc : (Encode.choose cx.graph (standard.partsWithin cx n).encode flat v).outcome =
      some (.ok ⟨m, j, before ++ after⟩) :=
    Encode.choose_ok_iff.mpr ⟨before, after, hflat, rfl, hj, hbefore⟩
  rw [field_of_union h, runFrom_bind, runFrom_ofEncode, hc]
  rfl

/-- If the encoding for a member behind members that refuse has no end, neither has the field. -/
theorem field_endless (hflat : flat = before ++ m :: after) (hbefore : ∀ b ∈ before, cx.Refuses b v)
    (hend : (standard.encode cx m v).outcome = none) :
    (field cx (standard.partsWithin cx n) f).runFrom s = none := by
  subst hflat
  rw [field_of_union h, runFrom_bind, runFrom_ofEncode]
  rw [show (Encode.choose cx.graph (standard.partsWithin cx n).encode _ v).outcome = none from
    Encode.choose_endless hend hbefore]
  rfl

/-- A field that succeeds shows the member that accepts the default, then the others as they stand. -/
theorem moved_of_yields (hyields : (field cx (standard.partsWithin cx n) f).Yields s sf s') :
    ∃ before m after j σs, flat = before ++ m :: after ∧ (∀ b ∈ before, cx.Refuses b v) ∧
      (standard.encode cx m v).outcome = some (.ok j) ∧ Threaded (Runs cx n) s (m :: (before ++ after)) σs s' ∧
      sf = ⟨cx.fieldName f, .union σs, cx.fieldDoc f.doc, some j⟩ := by
  obtain ⟨d, members, hget, hd, hflat⟩ := h.type
  obtain ⟨before, m, after, j, σs, hflat', hj, hbefore, hσs, hsf⟩ :=
    (yields_field_of_splices (h.ready hget) h.default hd).mp hyields
  cases hflat.symm.trans hflat'
  exact ⟨before, m, after, j, σs, rfl, hbefore, hj, hσs, hsf⟩

omit h in
theorem runs_null {id : TypeId} {d : Descriptor} {σ : Schema} (hget : cx.graph.get? id = some d)
    (hd : d.shape = .basic .null) (hσ : Runs cx n s id σ s') : σ = .primitive .null := by
  cases n with
  | zero => exact absurd hσ runs_zero
  | succ n =>
    have hleaf : Leaf cx d σ :=
      ((leaf_step hget (by simp [TypeGraph.isParted, hd]) (by simp [Descriptor.isNamed, hd])).mp
        (runs_succ_iff.mp hσ)).1
    rw [leaf_iff, hd] at hleaf
    obtain ⟨p, hp, rfl⟩ := hleaf
    cases hp
    rfl

/-- If the default is null, the first member is, and it is shown as null. -/
theorem null_first (hv : v = .null) (hyields : (field cx (standard.partsWithin cx n) f).Yields s sf s') :
    ∃ σs, sf.type = .union (.primitive .null :: σs) ∧ sf.default = some .null := by
  obtain ⟨d, members, hget, hd, hflat⟩ := h.type
  obtain ⟨before, m, after, j, σs, rfl, -, hj, hσs, rfl⟩ := moved_of_yields h hyields
  subst hv
  obtain ⟨e, he, hleaf⟩ := leaf_of_mem hget hd hflat m (by simp)
  obtain ⟨rfl, hhas⟩ := ((encode_null_iff cx m).2.1 j).mp hj
  have hnull : e.shape = .basic .null := takesNull_null.mp ((encode_null_leaf he hleaf).mp hj)
  cases hσs with
  | cons hσ _ => exact ⟨_, by rw [runs_null he hnull hσ], rfl⟩

end Fields

/-! ## All of a field -/

/-- What happens to a field with a default, whose type is a union of the members, from some progress. -/
structure MovesOne (cx : Setting) (n : Nat) (s : Progress) (f : Field) (v : Value) (flat : List TypeId) : Prop where
  /-- If all members refuse the default, the field is refused for it. -/
  refused : (∀ m ∈ flat, cx.Refuses m v) →
    (Derive.field cx (standard.partsWithin cx n) f).runFrom s = some (.error (.invalidDefault (cx.fieldName f)
      (.expected ("one of [" ++ ", ".intercalate (flat.map cx.graph.nameOf) ++ "]") v)), s)
  /-- If no member accepts it, all refuse it, or an encoding and so the field has no end. -/
  unaccepted : (∀ m ∈ flat, ¬ cx.Accepts m v) → (∀ m ∈ flat, cx.Refuses m v) ∨
    (∃ m ∈ flat, (standard.encode cx m v).outcome = none) ∧
      (Derive.field cx (standard.partsWithin cx n) f).runFrom s = none
  /-- If no member accepts it and all encodings have an end, the field is refused for it. -/
  failed : (∀ m ∈ flat, ¬ cx.Accepts m v) → (∀ m ∈ flat, (standard.encode cx m v).outcome ≠ none) →
    (Derive.field cx (standard.partsWithin cx n) f).runFrom s = some (.error (.invalidDefault (cx.fieldName f)
      (.expected ("one of [" ++ ", ".intercalate (flat.map cx.graph.nameOf) ++ "]") v)), s)
  /-- The first member that accepts it is derived first, then all others in order, and nothing else can go wrong. -/
  accepted : ∀ {before m after j}, flat = before ++ m :: after → (∀ b ∈ before, cx.Refuses b v) →
    (standard.encode cx m v).outcome = some (.ok j) →
    (Derive.field cx (standard.partsWithin cx n) f).runFrom s =
      ((fun σs => ⟨cx.fieldName f, .union σs, cx.fieldDoc f.doc, some j⟩) <$>
        Derive.schemas (standard.partsWithin cx n) (m :: (before ++ after))).runFrom s
  /-- A field that succeeds shows each member once, in that order, and the default as the first one encodes it. -/
  moved : ∀ {sf s'}, (Derive.field cx (standard.partsWithin cx n) f).Yields s sf s' →
    ∃ before m after j σs, flat = before ++ m :: after ∧ (∀ b ∈ before, cx.Refuses b v) ∧
      (standard.encode cx m v).outcome = some (.ok j) ∧ (m :: (before ++ after)).Perm flat ∧
      (m :: (before ++ after)).Nodup ∧ Threaded (Runs cx n) s (m :: (before ++ after)) σs s' ∧
      sf = ⟨cx.fieldName f, .union σs, cx.fieldDoc f.doc, some j⟩
  /-- If the default is null, the first member is. -/
  null : v = .null → ∀ {sf s'}, (Derive.field cx (standard.partsWithin cx n) f).Yields s sf s' →
    ∃ σs, sf.type = .union (.primitive .null :: σs) ∧ sf.default = some .null
  /-- What is done where the first member in the order refuses the default, or is not there, has no effect. -/
  unreached : ∀ {d members}, cx.graph.get? f.type.target = some d → d.shape = .union members →
    ∀ (refused : Mismatch → Derive Json) (noMember : Derive Json),
      (Derive.reorderedType cx (standard.partsWithin cx n) (cx.fieldName f) refused noMember v members).runFrom s =
        (Derive.fieldType cx (standard.partsWithin cx n) (cx.fieldName f) f d).runFrom s

/-- **A default moves the first member that accepts it to the front, and that member encodes it.** If no member accepts
it, the field is refused for it, unless an encoding has no end. -/
theorem field_movesOne {cx : Setting} {f : Field} {v : Value} {flat : List TypeId} (h : cx.UnionField f v flat) (n : Nat)
    (s : Progress) : MovesOne cx n s f v flat where
  refused hall := field_refused h hall
  unaccepted hno := by
    rcases cx.refuses_or_first v flat with hall | ⟨before, m, after, hflat, hbefore, hm⟩
    · exact .inl hall
    · have hmem : m ∈ flat := by simp [hflat]
      have hend : (standard.encode cx m v).outcome = none :=
        (Setting.accepts_or_endless hm).resolve_left (hno m hmem)
      exact .inr ⟨⟨m, hmem, hend⟩, field_endless h hflat hbefore hend⟩
  failed hno hends := field_refused h fun m hm => by
    by_contra hrefuses
    exact (Setting.accepts_or_endless hrefuses).elim (hno m hm) (hends m hm)
  accepted hflat hbefore hj := field_accepted h hflat hbefore hj
  moved hyields := by
    obtain ⟨before, m, after, j, σs, rfl, hbefore, hj, hσs, hsf⟩ := moved_of_yields h hyields
    obtain ⟨d, members, -, -, hflat⟩ := h.type
    have hperm : (m :: (before ++ after)).Perm (before ++ m :: after) := List.perm_middle.symm
    exact ⟨before, m, after, j, σs, rfl, hbefore, hj, hperm,
      hperm.nodup_iff.mpr (TypeGraph.nodup_flatMembers hflat), hσs, hsf⟩
  null hv _ _ hyields := null_first h hv hyields
  unreached _ hd refused noMember := Derive.reorderedType_eq h.default hd refused noMember

/-- The link of a list to the rest of it, or a label, or nothing. -/
def link : Field := { name := "next", type := { target := 1 }, default := some .null }

/-- A list, whose links are a union of two unions. -/
def links : Setting :=
  .of ⟨#[
    some { name := "Node", shape := .record [link] },
    some { name := "Union", shape := .union [{ target := 0, weak := true }, { target := 2 }] },
    some { name := "Optional", shape := .union [{ target := 3 }, { target := 4 }] },
    some { name := "str", shape := .basic .string },
    some { name := "None", shape := .basic .null }]⟩ {} none

/-- While a list is being derived, its link has nothing first, then the list and the label. -/
theorem movesOne_link : links.UnionField link .null [0, 3, 4] ∧
    (Derive.field links (standard.partsWithin links 1) link).Yields (Progress.define {} 0 "Node")
      ⟨"next", .union [.primitive .null, .reference "Node", .primitive .string], none, some .null⟩
      (Progress.define {} 0 "Node") ∧
    MovesOne links 1 (Progress.define {} 0 "Node") link .null [0, 3, 4] := by
  have hfield : links.UnionField link .null [0, 3, 4] := ⟨rfl, rfl, _, _, rfl, rfl, by cbv⟩
  exact ⟨hfield, by cbv, field_movesOne hfield 1 _⟩

/-! ## A default that needs itself, and a document that is null -/

/-- A link of a ring to the next one, which by default is a link that has its own default. -/
def ringLink : Field := { name := "next", type := { target := 1 }, default := some (.dict []) }

/-- A ring of links. -/
def linkRing : Setting :=
  .of ⟨#[
    some { name := "Ring", shape := .record [ringLink] },
    some { name := "Union", shape := .union [{ target := 0, weak := true }] }]⟩ {} none

/-- However deep it may go, the encoding of a link without entries has no end: it asks for itself. -/
theorem encodeWithin_linkRing (n : Nat) : (standard.encodeWithin linkRing n 0 (.dict [])).outcome = none ∧
    (standard.encodeWithin linkRing n 1 (.dict [])).outcome = none := by
  induction n with
  | zero => exact ⟨rfl, rfl⟩
  | succ n ih =>
    obtain ⟨hlink, hunion⟩ := ih
    constructor
    · show (Rule.encodeRecord linkRing (standard.encodeWithin linkRing n) "Ring" [ringLink] (.dict [])).outcome = none
      have hknown : Rule.unknownKey? [ringLink] [] = none := rfl
      have hgiven : Rule.givenValue? [] ringLink = some (.dict []) := rfl
      have htarget : ringLink.type.target = 1 := rfl
      simp only [Rule.encodeRecord, Rule.encodeFields, hknown, hgiven, htarget, hunion, Encode.outcome_map,
        Encode.outcome_bind, Encode.outcome_within, Option.bind_none, Option.map_none]
    · show (Rule.encodeUnion linkRing.graph (standard.encodeWithin linkRing n) [{ target := 0, weak := true }]
        (.dict [])).outcome = none
      have hflat : linkRing.graph.flatMembers [{ target := 0, weak := true }] = .ok [0] := by cbv
      simp only [Rule.encodeUnion, hflat, Encode.choose, Encode.firstAccepting, hlink]
      rfl

/-- A field with a document that is null, for a type that is known by its name only, or null. -/
def nullDocument : Field := { name := "next", type := { target := 0 }, default := some (.json .null) }

/-- That type or null. -/
def namedOrNull : Setting :=
  .of ⟨#[
    some { name := "Union", shape := .union [{ target := 1 }, { target := 2 }] },
    some { name := "Node", shape := .forward "Node" },
    some { name := "None", shape := .basic .null }]⟩ {} none

/-- No member accepts a default that needs itself, but its field is not refused: it has no end. And a default that is
shown as null can have the type that is known by its name before null. -/
theorem unaccepted_endless : linkRing.UnionField ringLink (.dict []) [0] ∧ ¬ linkRing.Accepts 0 (.dict []) ∧
    (∀ n, (standard.encodeWithin linkRing n 0 (.dict [])).outcome = none) ∧
    (∀ n s, (Derive.field linkRing (standard.partsWithin linkRing n) ringLink).runFrom s = none) ∧
    namedOrNull.UnionField nullDocument (.json .null) [1, 2] ∧
    (Derive.field namedOrNull (standard.partsWithin namedOrNull 1) nullDocument).Yields {}
      ⟨"next", .union [.reference "Node", .primitive .null], none, some .null⟩ {} := by
  have hring : linkRing.UnionField ringLink (.dict []) [0] := ⟨rfl, rfl, _, _, rfl, rfl, by cbv⟩
  have hnamed : namedOrNull.UnionField nullDocument (.json .null) [1, 2] := ⟨rfl, rfl, _, _, rfl, rfl, by cbv⟩
  have hflat : [0] = [] ++ 0 :: ([] : List TypeId) := rfl
  have hend : (standard.encode linkRing 0 (.dict [])).outcome = none := (encodeWithin_linkRing _).1
  have hno : ¬ linkRing.Accepts 0 (.dict []) := by
    rintro ⟨j, hj⟩
    simp [hend] at hj
  exact ⟨hring, hno, fun n => (encodeWithin_linkRing n).1,
    fun n s => field_endless hring hflat (by simp) hend, hnamed, by cbv⟩

end Avro
