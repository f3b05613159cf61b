import Avro.Proofs.Encoding.Depth
import Avro.Proofs.Lists
import Avro.Proofs.Renaming.Graph

/-!
# Encodings along a renaming

A value has encodings of related types that read alike: neither ends, or both give one JSON value, or both refuse the
value for reasons that read alike. This holds rule by rule of what a rule makes of the encodings of parts
(`encode_alike`), so of all encodings of one depth, and since the depth that is allowed is enough in each graph, of the
encodings (`encode_near`).
-/

namespace Avro

/-- The setting with another graph. -/
def Setting.over (cx : Setting) (g : TypeGraph) : Setting := { cx with graph := g }

namespace Encode

variable {α β γ δ : Type} {mask : TypeId → TypeId} {R : α → β → Prop}

/-- Neither encoding ends, or both have results that read alike. -/
def Alike (mask : TypeId → TypeId) (R : α → β → Prop) (x : Encode α) (y : Encode β) : Prop :=
  Option.Rel (Results (Mismatch.masked mask) R) x.outcome y.outcome

theorem Alike.refl (x : Encode α) : Alike mask Eq x x := by
  unfold Alike
  cases x.outcome with
  | none => exact .none
  | some r => exact .some (.refl r)

theorem alike_pure {a : α} {b : β} (h : R a b) : Alike mask R (pure a) (pure b) := .some (.ok h)

theorem alike_throw {m m' : Mismatch} (h : m.masked mask = m'.masked mask) : Alike mask R (throw m) (throw m') :=
  .some (.error h)

theorem Alike.bind {Q : γ → δ → Prop} {x : Encode α} {y : Encode β} {f : α → Encode γ} {k : β → Encode δ}
    (h : Alike mask R x y) (hfk : ∀ {a b}, R a b → Alike mask Q (f a) (k b)) : Alike mask Q (x >>= f) (y >>= k) := by
  unfold Alike at h ⊢
  rw [outcome_bind, outcome_bind]
  generalize x.outcome = r at h
  generalize y.outcome = r' at h
  cases h with
  | none => exact .none
  | some h =>
    cases h with
    | ok h => exact hfk h
    | error h => exact .some (.error h)

theorem Alike.map {Q : γ → δ → Prop} {x : Encode α} {y : Encode β} {f : α → γ} {k : β → δ} (h : Alike mask R x y)
    (hfk : ∀ {a b}, R a b → Q (f a) (k b)) : Alike mask Q (f <$> x) (k <$> y) := by
  rw [map_eq_pure_bind, map_eq_pure_bind]
  exact h.bind fun hab => alike_pure (hfk hab)

theorem Alike.within {x : Encode α} {y : Encode β} (h : Alike mask R x y) (s : Segment) :
    Alike mask R (x.within s) (y.within s) := by
  unfold Alike at h ⊢
  rw [outcome_within, outcome_within]
  generalize x.outcome = r at h
  generalize y.outcome = r' at h
  cases h with
  | none => exact .none
  | some h =>
    cases h with
    | ok h => exact .some (.ok h)
    | error h => exact .some (.error (congrArg (fun m => m.within s) h))

end Encode

namespace Renaming

open Encode

variable {cx : Setting} {g' : TypeGraph} {ρ : Renaming cx.graph g'} {enc enc' : TypeId → Value → Encode Json}
  {d d' : Descriptor} {v : Value}

theorem namespaceOf_eq (h : ρ.Reads d d') : cx.namespaceOf d = (cx.over g').namespaceOf d' := by
  unfold Setting.namespaceOf
  rw [h.origin]
  rfl

/-! ## Choices -/

/-- Choices of related members, with one encoding. -/
structure ChoiceAlike (ρ : Renaming cx.graph g') (c c' : Choice) : Prop where
  member : ρ.Rel c.member c'.member
  encoded : c.encoded = c'.encoded
  others : List.Forall₂ ρ.Rel c.others c'.others

theorem firstAccepting_alike {flat flat' : List TypeId}
    (henc : ∀ {a b}, ρ.Near a b → Alike ρ.mask Eq (enc a v) (enc' b v)) (h : List.Forall₂ ρ.Rel flat flat') :
    Option.Rel (Option.Rel (ChoiceAlike ρ)) (firstAccepting enc v flat) (firstAccepting enc' v flat') := by
  induction h with
  | nil => exact .some .none
  | @cons a b as bs hab hrest ih =>
    have hmember := henc (.inl hab)
    unfold Alike at hmember
    simp only [firstAccepting]
    generalize (enc a v).outcome = r at hmember
    generalize (enc' b v).outcome = r' at hmember
    cases hmember with
    | none => exact .none
    | some hr =>
      cases hr with
      | ok hj => exact .some (.some ⟨hab, hj, hrest⟩)
      | error _ =>
        generalize firstAccepting enc v as = c at ih
        generalize firstAccepting enc' v bs = c' at ih
        cases ih with
        | none => exact .none
        | some hc =>
          cases hc with
          | none => exact .some .none
          | some hc => exact .some (.some ⟨hc.member, hc.encoded, .cons hab hc.others⟩)

theorem choose_alike {flat flat' : List TypeId} (henc : ∀ {a b}, ρ.Near a b → Alike ρ.mask Eq (enc a v) (enc' b v))
    (h : List.Forall₂ ρ.Rel flat flat') :
    Alike ρ.mask (ChoiceAlike ρ) (choose cx.graph enc flat v) (choose g' enc' flat' v) := by
  have hnames : flat'.map g'.nameOf = flat.map cx.graph.nameOf :=
    map_eq_map_of_forall₂ h fun hab => (nameOf_eq hab).symm
  have hfirst := firstAccepting_alike henc h
  unfold choose
  generalize firstAccepting enc v flat = c at hfirst
  generalize firstAccepting enc' v flat' = c' at hfirst
  cases hfirst with
  | none => exact .none
  | some hc =>
    cases hc with
    | none => exact alike_throw (by rw [hnames])
    | some hc => exact alike_pure hc

/-! ## Parts of values -/

theorem encodeItems_alike {x y : Value → Encode Json} (h : ∀ v, Alike ρ.mask Eq (x v) (y v)) :
    ∀ (i : Nat) (vs : List Value), Alike ρ.mask Eq (Rule.encodeItems x i vs) (Rule.encodeItems y i vs)
  | _, [] => .refl _
  | i, v :: vs => ((h v).within _).bind fun hj => (encodeItems_alike h (i + 1) vs).bind fun hjs =>
    alike_pure (by rw [hj, hjs])

theorem encodeEntries_alike {x y : Value → Encode Json} (h : ∀ v, Alike ρ.mask Eq (x v) (y v)) :
    ∀ es : List (String × Value), Alike ρ.mask Eq (Rule.encodeEntries x es) (Rule.encodeEntries y es)
  | [] => .refl _
  | (_, v) :: es => ((h v).within _).bind fun hj => (encodeEntries_alike h es).bind fun hjs =>
    alike_pure (by rw [hj, hjs])

section Fields

variable {f f' : Field} {fs fs' : List Field} {es : List (String × Value)}

theorem givenValue?_eq (h : f.Alike ρ.NearEdge f') : Rule.givenValue? es f = Rule.givenValue? es f' := by
  rw [Rule.givenValue?, Rule.givenValue?, h.name, h.default]

theorem fieldName_eq (h : f.Alike ρ.NearEdge f') : cx.fieldName f = (cx.over g').fieldName f' := by
  unfold Setting.fieldName Setting.over
  rw [h.name, h.otherName]

theorem unknownKey?_eq (h : List.Forall₂ (Field.Alike ρ.NearEdge) fs fs') :
    Rule.unknownKey? fs es = Rule.unknownKey? fs' es := by
  have hany (key : String) : (fs.any fun f => f.name == key) = fs'.any fun f => f.name == key := by
    induction h with
    | nil => rfl
    | cons hf _ ih => rw [List.any_cons, List.any_cons, hf.name, ih]
  simp only [Rule.unknownKey?, hany]

theorem encodeFields_alike (henc : ∀ {a b} v, ρ.Near a b → Alike ρ.mask Eq (enc a v) (enc' b v))
    (h : List.Forall₂ (Field.Alike ρ.NearEdge) fs fs') :
    Alike ρ.mask Eq (Rule.encodeFields cx enc es fs) (Rule.encodeFields (cx.over g') enc' es fs') := by
  induction h with
  | nil => exact .refl _
  | @cons f f' fs fs' hf _ ih =>
    simp only [Rule.encodeFields, ← givenValue?_eq hf, ← fieldName_eq hf, ← hf.name]
    cases Rule.givenValue? es f with
    | none => exact alike_throw rfl
    | some v =>
      exact ((henc v hf.type).within _).bind fun hj => ih.bind fun hjs => alike_pure (by rw [hj, hjs])

end Fields

/-! ## Rules -/

/-- A rule of the library makes encodings that read alike of encodings of parts that do. -/
theorem encode_alike (henc : ∀ {a b} v, ρ.Near a b → Alike ρ.mask Eq (enc a v) (enc' b v)) (h : ρ.Reads d d')
    (v : Value) : ∀ r ∈ RuleTable.library, Alike ρ.mask Eq (r.encode cx enc d v) (r.encode (cx.over g') enc' d' v) := by
  have harray := isJsonArray_eq h
  obtain ⟨name, origin, doc, shape⟩ := d
  obtain ⟨name', origin', doc', shape'⟩ := d'
  obtain ⟨hname, -, -, hshape⟩ := h
  cases hname
  apply RuleTable.library_cases
  case json =>
    simp only [Rule.json, harray, Setting.over]
    exact .refl _
  case union =>
    cases hshape with
    | union hmembers =>
      have hflat := flatMembers_alike hmembers
      simp only [Rule.union, Rule.encodeUnion, Setting.over]
      generalize cx.graph.flatMembers _ = r at hflat
      generalize g'.flatMembers _ = r' at hflat
      cases hflat with
      | ok hflat => exact (choose_alike (henc v) hflat).bind fun hc => alike_pure hc.encoded
      | error hf => exact alike_throw (congrArg (fun f => Mismatch.here (.type f)) hf)
    | _ => exact .refl _
  case sequence =>
    cases hshape with
    | sequence helement =>
      cases v with
      | list items => exact (encodeItems_alike (fun v => henc v helement) 0 items).map (congrArg _)
      | _ => exact .refl _
    | _ => exact .refl _
  case map =>
    cases hshape with
    | map _ hvalue =>
      cases v with
      | dict es => exact (encodeEntries_alike (fun v => henc v hvalue) es).map (congrArg _)
      | _ => exact .refl _
    | _ => exact .refl _
  case record =>
    cases hshape with
    | record hfs =>
      cases v with
      | dict es =>
        simp only [Rule.record, Rule.encodeRecord, ← unknownKey?_eq hfs]
        split
        · exact .refl _
        · exact (encodeFields_alike henc hfs).map (congrArg _)
      | _ => exact .refl _
    | _ => exact .refl _
  all_goals cases hshape <;> exact .refl _

end Renaming

/-! ## Encodings -/

namespace Renaming

open Encode RuleTable

variable {cx : Setting} {g' : TypeGraph} {ρ : Renaming cx.graph g'} {t : RuleTable} (ht : t.OfLibrary) {a b : TypeId}
include ht

/-- Encodings of near types read alike if they are of one depth. -/
theorem encodeWithin_alike (n : Nat) {a b : TypeId} (v : Value) (h : ρ.Near a b) :
    Alike ρ.mask Eq (t.encodeWithin cx n a v) (t.encodeWithin (cx.over g') n b v) := by
  induction n generalizing a b v with
  | zero => exact .refl _
  | succ n ih =>
    simp only [encodeWithin, Setting.over]
    rcases get?_cases h with ⟨ha, hb, -⟩ | ⟨d, d', ha, hb, -, hd⟩
    · rw [ha, hb]
      exact .refl _
    · rw [ha, hb]
      simp only [← find_eq ht hd]
      cases hr : t.find cx.graph d with
      | error f => exact .refl _
      | ok r => exact encode_alike (fun v hab => ih v hab) hd v r (ht.of_find hr)

/-- **Encodings of near types read alike.** -/
theorem encode_near (v : Value) (h : ρ.Near a b) : Alike ρ.mask Eq (t.encode cx a v) (t.encode (cx.over g') b v) := by
  have hat (n : Nat) := encodeWithin_alike ht n v h
  unfold Alike at hat ⊢
  cases hx : (t.encode cx a v).outcome with
  | some r =>
    have hr := hat (encodeBound cx.graph v)
    rw [show (t.encodeWithin cx (encodeBound cx.graph v) a v).outcome = some r from hx] at hr
    cases hy : (t.encodeWithin (cx.over g') (encodeBound cx.graph v) b v).outcome with
    | none => rw [hy] at hr; cases hr
    | some r' =>
      rw [encode_of_encodeWithin ht _ r' hy]
      rwa [hy] at hr
  | none =>
    cases hy : (t.encode (cx.over g') b v).outcome with
    | none => exact .none
    | some r' =>
      -- the other encoding ends at its own depth, and so would this one
      have hr := hat (encodeBound g' v)
      rw [show (t.encodeWithin (cx.over g') (encodeBound g' v) b v).outcome = some r' from hy] at hr
      cases hx' : (t.encodeWithin cx (encodeBound g' v) a v).outcome with
      | none => rw [hx'] at hr; cases hr
      | some r => cases hx.symm.trans (encode_of_encodeWithin ht _ r hx')

end Renaming
end Avro
