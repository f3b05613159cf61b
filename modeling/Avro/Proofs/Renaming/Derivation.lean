import Avro.Proofs.Derivation.Fields
import Avro.Proofs.Renaming.Encoding
import Avro.Proofs.Termination.Agreement

/-!
# Derivations along a renaming

Progress in two graphs reads alike (`Progress.Alike`) if related types are defined, under one name and in one order, and
related types are pending. Two steps read alike from some progress on (`Derive.Alike`) if from progress that reads alike
neither of them ends, or both end with results that read alike and with progress that does. What is defined stays so on
both sides, so that there is depth for the steps after.
-/

namespace Avro

open List (Forall₂)

variable {cx : Setting} {g' : TypeGraph}

/-- Related types are defined under one name, and related types are pending. -/
structure Progress.Alike (ρ : Renaming cx.graph g') (s s' : Progress) : Prop where
  registry : Forall₂ (fun x y => ρ.Rel x.1 y.1 ∧ x.2 = y.2) s.registry.entries s'.registry.entries
  pending : Forall₂ ρ.Rel s.pending s'.pending

theorem optionRel_imp {α β : Type} {R Q : α → β → Prop} (hRQ : ∀ {a b}, R a b → Q a b) {x : Option α} {y : Option β}
    (h : Option.Rel R x y) : Option.Rel Q x y := by
  cases h with
  | some h => exact .some (hRQ h)
  | none => exact .none

section Registry

variable {ρ : Renaming cx.graph g'} {s s' : Progress} {a b : TypeId}

/-- Related types have the same name, if they are defined. -/
theorem Progress.Alike.nameOf?_eq (h : s.Alike ρ s') (hab : ρ.Rel a b) :
    s.registry.nameOf? a = s'.registry.nameOf? b := by
  have hfind := rel_find? (p := fun e => e.1 == a) (q := fun e => e.1 == b) h.registry fun {x y} hxy => by
    rw [Bool.eq_iff_iff, beq_iff_eq, beq_iff_eq]
    exact ρ.inj hxy.1 hab
  unfold Registry.nameOf?
  generalize s.registry.entries.find? _ = r at hfind
  generalize s'.registry.entries.find? _ = r' at hfind
  cases hfind with
  | none => rfl
  | some h => exact congrArg some h.2

/-- A name is taken on both sides or on neither. -/
theorem Progress.Alike.ownerOf?_eq (h : s.Alike ρ s') (fullName : String) :
    (s.registry.ownerOf? fullName).isSome = (s'.registry.ownerOf? fullName).isSome := by
  have hfind := rel_find? (p := fun e => e.2 == fullName) (q := fun e => e.2 == fullName) h.registry fun hxy => by
    rw [hxy.2]
  unfold Registry.ownerOf?
  generalize s.registry.entries.find? _ = r at hfind
  generalize s'.registry.entries.find? _ = r' at hfind
  cases hfind <;> rfl

theorem Progress.Alike.define (h : s.Alike ρ s') (hab : ρ.Rel a b) (fullName : String) :
    (s.define a fullName).Alike ρ (s'.define b fullName) :=
  ⟨List.rel_append h.registry (.cons ⟨hab, rfl⟩ .nil), h.pending⟩

theorem Progress.Alike.withPending (h : s.Alike ρ s') {ids ids' : List TypeId} (hids : Forall₂ ρ.Rel ids ids') :
    { s with pending := ids }.Alike ρ { s' with pending := ids' } := ⟨h.registry, hids⟩

end Registry

namespace Derive

variable {α β γ δ : Type} {ρ : Renaming cx.graph g'} {R : α → β → Prop} {s s' : Progress}

/-- What runs from `t` and `t'` come to: no end on both sides, or results and progress that read alike. -/
def RunsAlike (ρ : Renaming cx.graph g') (R : α → β → Prop) (t t' : Progress) :
    Option (Except SchemaError α × Progress) → Option (Except SchemaError β × Progress) → Prop :=
  Option.Rel fun p q => Results (SchemaError.masked ρ.mask) R p.1 q.1 ∧ p.2.Alike ρ q.2 ∧ t.Before p.2 ∧ t'.Before q.2

/-- From this progress on, both steps read alike. -/
def Alike (ρ : Renaming cx.graph g') (R : α → β → Prop) (s s' : Progress) (x : Derive α) (y : Derive β) : Prop :=
  ∀ t t', s.Before t → s'.Before t' → t.Alike ρ t' → RunsAlike ρ R t t' (x.runFrom t) (y.runFrom t')

/-! ## Putting steps together -/

theorem Alike.mono {t t' : Progress} {x : Derive α} {y : Derive β} (h : Alike ρ R s s' x y) (hst : s.Before t)
    (hst' : s'.Before t') : Alike ρ R t t' x y :=
  fun u u' hu hu' => h u u' (hst.trans hu) (hst'.trans hu')

theorem alike_pure {a : α} {b : β} (h : R a b) : Alike ρ R s s' (pure a) (pure b) :=
  fun t t' _ _ ht => .some ⟨.ok h, ht, .refl t, .refl t'⟩

theorem alike_throw {e e' : SchemaError} (h : e.masked ρ.mask = e'.masked ρ.mask) :
    Alike ρ R s s' (throw e : Derive α) (throw e' : Derive β) :=
  fun t t' _ _ ht => .some ⟨.error h, ht, .refl t, .refl t'⟩

theorem alike_ofFault {x : Except TypeFault α} {y : Except TypeFault β} (h : Results (TypeFault.masked ρ.mask) R x y) :
    Alike ρ R s s' (ofFault x) (ofFault y) := by
  cases h with
  | ok h => exact alike_pure h
  | error h => exact alike_throw (congrArg SchemaError.type h)

/-- Steps after steps read alike if they do from what the steps before come to. -/
theorem Alike.bind_of_yields {Q : γ → δ → Prop} {x : Derive α} {y : Derive β} {f : α → Derive γ} {k : β → Derive δ}
    (h : Alike ρ R s s' x y) (hfk : ∀ {t t' a b u u'}, s.Before t → s'.Before t' → t.Alike ρ t' → x.Yields t a u →
      y.Yields t' b u' → R a b → Alike ρ Q u u' (f a) (k b)) : Alike ρ Q s s' (x >>= f) (y >>= k) := by
  intro t t' hst hst' ht
  have hrun := h t t' hst hst' ht
  rw [runFrom_bind, runFrom_bind]
  cases hx : x.runFrom t <;> cases hy : y.runFrom t' <;> rw [hx, hy] at hrun <;> cases hrun
  · exact .none
  · next p q hpq =>
    obtain ⟨r, u⟩ := p
    obtain ⟨r', u'⟩ := q
    obtain ⟨hr, hu, htu, htu'⟩ := hpq
    cases hr with
    | error he => exact .some ⟨.error he, hu, htu, htu'⟩
    | ok hab =>
      have hrest := hfk hst hst' ht hx hy hab u u' (.refl u) (.refl u') hu
      exact optionRel_imp (fun ⟨hr, hw, huw, huw'⟩ => ⟨hr, hw, htu.trans huw, htu'.trans huw'⟩) hrest

theorem Alike.bind {Q : γ → δ → Prop} {x : Derive α} {y : Derive β} {f : α → Derive γ} {k : β → Derive δ}
    (h : Alike ρ R s s' x y) (hfk : ∀ {a b}, R a b → Alike ρ Q s s' (f a) (k b)) :
    Alike ρ Q s s' (x >>= f) (y >>= k) := by
  refine h.bind_of_yields fun {t t' a b u u'} hst hst' ht hx hy hab => ?_
  have hrun := h t t' hst hst' ht
  rw [hx, hy] at hrun
  cases hrun with
  | some hrun => exact (hfk hab).mono (hst.trans hrun.2.2.1) (hst'.trans hrun.2.2.2)

theorem Alike.map {Q : γ → δ → Prop} {x : Derive α} {y : Derive β} {f : α → γ} {k : β → δ} (h : Alike ρ R s s' x y)
    (hfk : ∀ {a b}, R a b → Q (f a) (k b)) : Alike ρ Q s s' (f <$> x) (k <$> y) := by
  rw [map_eq_pure_bind, map_eq_pure_bind]
  exact h.bind fun hab => alike_pure (hfk hab)

/-- The encodings of defaults that read alike make steps that do. -/
theorem alike_ofEncode {x : Encode α} {y : Encode β} (h : x.Alike ρ.mask R y) (field : String) :
    Alike ρ R s s' (ofEncode field x) (ofEncode field y) := by
  have hattempt : Alike ρ (Results (Mismatch.masked ρ.mask) R) s s' (attempt x) (attempt y) := by
    intro t t' _ _ ht
    show RunsAlike ρ _ t t' (x.outcome.map _) (y.outcome.map _)
    unfold Encode.Alike at h
    generalize x.outcome = r at h
    generalize y.outcome = r' at h
    cases h with
    | none => exact .none
    | some h => exact .some ⟨.ok h, ht, .refl t, .refl t'⟩
  refine hattempt.bind fun {r r'} hr => ?_
  cases hr with
  | ok h => exact alike_pure h
  | error h => exact alike_throw (congrArg (SchemaError.invalidDefault field) h)

theorem Alike.withPending {x : Derive α} {y : Derive β} {ids ids' : List TypeId} (hids : Forall₂ ρ.Rel ids ids')
    (h : Alike ρ R { s with pending := ids } { s' with pending := ids' } x y) :
    Alike ρ R s s' (withPending ids x) (withPending ids' y) := by
  intro t t' hst hst' ht
  have hrun := h { t with pending := ids } { t' with pending := ids' } ⟨hst.ids, rfl⟩ ⟨hst'.ids, rfl⟩
    (ht.withPending hids)
  show RunsAlike ρ R t t' ((x.runFrom { t with pending := ids }).map _) ((y.runFrom { t' with pending := ids' }).map _)
  generalize x.runFrom _ = r at hrun
  generalize y.runFrom _ = r' at hrun
  cases hrun with
  | none => exact .none
  | some hrun =>
    obtain ⟨hr, hu, htu, htu'⟩ := hrun
    exact .some ⟨hr, hu.withPending ht.pending, ⟨htu.ids, rfl⟩, ⟨htu'.ids, rfl⟩⟩

/-- From the start, steps that read alike have results that do. -/
theorem Alike.result_eq {x y : Derive α} (h : Alike ρ Eq {} {} x y) :
    x.result.mapError (SchemaError.masked ρ.mask) = y.result.mapError (SchemaError.masked ρ.mask) := by
  have hrun := h {} {} (.refl _) (.refl _) ⟨.nil, .nil⟩
  unfold Derive.result
  generalize x.runFrom {} = r at hrun
  generalize y.runFrom {} = r' at hrun
  cases hrun with
  | none => rfl
  | some hrun => exact hrun.1.mapError_eq

/-! ## Occurrences of types -/

section Occurrences

variable {a b : TypeId} {d d' : Descriptor}

/-- Related types claim one name alike. -/
theorem alike_claim (hab : ρ.Rel a b) (fullName : String) : Alike ρ Eq s s' (claim a fullName) (claim b fullName) := by
  intro t t' _ _ ht
  rw [runFrom_claim, runFrom_claim, Registry.claim, Registry.claim, ← ht.nameOf?_eq hab]
  cases t.registry.nameOf? a with
  | some name => exact .some ⟨.ok rfl, ht, .refl t, .refl t'⟩
  | none =>
    have howner := ht.ownerOf?_eq fullName
    cases ho : t.registry.ownerOf? fullName <;> cases ho' : t'.registry.ownerOf? fullName <;>
      rw [ho, ho'] at howner <;> cases howner
    · exact .some ⟨.ok rfl, ht.define hab fullName, t.before_define a fullName, t'.before_define b fullName⟩
    · exact .some ⟨.error rfl, ht, .refl t, .refl t'⟩

/-- Occurrences of related named types read alike if their definitions do at the first occurrence. -/
theorem alike_namedSchema {body body' : Header → Derive Schema} (hab : ρ.Rel a b) (hd : ρ.Reads d d')
    (h : ∀ {t t' : Progress} (header : Header) (fullName : String), s.Before t → s'.Before t' → a ∉ t.ids → b ∉ t'.ids →
      Alike ρ Eq { t.define a fullName with pending := [] } { t'.define b fullName with pending := [] }
        (body header) (body' header)) :
    Alike ρ Eq s s' (namedSchema cx a d body) (namedSchema (cx.over g') b d' body') := by
  have hns := Renaming.namespaceOf_eq hd
  have hnamed : Alike ρ Eq s s' (named cx a d body) (named (cx.over g') b d' body') := by
    unfold named
    rw [← hns, ← hd.name, ← hd.doc]
    refine (alike_ofFault (.refl _)).bind fun _ => (alike_ofFault (.refl _)).bind fun {ns ns'} hns => ?_
    subst hns
    refine (alike_claim hab _).bind_of_yields fun {t t' c c' u u'} hst hst' ht hclaim hclaim' hc => ?_
    subst hc
    rcases yields_claim.mp hclaim with ⟨known, -, rfl, -⟩ | ⟨hnew, -, rfl, rfl⟩
    · exact alike_pure rfl
    · obtain ⟨_, _, hc, -⟩ | ⟨hnew', -, -, rfl⟩ := yields_claim.mp hclaim'
      · cases hc
      · refine (Alike.withPending .nil ?_).map (congrArg _)
        exact h _ _ hst hst' (Progress.not_mem_ids hnew) (Progress.not_mem_ids hnew')
  refine hnamed.bind fun {o o'} ho => ?_
  subst ho
  cases o <;> exact alike_pure rfl

/-- Occurrences of related composite types read alike if their parts do where the types are not pending yet. -/
theorem alike_unnamed {x : Derive α} {y : Derive β} (hab : ρ.Rel a b) (hd : ρ.Reads d d')
    (h : ∀ {t t' : Progress}, s.Before t → s'.Before t' → a ∉ t.pending → b ∉ t'.pending →
      Alike ρ R { t with pending := a :: t.pending } { t' with pending := b :: t'.pending } x y) :
    Alike ρ R s s' (unnamed a d x) (unnamed b d' y) := by
  have hget : Alike ρ (fun t t' => t.Alike ρ t') s s' (get : Derive Progress) get :=
    fun t t' _ _ ht => .some ⟨.ok ht, ht, .refl t, .refl t'⟩
  refine hget.bind_of_yields fun {t t' p p' u u'} hst hst' ht hp hp' _ => ?_
  obtain ⟨rfl, rfl⟩ := yields_get.mp hp
  obtain ⟨rfl, rfl⟩ := yields_get.mp hp'
  have hpending := Renaming.mem_iff ht.pending hab
  by_cases hmem : a ∈ u.pending
  · rw [if_pos hmem, if_pos (hpending.mp hmem), hd.name]
    exact alike_throw rfl
  · have hmem' : b ∉ u'.pending := fun h => hmem (hpending.mpr h)
    rw [if_neg hmem, if_neg hmem']
    exact (h hst hst' hmem hmem').withPending (.cons hab ht.pending)

end Occurrences

/-! ## Lists of steps -/

section Lists

variable {p p' : Parts} (hschema : ∀ {a b}, ρ.Near a b → Alike ρ Eq s s' (p.schema a) (p'.schema b))
include hschema

theorem alike_schemas {ids ids' : List TypeId} (h : Forall₂ ρ.Rel ids ids') :
    Alike ρ Eq s s' (schemas p ids) (schemas p' ids') := by
  induction h with
  | nil => exact alike_pure rfl
  | cons hab _ ih =>
    exact (hschema (.inl hab)).bind fun hσ => ih.bind fun hσs => alike_pure (by rw [hσ, hσs])

theorem alike_unionOf {ids ids' : List TypeId} (h : Forall₂ ρ.Rel ids ids') :
    Alike ρ Eq s s' (unionOf p ids) (unionOf p' ids') := (alike_schemas hschema h).map (congrArg _)

variable (henc : ∀ {a b} v, ρ.Near a b → (p.encode a v).Alike ρ.mask Eq (p'.encode b v))
include henc

omit hschema in
theorem alike_shownDefault {f f' : Field} (hf : f.Alike ρ.NearEdge f') (name : String) :
    Alike ρ Eq s s' (p.shownDefault name f) (p'.shownDefault name f') := by
  unfold Parts.shownDefault
  rw [← hf.default]
  cases f.default with
  | none => exact alike_pure rfl
  | some v => exact (alike_ofEncode (henc v hf.type) name).map (congrArg _)

theorem alike_fieldType {f f' : Field} {d d' : Descriptor} (hf : f.Alike ρ.NearEdge f') (hd : ρ.Reads d d')
    (name : String) : Alike ρ Eq s s' (fieldType cx p name f d) (fieldType (cx.over g') p' name f' d') := by
  by_cases hs : f.Splices d
  · obtain ⟨hsome, members, hu⟩ := hs
    obtain ⟨v, hv⟩ := Option.isSome_iff_exists.mp hsome
    obtain ⟨_, members', hu₁, hu', hmembers⟩ := (Renaming.union_cases hd).resolve_right fun h => h.1 _ hu
    cases hu.symm.trans hu₁
    rw [fieldType_of_union hv hu, fieldType_of_union (hf.default ▸ hv) hu']
    refine (alike_ofFault (Renaming.flatMembers_alike hmembers)).bind fun hflat => ?_
    refine (alike_ofEncode (Renaming.choose_alike (henc v) hflat) name).bind fun hc => ?_
    exact (alike_unionOf hschema (.cons hc.member hc.others)).map fun hσ => by rw [hσ, hc.encoded]
  · have hs' : ¬ f'.Splices d' := by
      rintro ⟨hsome, members', hu'⟩
      obtain ⟨members, _, hu, -⟩ := (Renaming.union_cases hd).resolve_right fun h => h.2 _ hu'
      exact hs ⟨hf.default ▸ hsome, members, hu⟩
    rw [fieldType_of_not_splices hs, fieldType_of_not_splices hs']
    refine (hschema hf.type).bind fun hσ => ?_
    exact (alike_shownDefault henc hf name).map fun hj => by rw [hσ, hj]

theorem alike_field {f f' : Field} (hf : f.Alike ρ.NearEdge f') :
    Alike ρ Eq s s' (field cx p f) (field (cx.over g') p' f') := by
  rw [field_eq, field_eq, ← Renaming.fieldName_eq hf, ← hf.default, ← hf.doc]
  refine (alike_ofFault (.refl _)).bind fun _ => ?_
  have hcheck : Alike ρ Eq s s'
      (if cx.options.defaultsMandatory && f.default.isNone then
        throw (.invalidDefault (cx.fieldName f) (.here .noDefault)) else pure () : Derive Unit)
      (if cx.options.defaultsMandatory && f.default.isNone then
        throw (.invalidDefault (cx.fieldName f) (.here .noDefault)) else pure ()) := by
    split
    · exact alike_throw rfl
    · exact alike_pure rfl
  refine hcheck.bind fun _ => (alike_ofFault (Renaming.follow_alike hf.type)).bind fun hd => ?_
  exact (alike_fieldType hschema henc hf hd _).map fun h => by rw [h]; rfl

theorem alike_fields {fs fs' : List Field} (record : String) (taken : List String)
    (h : Forall₂ (Field.Alike ρ.NearEdge) fs fs') :
    Alike ρ Eq s s' (fields cx p record taken fs) (fields (cx.over g') p' record taken fs') := by
  induction h generalizing taken with
  | nil => exact alike_pure rfl
  | cons hf _ ih =>
    refine (alike_field hschema henc hf).bind fun {sf sf'} hsf => ?_
    subst hsf
    split
    · exact alike_throw rfl
    · exact (ih _).bind fun hss => alike_pure (by rw [hss])

end Lists

end Derive
end Avro
