import Avro.Proofs.Derivation.Ownership
import Avro.Proofs.Termination.Agreement

/-!
# Probes of a derivation

Whether a step gets to a certain point is found out by probes in its place, one for each error, which do what the step
does but fail there with their error. At a progress, either all the errors come through or no probe differs from the
step (`Derive.ProbedAt`). All ways to put steps together keep this, and they keep with it what a step leaves behind,
also one that fails: the same composite types are pending, and what is defined stays so, with more types under their
full names behind it (`Registry.Grows`).
-/

namespace Avro

/-! ## Registries that grow -/

/-- The type is a named one with a valid heading, and the text is its full name. -/
def Setting.Names (cx : Setting) (id : TypeId) (fullName : String) : Prop :=
  ∃ d, cx.graph.get? id = some d ∧ d.isNamed = true ∧ cx.ValidHeading d ∧ fullName = cx.fullNameOf d

/-- More types are defined, behind those that were, each under its full name. -/
def Registry.Grows (cx : Setting) (r r' : Registry) : Prop :=
  ∃ more, r'.entries = r.entries ++ more ∧ ∀ e ∈ more, cx.Names e.1 e.2

section Grows

variable {cx : Setting} {r r' r'' : Registry} {id : TypeId} {fullName : String}

theorem Registry.Grows.refl (r : Registry) : r.Grows cx r := ⟨[], by simp, by simp⟩

theorem Registry.Grows.trans (h : r.Grows cx r') (h' : r'.Grows cx r'') : r.Grows cx r'' := by
  obtain ⟨more, hr, hmore⟩ := h
  obtain ⟨more', hr', hmore'⟩ := h'
  exact ⟨more ++ more', by rw [hr', hr, List.append_assoc], List.forall_mem_append.mpr ⟨hmore, hmore'⟩⟩

theorem Registry.Grows.define (r : Registry) (h : cx.Names id fullName) :
    r.Grows cx ⟨r.entries ++ [(id, fullName)]⟩ := ⟨[(id, fullName)], rfl, by simpa using h⟩

/-- A type that is defined keeps its name. -/
theorem Registry.Grows.nameOf? (h : r.Grows cx r') (hname : r.nameOf? id = some fullName) :
    r'.nameOf? id = some fullName := by
  obtain ⟨more, hr, -⟩ := h
  unfold Registry.nameOf? at hname ⊢
  rw [Option.map_eq_some_iff] at hname ⊢
  obtain ⟨e, he, hfst⟩ := hname
  exact ⟨e, by rw [hr, List.find?_append, he, Option.some_or], hfst⟩

/-- A name that is taken stays with its type. -/
theorem Registry.Grows.ownerOf? (h : r.Grows cx r') (howner : r.ownerOf? fullName = some id) :
    r'.ownerOf? fullName = some id := by
  obtain ⟨more, hr, -⟩ := h
  unfold Registry.ownerOf? at howner ⊢
  rw [Option.map_eq_some_iff] at howner ⊢
  obtain ⟨e, he, hsnd⟩ := howner
  exact ⟨e, by rw [hr, List.find?_append, he, Option.some_or], hsnd⟩

/-- From the start on, all types that are defined are so under their full names. -/
theorem Registry.Grows.names (h : ({} : Registry).Grows cx r) (hname : r.nameOf? id = some fullName) :
    cx.Names id fullName := by
  obtain ⟨more, hr, hmore⟩ := h
  obtain ⟨⟨i, name⟩, he, rfl⟩ := Option.map_eq_some_iff.mp hname
  obtain rfl : i = id := by simpa using List.find?_some he
  exact hmore _ (by simpa [hr] using List.mem_of_find?_eq_some he)

end Grows

namespace Derive

variable {α β : Type} {cx : Setting} {r : Registry} {pending : List TypeId} {G : Prop} {s : Progress}

/-! ## Probes -/

/-- The error of each probe comes through. -/
def Fails (s : Progress) (probe : SchemaError → Derive α) : Prop :=
  ∀ e, ∃ u, (probe e).runFrom s = some (.error e, u)

/-- What a step from the progress leaves behind, whether it succeeds or fails. -/
def Keeps (cx : Setting) (s : Progress) (x : Derive α) : Prop :=
  ∀ o u, x.runFrom s = some (o, u) → u.pending = s.pending ∧ s.registry.Grows cx u.registry

/-- From the progress, either all errors come through, and then `G` holds, or no probe differs from the step. -/
structure ProbedAt (cx : Setting) (G : Prop) (s : Progress) (x : Derive α) (probe : SchemaError → Derive α) : Prop where
  outcome : G ∧ Fails s probe ∨ ∀ e, (probe e).runFrom s = x.runFrom s
  kept : Keeps cx s x

/-- The step is probed wherever these types are pending and no less than this is defined. -/
def Probed (cx : Setting) (r : Registry) (pending : List TypeId) (G : Prop) (x : Derive α)
    (probe : SchemaError → Derive α) : Prop :=
  ∀ s : Progress, s.pending = pending → r.Grows cx s.registry → ProbedAt cx G s x probe

/-- Errors that come through cannot all be the outcome of one step. -/
theorem not_fails (s : Progress) (x : Derive α) : ¬ Fails s fun _ => x := by
  intro h
  obtain ⟨u, hu⟩ := h .endlessDefault
  obtain ⟨u', hu'⟩ := h (.type (.gone 0))
  cases hu.symm.trans hu'

theorem ProbedAt.of_fails {x : Derive α} {probe : SchemaError → Derive α} (h : ProbedAt cx G s x probe)
    (hfails : Fails s probe) : G := by
  rcases h.outcome with hG | hsame
  · exact hG.1
  · exact absurd (fun e => hsame e ▸ hfails e) (not_fails s x)

theorem Probed.imp {G' : Prop} {x : Derive α} {probe : SchemaError → Derive α} (h : Probed cx r pending G x probe)
    (hG : G → G') : Probed cx r pending G' x probe :=
  fun s hs hr => ⟨(h s hs hr).outcome.imp_left (And.imp_left hG), (h s hs hr).kept⟩

/-! ## Steps without points to get to -/

/-- A step that gets to no such point is its own probe. -/
theorem probed_self {x : Derive α} (h : ∀ s, Keeps cx s x) : Probed cx r pending G x fun _ => x :=
  fun s _ _ => ⟨.inr fun _ => rfl, h s⟩

theorem keeps_pure (s : Progress) (a : α) : Keeps cx s (pure a) := by
  rintro _ _ ⟨⟩
  exact ⟨rfl, .refl _⟩

theorem keeps_throw (s : Progress) (e : SchemaError) : Keeps cx s (throw e : Derive α) := by
  rintro _ _ ⟨⟩
  exact ⟨rfl, .refl _⟩

theorem probed_pure (a : α) : Probed cx r pending G (pure a) fun _ => pure a := probed_self fun s => keeps_pure s a

theorem probed_throw (e : SchemaError) : Probed cx r pending G (throw e : Derive α) fun _ => throw e :=
  probed_self fun s => keeps_throw s e

theorem probed_ofFault (o : Except TypeFault α) : Probed cx r pending G (ofFault o) fun _ => ofFault o := by
  cases o with
  | ok a => exact probed_pure a
  | error f => exact probed_throw _

/-- A name is claimed for a type, which defines the type under it if it is new. -/
theorem probed_claim {id : TypeId} {fullName : String} (h : cx.Names id fullName) :
    Probed cx r pending G (claim id fullName) fun _ => claim id fullName := by
  refine probed_self fun s o u hrun => ?_
  rw [runFrom_claim, Registry.claim] at hrun
  split at hrun
  · next c hclaim =>
    obtain ⟨-, rfl⟩ := Prod.mk.inj (Option.some.inj hrun)
    refine ⟨rfl, ?_⟩
    cases hname : s.registry.nameOf? id with
    | some known =>
      rw [hname] at hclaim
      cases hclaim
      exact .refl _
    | none =>
      rw [hname] at hclaim
      cases howner : s.registry.ownerOf? fullName with
      | some owner =>
        rw [howner] at hclaim
        cases hclaim
      | none =>
        rw [howner] at hclaim
        cases hclaim
        exact .define _ h
  · obtain ⟨-, rfl⟩ := Prod.mk.inj (Option.some.inj hrun)
    exact ⟨rfl, .refl _⟩

/-! ## Putting steps together -/

section Monad

variable {x : Derive α} {probe : SchemaError → Derive α}

/-- What steps after steps leave behind, the later ones behind what the earlier ones yield. -/
theorem Keeps.bind_of_yields {f : α → Derive β} (h : Keeps cx s x) (hf : ∀ {a u}, x.Yields s a u → Keeps cx u (f a)) :
    Keeps cx s (x >>= f) := by
  intro o u hrun
  rw [runFrom_bind] at hrun
  cases hx : x.runFrom s with
  | none => simp [hx] at hrun
  | some p =>
    obtain ⟨o', t⟩ := p
    obtain ⟨hpending, hgrows⟩ := h _ _ hx
    rw [hx, Option.bind_some] at hrun
    cases o' with
    | error e =>
      cases hrun
      exact ⟨hpending, hgrows⟩
    | ok a =>
      obtain ⟨hpending', hgrows'⟩ := hf hx _ _ hrun
      exact ⟨hpending'.trans hpending, hgrows.trans hgrows'⟩

/-- Steps after steps are probed if both are, the later ones from what the earlier ones yield. -/
theorem Probed.bind_of_yields {f : α → Derive β} {g : SchemaError → α → Derive β} (h : Probed cx r pending G x probe)
    (hf : ∀ {s a u}, x.Yields s a u → Probed cx r pending G (f a) fun e => g e a) :
    Probed cx r pending G (x >>= f) fun e => probe e >>= g e := by
  intro s hs hr
  obtain ⟨hout, hkept⟩ := h s hs hr
  -- what is pending and defined behind the first step is again what the later ones are probed from
  have hlater : ∀ {a u}, x.Yields s a u → ProbedAt cx G u (f a) fun e => g e a := fun {a u} hx =>
    hf hx u ((hkept _ _ hx).1.trans hs) (hr.trans (hkept _ _ hx).2)
  refine ⟨?_, hkept.bind_of_yields fun hx => (hlater hx).kept⟩
  rcases hout with ⟨hG, hfails⟩ | hsame
  · refine .inl ⟨hG, fun e => ?_⟩
    obtain ⟨u, hu⟩ := hfails e
    exact ⟨u, by rw [runFrom_bind, hu]; rfl⟩
  · simp only [Fails, runFrom_bind, hsame]
    cases hx : x.runFrom s with
    | none => exact .inr fun _ => rfl
    | some p =>
      obtain ⟨o, u⟩ := p
      cases o with
      | error e => exact .inr fun _ => rfl
      | ok a => exact (hlater hx).outcome

theorem Probed.bind {f : α → Derive β} {g : SchemaError → α → Derive β} (h : Probed cx r pending G x probe)
    (hf : ∀ a, Probed cx r pending G (f a) fun e => g e a) :
    Probed cx r pending G (x >>= f) fun e => probe e >>= g e := h.bind_of_yields fun _ => hf _

theorem Probed.map (h : Probed cx r pending G x probe) (f : α → β) :
    Probed cx r pending G (f <$> x) fun e => f <$> probe e := by
  simp only [map_eq_pure_bind]
  exact h.bind fun a => probed_pure (f a)

/-- The encoding of a default gets to no point of a derivation. -/
theorem probed_ofEncode (field : String) (e : Encode α) :
    Probed cx r pending G (ofEncode field e) fun _ => ofEncode field e := by
  have hattempt : Probed cx r pending G (attempt e) fun _ => attempt e := by
    refine probed_self fun s o u hrun => ?_
    obtain ⟨_, -, hu⟩ := Option.map_eq_some_iff.mp hrun
    cases hu
    exact ⟨rfl, .refl _⟩
  refine hattempt.bind fun o => ?_
  cases o with
  | ok a => exact probed_pure a
  | error m => exact probed_throw _

theorem runFrom_withPending (inner : List TypeId) (x : Derive α) : (withPending inner x).runFrom s =
    (x.runFrom { s with pending := inner }).map fun p => (p.1, { p.2 with pending := s.pending }) := rfl

/-- A step with other composite types pending is probed if it is so where they are. -/
theorem Probed.withPending {inner : List TypeId} (h : Probed cx r inner G x probe) :
    Probed cx r pending G (withPending inner x) fun e => withPending inner (probe e) := by
  intro s _ hr
  obtain ⟨hout, hkept⟩ := h { s with pending := inner } rfl hr
  constructor
  · rcases hout with ⟨hG, hfails⟩ | hsame
    · refine .inl ⟨hG, fun e => ?_⟩
      obtain ⟨u, hu⟩ := hfails e
      exact ⟨{ u with pending := s.pending }, by rw [runFrom_withPending, hu, Option.map_some]⟩
    · exact .inr fun e => by rw [runFrom_withPending, runFrom_withPending, hsame]
  · intro o u hrun
    obtain ⟨p, hp, hu⟩ := Option.map_eq_some_iff.mp hrun
    cases hu
    exact ⟨rfl, (hkept _ _ hp).2⟩

end Monad

/-! ## Occurrences of types -/

section Occurrences

variable {id : TypeId} {d : Descriptor}

/-- No composite type is pending inside the definition of a named type. -/
theorem probed_namedSchema {body : Header → Derive Schema} {probe : SchemaError → Header → Derive Schema}
    (hget : cx.graph.get? id = some d) (hn : d.isNamed = true)
    (h : ∀ header, Probed cx r [] G (body header) fun e => probe e header) :
    Probed cx r pending G (namedSchema cx id d body) fun e => namedSchema cx id d (probe e) := by
  have hnamed : Probed cx r pending G (named cx id d body) fun e => named cx id d (probe e) := by
    refine (probed_ofFault _).bind_of_yields fun hcheck => ?_
    refine (probed_ofFault _).bind_of_yields fun hns => ?_
    obtain ⟨hns, hvalid⟩ := Setting.namespaceOf_ok.mp (yields_ofFault.mp hns).1
    have hheading : cx.ValidHeading d := ⟨(yields_ofFault.mp hcheck).1, hvalid⟩
    refine (probed_claim ⟨d, hget, hn, hheading, by rw [hns]; rfl⟩).bind fun c => ?_
    cases c with
    | known fullName => exact probed_pure _
    | fresh => exact (h _).withPending.map _
  refine hnamed.bind fun o => ?_
  cases o <;> exact probed_pure _

theorem runFrom_unnamed (x : Derive α) : (unnamed id d x).runFrom s =
    if id ∈ s.pending then some (.error (.type (.unsupported (.partOfItself d.name))), s)
    else (withPending (id :: s.pending) x).runFrom s := by
  unfold unnamed
  rw [runFrom_bind]
  show (if id ∈ s.pending then throw _ else withPending (id :: s.pending) x : Derive α).runFrom s = _
  split <;> rfl

/-- A composite type is pending, together with those before it, while its parts are derived. -/
theorem probed_unnamed {x : Derive α} {probe : SchemaError → Derive α} (h : Probed cx r (id :: pending) G x probe) :
    Probed cx r pending G (unnamed id d x) fun e => unnamed id d (probe e) := by
  rintro s rfl hr
  by_cases hmem : id ∈ s.pending
  · have hrun : ∀ {y : Derive α}, (unnamed id d y).runFrom s =
        (throw (.type (.unsupported (.partOfItself d.name))) : Derive α).runFrom s := by
      intro y
      rw [runFrom_unnamed, if_pos hmem, runFrom_throw]
    exact ⟨.inr fun e => hrun.trans hrun.symm, fun o u ho => keeps_throw s _ o u (hrun ▸ ho)⟩
  · have hrun : ∀ {y : Derive α}, (unnamed id d y).runFrom s = (withPending (id :: s.pending) y).runFrom s := by
      intro y
      rw [runFrom_unnamed, if_neg hmem]
    have hinner : Probed cx r s.pending G (withPending (id :: s.pending) x) fun e =>
        withPending (id :: s.pending) (probe e) := h.withPending
    obtain ⟨hout, hkept⟩ := hinner s rfl hr
    exact ⟨by simpa only [Fails, hrun] using hout, by simpa only [Keeps, hrun] using hkept⟩

end Occurrences

/-! ## Lists of steps -/

section Lists

variable {schema : TypeId → Derive Schema} {probe : SchemaError → TypeId → Derive Schema}

theorem probed_schemas : ∀ {ids : List TypeId},
    (∀ m ∈ ids, Probed cx r pending G (schema m) fun e => probe e m) →
      Probed cx r pending G (schemas (cx.partsBy schema) ids) fun e => schemas (cx.partsBy (probe e)) ids
  | [], _ => probed_pure []
  | _ :: _, h => (h _ List.mem_cons_self).bind fun _ =>
    (probed_schemas fun m hm => h m (List.mem_cons_of_mem _ hm)).bind fun _ => probed_pure _

theorem probed_unionOf {ids : List TypeId} (h : ∀ m ∈ ids, Probed cx r pending G (schema m) fun e => probe e m) :
    Probed cx r pending G (unionOf (cx.partsBy schema) ids) fun e => unionOf (cx.partsBy (probe e)) ids :=
  (probed_schemas h).map _

theorem probed_shownDefault (name : String) (f : Field) :
    Probed cx r pending G ((cx.partsBy schema).shownDefault name f) fun e =>
      (cx.partsBy (probe e)).shownDefault name f := by
  unfold Parts.shownDefault
  cases f.default with
  | none => exact probed_pure none
  | some v => exact (probed_ofEncode _ _).map _

/-- The members of a union are derived for a field with a default, and else the type itself is. -/
def FieldParts (cx : Setting) (f : Field) (d : Descriptor) (m : TypeId) : Prop :=
  f.Splices d ∧ (∃ members flat, d.shape = .union members ∧ cx.graph.flatMembers members = .ok flat ∧ m ∈ flat) ∨
    ¬ f.Splices d ∧ m = f.type.target

theorem probed_fieldType {name : String} {f : Field} {d : Descriptor}
    (h : ∀ m, FieldParts cx f d m → Probed cx r pending G (schema m) fun e => probe e m) :
    Probed cx r pending G (fieldType cx (cx.partsBy schema) name f d) fun e =>
      fieldType cx (cx.partsBy (probe e)) name f d := by
  by_cases hs : f.Splices d
  · obtain ⟨v, hv⟩ := Option.isSome_iff_exists.mp hs.left
    obtain ⟨members, hu⟩ := hs.right
    simp only [fieldType_of_union hv hu]
    refine (probed_ofFault _).bind_of_yields fun hflat => ?_
    refine (probed_ofEncode _ _).bind_of_yields fun hc => ?_
    refine (probed_unionOf fun m hm => h m (.inl ?_)).map _
    have hmem := (orderFor_choose (yields_ofEncode.mp hc).1).mem.mp hm
    exact ⟨hs, members, _, hu, (yields_ofFault.mp hflat).1, hmem⟩
  · simp only [fieldType_of_not_splices hs]
    exact (h _ (.inr ⟨hs, rfl⟩)).bind fun _ => (probed_shownDefault _ _).map _

theorem probed_field {f : Field}
    (h : ∀ d m, cx.graph.get? f.type.target = some d → FieldParts cx f d m →
      Probed cx r pending G (schema m) fun e => probe e m) :
    Probed cx r pending G (field cx (cx.partsBy schema) f) fun e => field cx (cx.partsBy (probe e)) f := by
  simp only [field_eq]
  refine (probed_ofFault _).bind fun _ => ?_
  have hcheck : Probed cx r pending G
      (if cx.options.defaultsMandatory && f.default.isNone then
        throw (.invalidDefault (cx.fieldName f) (.here .noDefault)) else pure () : Derive Unit)
      fun _ => if cx.options.defaultsMandatory && f.default.isNone then
        throw (.invalidDefault (cx.fieldName f) (.here .noDefault)) else pure () := by
    split
    · exact probed_throw _
    · exact probed_pure _
  refine hcheck.bind fun _ => (probed_ofFault _).bind_of_yields fun hd => ?_
  have hget := TypeGraph.follow_ok.mp (yields_ofFault.mp hd).1
  exact (probed_fieldType fun m => h _ m hget).map _

theorem probed_fields {record : String} : ∀ {taken : List String} {fs : List Field},
    (∀ m, Probed cx r pending G (schema m) fun e => probe e m) →
      Probed cx r pending G (fields cx (cx.partsBy schema) record taken fs) fun e =>
        fields cx (cx.partsBy (probe e)) record taken fs
  | _, [], _ => probed_pure []
  | taken, _ :: _, h => (probed_field fun _ m _ _ => h m).bind fun sf => by
    by_cases htaken : sf.name ∈ taken
    · simp only [if_pos htaken]
      exact probed_throw _
    · simp only [if_neg htaken]
      exact (probed_fields h).bind fun _ => probed_pure _

end Lists

end Derive
end Avro
