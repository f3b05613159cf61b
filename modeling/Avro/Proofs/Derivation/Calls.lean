import Avro.Proofs.Derivation.Probes

/-!
# What is pending during a derivation

The derivation of a type calls for derivations of other types, each from the progress that has been made by then
(`Derive.Calls`, by probes). The calls that are open around one of them are a stack of frames (`Entered`): composite
types without a name, whose parts are being derived, and named types, which are being defined. Pending are the composite
types of the frames in front of the innermost definition, and behind a derivation, one that fails too, the same types as
before it (`derivation_keeps_state`). A union that the field of a record splices opens no frame.
-/

namespace Avro

open RuleTable

/-! ## Frames -/

/-- What is open while the parts of a type are derived. -/
inductive Frame where
  /-- A composite type without a name. -/
  | composite (id : TypeId)
  /-- The definition of a named type. -/
  | definition (id : TypeId)
deriving DecidableEq

namespace Frame

def isComposite : Frame → Bool
  | .composite _ => true
  | .definition _ => false

@[simp] theorem isComposite_composite (id : TypeId) : (composite id).isComposite = true := rfl

@[simp] theorem isComposite_definition (id : TypeId) : (definition id).isComposite = false := rfl

/-- The types that are pending inside the frame, of those that are pending outside. -/
def pend : Frame → List TypeId → List TypeId
  | .composite id, pending => id :: pending
  | .definition _, _ => []

/-- Pending in a stack are the composite types in front of the first definition, and with none, those from before. -/
theorem mem_foldr_pend_iff {i : TypeId} {pending : List TypeId} {fs : List Frame} :
    i ∈ fs.foldr pend pending ↔
      .composite i ∈ fs.takeWhile isComposite ∨ (∀ f ∈ fs, f.isComposite = true) ∧ i ∈ pending := by
  induction fs with
  | nil => simp
  | cons f fs ih =>
    cases f with
    | composite id => simp [pend, List.takeWhile_cons, ih, or_assoc]
    | definition id => simp [pend]

end Frame

/-- The frame that the derivation of a type opens around its parts: one for a named type or for a composite one. -/
def Setting.frame? (cx : Setting) (id : TypeId) : Option Frame :=
  (cx.graph.get? id).bind fun d =>
    if d.isNamed then some (.definition id) else if cx.graph.isParted d then some (.composite id) else none

/-- The frame is of a type of its kind. -/
def Setting.Opens (cx : Setting) : Frame → Prop
  | .composite id => ∃ d, cx.graph.get? id = some d ∧ cx.graph.isParted d = true
  | .definition id => ∃ d, cx.graph.get? id = some d ∧ d.isNamed = true

theorem TypeGraph.not_named_of_isParted {g : TypeGraph} {d : Descriptor} (hp : g.isParted d = true) :
    d.isNamed = false := by
  unfold TypeGraph.isParted at hp
  unfold Descriptor.isNamed
  cases hd : d.shape <;> simp_all

theorem Setting.frame?_of_parted {cx : Setting} {id : TypeId} {d : Descriptor} (hget : cx.graph.get? id = some d)
    (hp : cx.graph.isParted d = true) : cx.frame? id = some (.composite id) := by
  simp [Setting.frame?, hget, hp, TypeGraph.not_named_of_isParted hp]

theorem Setting.opens_of_frame? {cx : Setting} {id : TypeId} {f : Frame} (h : cx.frame? id = some f) : cx.Opens f := by
  obtain ⟨d, hget, hf⟩ := Option.bind_eq_some_iff.mp h
  split at hf
  · next hn =>
    cases hf
    exact ⟨d, hget, hn⟩
  · split at hf <;> cases hf
    next hp => exact ⟨d, hget, hp⟩

/-! ## Calls -/

namespace Derive

/-- The derivations by `schema`, but the one of the type `m` from the progress `t` fails with the error. -/
def failAt (schema : TypeId → Derive Schema) (m : TypeId) (t : Progress) (e : SchemaError) (id : TypeId) :
    Derive Schema :=
  ExceptT.mk fun s => if id = m ∧ s = t then some (.error e, s) else (schema id).run s

/--
From the progress `s`, a step that derives types by `schema` gets to the derivation of `m` from `t`: with whatever error
that one fails, the step fails.
-/
def Calls {α : Type} (step : (TypeId → Derive Schema) → Derive α) (schema : TypeId → Derive Schema) (s : Progress)
    (m : TypeId) (t : Progress) : Prop := Fails s fun e => step (failAt schema m t e)

/-- A derivation is probed by failing at one type and one progress, where it may be called for. -/
theorem probed_failAt {cx : Setting} {r : Registry} {pending : List TypeId} {schema : TypeId → Derive Schema}
    {m id : TypeId} {t : Progress} (h : ∀ s, Keeps cx s (schema id)) :
    Probed cx r pending (id = m ∧ t.pending = pending ∧ r.Grows cx t.registry) (schema id) fun e =>
      failAt schema m t e id := by
  intro s hs hr
  refine ⟨?_, h s⟩
  by_cases hhere : id = m ∧ s = t
  · obtain ⟨rfl, rfl⟩ := hhere
    exact .inl ⟨⟨rfl, hs, hr⟩, fun e => ⟨s, if_pos ⟨rfl, rfl⟩⟩⟩
  · exact .inr fun e => if_neg hhere

end Derive

namespace Setting

/-- Derives the schema of a type by the rules of the library, at most so many types deep. -/
abbrev schemaWithin (cx : Setting) (n : Nat) : TypeId → Derive Schema := standard.schemaWithin cx (standard.encode cx) n

/-- Derives the schema of a type by the rule of the library for it, and the types that it calls for by `schema`. -/
def opened (cx : Setting) (schema : TypeId → Derive Schema) (id : TypeId) : Derive Schema :=
  match cx.graph.get? id with
  | none => throw (.type (.gone id))
  | some d => do
    let rule ← Derive.ofFault (standard.find cx.graph d)
    rule.schema cx (cx.partsBy schema) id d

theorem opened_schemaWithin (cx : Setting) (n : Nat) : cx.opened (cx.schemaWithin n) = cx.schemaWithin (n + 1) := rfl

end Setting

/--
A derivation of `root` from `s`, at most `n` types deep, has got to the derivation of a type from some progress, at most
so many types deep, inside these frames, the innermost first.
-/
inductive Entered (cx : Setting) (n : Nat) (s : Progress) (root : TypeId) :
    Nat → List Frame → Progress → TypeId → Prop
  | start : Entered cx n s root n [] s root
  | call {k : Nat} {fs : List Frame} {t u : Progress} {id m : TypeId} :
      Entered cx n s root (k + 1) fs t id → Derive.Calls (cx.opened · id) (cx.schemaWithin k) t m u →
      Entered cx n s root k ((cx.frame? id).toList ++ fs) u m

/-! ## Types without a name -/

namespace Derive

/-- The keys of a map have to be strings, which is seen to before the map is pending. -/
def checkKeys (cx : Setting) (d : Descriptor) : Derive Unit :=
  match d.shape with
  | .map key _ => do
    let k ← ofFault (cx.graph.follow key)
    if k.isBasic .string then pure () else throw (.type (.unsupported (.mapKeys d.name k.name)))
  | _ => pure ()

/-- The schema of a composite type without a name, from those of its parts. -/
def composed (cx : Setting) (parts : Parts) (d : Descriptor) : Derive Schema :=
  match d.shape with
  | .union members => union cx parts members
  | .sequence element => .array <$> parts.schema element.target
  | .map _ value => .map <$> parts.schema value.target
  | _ => Rule.refuse d

/--
A step with a type among the pending ones: it is put there, at fault if it is there already, and taken away behind the
step, one that fails too.
-/
def marked {α : Type} (id : TypeId) (d : Descriptor) (step : Derive α) : Derive α :=
  ExceptT.mk fun s =>
    if id ∈ s.pending then some (.error (.type (.unsupported (.partOfItself d.name))), s)
    else
      (step.run { s with pending := id :: s.pending }).map fun p => (p.1, { p.2 with pending := p.2.pending.erase id })

/-- Where a step leaves pending what was so before it, the type is taken away and nothing else. -/
theorem unnamed_eq_marked {α : Type} {cx : Setting} {id : TypeId} {d : Descriptor} {step : Derive α}
    (h : ∀ s, Keeps cx s step) : unnamed id d step = marked id d step := by
  funext s
  show (unnamed id d step).runFrom s = (marked id d step).runFrom s
  rw [runFrom_unnamed]
  show _ = if id ∈ s.pending then _ else _
  split
  · rfl
  · show ((step.runFrom _).map _) = (step.runFrom _).map _
    refine Option.map_congr fun ⟨o, u⟩ hu => ?_
    rw [(h _ o u hu).1, List.erase_cons_head]

end Derive

section Opened

variable {cx : Setting} {id : TypeId} {d : Descriptor}

theorem opened_eq {rule : Rule} (schema : TypeId → Derive Schema) (hget : cx.graph.get? id = some d)
    (hr : cx.graph.ruleFor? d = some rule) : cx.opened schema id = rule.schema cx (cx.partsBy schema) id d := by
  simp only [Setting.opened, hget, standard_find_ok.mpr hr, Derive.ofFault, pure_bind]

/-- The rules for composite types without a name are one: they derive the parts while the type is pending. -/
theorem opened_of_parted (schema : TypeId → Derive Schema) (hget : cx.graph.get? id = some d)
    (hp : cx.graph.isParted d = true) : cx.opened schema id =
      Derive.checkKeys cx d >>= fun _ => Derive.unnamed id d (Derive.composed cx (cx.partsBy schema) d) := by
  unfold TypeGraph.isParted at hp
  cases hd : d.shape with
  | union members =>
    rw [opened_eq schema hget (TypeGraph.ruleFor?_union hd)]
    simp only [Rule.union, Rule.unionSchema, Derive.checkKeys, Derive.composed, hd, pure_bind]
  | sequence element =>
    rw [opened_eq schema hget (TypeGraph.ruleFor?_sequence hd (by simpa [hd] using hp))]
    simp only [Rule.sequence, Rule.sequenceSchema, Derive.checkKeys, Derive.composed, hd, pure_bind]
  | map key value =>
    rw [opened_eq schema hget (TypeGraph.ruleFor?_map hd (by simpa [hd] using hp))]
    simp only [Rule.map, Rule.mapSchema, Derive.checkKeys, Derive.composed, hd, bind_assoc]
    congr 1
    funext k
    cases k.isBasic .string <;> rfl
  | _ => simp [hd] at hp

end Opened

/-! ## One derivation -/

namespace Derive

variable {cx : Setting} {r : Registry} {pending : List TypeId} {G : Prop} {id : TypeId} {d : Descriptor}

section Leaves

theorem probed_checkKeys : Probed cx r pending G (checkKeys cx d) fun _ => checkKeys cx d := by
  unfold checkKeys
  split
  · refine (probed_ofFault _).bind fun k => ?_
    split
    · exact probed_pure _
    · exact probed_throw _
  · exact probed_pure _

theorem probed_basicSchema (o : Options) :
    Probed cx r pending G (Rule.basicSchema o d) fun _ => Rule.basicSchema o d := by
  unfold Rule.basicSchema
  split
  · split
    · exact probed_pure _
    · exact probed_throw _
  · exact probed_throw _

theorem probed_logicalSchema (o : Options) :
    Probed cx r pending G (Rule.logicalSchema o d) fun _ => Rule.logicalSchema o d := by
  unfold Rule.logicalSchema
  split
  · split
    · exact probed_pure _
    · exact probed_throw _
  · exact probed_throw _

theorem probed_namedStringSchema :
    Probed cx r pending G (Rule.namedStringSchema cx d) fun _ => Rule.namedStringSchema cx d :=
  (probed_ofFault _).bind fun _ => (probed_ofFault _).bind fun _ => probed_pure _

theorem probed_forwardSchema : Probed cx r pending G (Rule.forwardSchema d) fun _ => Rule.forwardSchema d := by
  unfold Rule.forwardSchema
  split
  · split
    · exact probed_throw _
    · exact (probed_ofFault _).bind fun _ => probed_pure _
  · exact probed_throw _

theorem probed_enumSchema (hget : cx.graph.get? id = some d) (hn : d.isNamed = true) :
    Probed cx r pending G (Rule.enumSchema cx id d) fun _ => Rule.enumSchema cx id d := by
  unfold Rule.enumSchema
  split
  · refine probed_namedSchema hget hn fun header => (probed_ofFault _).bind fun symbols => ?_
    cases symbols with
    | nil => exact probed_throw _
    | cons x xs => exact probed_pure _
  · exact probed_throw _

end Leaves

section Parts

variable {schema : TypeId → Derive Schema} {probe : SchemaError → TypeId → Derive Schema}

theorem probed_composed (h : ∀ m, Probed cx r pending G (schema m) fun e => probe e m) :
    Probed cx r pending G (composed cx (cx.partsBy schema) d) fun e => composed cx (cx.partsBy (probe e)) d := by
  unfold composed
  cases d.shape with
  | union members => exact (probed_ofFault _).bind fun _ => probed_unionOf fun m _ => h m
  | sequence element => exact (h _).map _
  | map key value => exact (h _).map _
  | _ => exact probed_throw _

theorem probed_recordSchema (hget : cx.graph.get? id = some d) (hn : d.isNamed = true)
    (h : ∀ m, Probed cx r [] G (schema m) fun e => probe e m) :
    Probed cx r pending G (Rule.recordSchema cx (cx.partsBy schema) id d) fun e =>
      Rule.recordSchema cx (cx.partsBy (probe e)) id d := by
  unfold Rule.recordSchema
  cases d.shape with
  | record fs => exact probed_namedSchema hget hn fun _ => (probed_fields h).bind fun _ => probed_pure _
  | _ => exact probed_throw _

/-- Types that are not composite ones without a name call for no others, except in their definitions. -/
theorem probed_rule {rule : Rule} (hget : cx.graph.get? id = some d) (hr : cx.graph.ruleFor? d = some rule)
    (hp : cx.graph.isParted d = false)
    (h : d.isNamed = true → ∀ m, Probed cx r [] G (schema m) fun e => probe e m) :
    Probed cx r pending G (rule.schema cx (cx.partsBy schema) id d) fun e =>
      rule.schema cx (cx.partsBy (probe e)) id d := by
  have hrule : ∀ {rule' : Rule}, cx.graph.ruleFor? d = some rule' → rule = rule' := fun h =>
    Option.some.inj (hr.symm.trans h)
  cases hd : d.shape with
  | basic kind =>
    cases kind with
    | any => simp [TypeGraph.ruleFor?, hd] at hr
    | _ =>
      obtain rfl : rule = .basic := hrule (by simp [TypeGraph.ruleFor?, hd])
      exact probed_basicSchema _
  | refined kind =>
    cases kind with
    | duration =>
      obtain rfl : rule = .duration := hrule (by simp [TypeGraph.ruleFor?, hd])
      exact probed_namedSchema hget (by simp [Descriptor.isNamed, hd]) fun _ => probed_pure _
    | _ =>
      obtain rfl : rule = .logical := hrule (by simp [TypeGraph.ruleFor?, hd])
      exact probed_logicalSchema _
  | namedString =>
    obtain rfl : rule = .namedString := hrule (by simp [TypeGraph.ruleFor?, hd])
    exact probed_namedStringSchema
  | enum symbols =>
    obtain rfl : rule = .enum := hrule (by simp [TypeGraph.ruleFor?, hd])
    exact probed_enumSchema hget (by simp [Descriptor.isNamed, hd])
  | record fs =>
    have hn : d.isNamed = true := by simp [Descriptor.isNamed, hd]
    obtain rfl : rule = .record := hrule (TypeGraph.ruleFor?_record hd)
    exact probed_recordSchema hget hn (h hn)
  | decimal params =>
    obtain rfl : rule = .decimal := hrule (by simp [TypeGraph.ruleFor?, hd])
    exact (probed_ofFault _).bind fun _ => probed_pure _
  | forward name =>
    obtain rfl : rule = .forward := hrule (by simp [TypeGraph.ruleFor?, hd])
    exact probed_forwardSchema
  | union members => simp [TypeGraph.isParted, hd] at hp
  | sequence element | map key value =>
    have hj : cx.graph.isJson d = true := by simpa [TypeGraph.isParted, hd] using hp
    obtain rfl : rule = .json := hrule (by simp [TypeGraph.ruleFor?, hd, hj])
    exact probed_pure _

/-- The derivation of a type is probed if those that it calls for are, inside the frame that it opens. -/
theorem probed_opened (h : ∀ f, cx.frame? id = some f → ∀ m,
    Probed cx r (f.pend pending) G (schema m) fun e => probe e m) :
    Probed cx r pending G (cx.opened schema id) fun e => cx.opened (probe e) id := by
  cases hget : cx.graph.get? id with
  | none =>
    simp only [Setting.opened, hget]
    exact probed_throw _
  | some d =>
    cases hp : cx.graph.isParted d with
    | true =>
      simp only [opened_of_parted _ hget hp]
      exact probed_checkKeys.bind fun _ => probed_unnamed (probed_composed (h _ (Setting.frame?_of_parted hget hp)))
    | false =>
      simp only [Setting.opened, hget]
      refine (probed_ofFault _).bind_of_yields fun {s rule u} hr => ?_
      refine probed_rule hget (standard_find_ok.mp (yields_ofFault.mp hr).1) hp fun hn => ?_
      exact h (.definition id) (by simp [Setting.frame?, hget, hn])

end Parts

/-! ## All derivations -/

theorem keeps_of_probed {α : Type} {x : Derive α} (h : ∀ r pending, Probed cx r pending False x fun _ => x)
    (s : Progress) : Keeps cx s x := (h s.registry s.pending s rfl (.refl _)).kept

/-- Behind each derivation the same types are pending, and what was defined is so still. -/
theorem keeps_schemaWithin (cx : Setting) : ∀ (n : Nat) (id : TypeId) (s : Progress), Keeps cx s (cx.schemaWithin n id)
  | 0, _, _ => fun _ _ h => by cases h
  | n + 1, _, s => by
    refine keeps_of_probed (fun _ _ => ?_) s
    exact probed_opened fun _ _ m => probed_self (keeps_schemaWithin cx n m)

variable {n : Nat} {s t : Progress} {m : TypeId}

/-- A derivation calls for another one inside its frame, or does not depend on what that one does. -/
theorem probedAt_opened (cx : Setting) (n : Nat) (s : Progress) (id m : TypeId) (t : Progress) :
    ProbedAt cx (∃ f, cx.frame? id = some f ∧ t.pending = f.pend s.pending ∧ s.registry.Grows cx t.registry) s
      (cx.schemaWithin (n + 1) id) fun e => cx.opened (failAt (cx.schemaWithin n) m t e) id := by
  have hopened : Probed cx s.registry s.pending
      (∃ f, cx.frame? id = some f ∧ t.pending = f.pend s.pending ∧ s.registry.Grows cx t.registry)
      (cx.opened (cx.schemaWithin n) id) fun e => cx.opened (failAt (cx.schemaWithin n) m t e) id :=
    probed_opened fun f hf i => (probed_failAt (keeps_schemaWithin cx n i)).imp fun h => ⟨f, hf, h.2⟩
  exact hopened s rfl (.refl _)

/-- The derivation of a field calls for the type of the field, or, where that is spliced, for its members, and no more
types are pending in it. -/
theorem calls_field {f : Field} (h : Calls (fun schema => field cx (cx.partsBy schema) f) (cx.schemaWithin n) s m t) :
    t.pending = s.pending ∧ ∃ d, cx.graph.get? f.type.target = some d ∧ FieldParts cx f d m := by
  have hfield : Probed cx s.registry s.pending
      (t.pending = s.pending ∧ ∃ d, cx.graph.get? f.type.target = some d ∧ FieldParts cx f d m)
      (field cx (cx.partsBy (cx.schemaWithin n)) f)
      fun e => field cx (cx.partsBy (failAt (cx.schemaWithin n) m t e)) f :=
    probed_field fun d i hget hi => (probed_failAt (keeps_schemaWithin cx n i)).imp fun h =>
      ⟨h.2.1, d, hget, h.1 ▸ hi⟩
  exact (hfield s rfl (.refl _)).of_fails h

/-- The part that a composite type without a name derives first. -/
def FirstPart (cx : Setting) (d : Descriptor) (m : TypeId) : Prop :=
  match d.shape with
  | .union members => ∃ ms, cx.graph.flatMembers members = .ok (m :: ms)
  | .sequence element => m = element.target
  | .map key value => (∃ k, cx.graph.target? key = some k ∧ k.isBasic .string = true) ∧ m = value.target
  | _ => False

theorem checkKeys_of_firstPart (hm : FirstPart cx d m) : checkKeys cx d = pure () := by
  unfold FirstPart at hm
  unfold checkKeys
  cases hd : d.shape with
  | map key value =>
    simp only [hd] at hm ⊢
    obtain ⟨⟨k, hk, hstr⟩, -⟩ := hm
    simp [TypeGraph.follow_ok.mpr hk, ofFault, hstr]
  | _ => rfl

theorem runFrom_failAt (schema : TypeId → Derive Schema) (m : TypeId) (t : Progress) (e : SchemaError) :
    (failAt schema m t e m).runFrom t = some (.error e, t) := if_pos ⟨rfl, rfl⟩

theorem runFrom_composed_failAt (schema : TypeId → Derive Schema) (hm : FirstPart cx d m) (t : Progress)
    (e : SchemaError) :
    (composed cx (cx.partsBy (failAt schema m t e)) d).runFrom t = some (.error e, t) := by
  unfold FirstPart at hm
  unfold composed
  cases hd : d.shape with
  | union members =>
    simp only [hd] at hm ⊢
    obtain ⟨ms, hflat⟩ := hm
    simp only [union, hflat, ofFault, pure_bind, unionOf, schemas, runFrom_map, runFrom_bind]
    show Option.map _ (((failAt schema m t e m).runFrom t).bind _) = _
    rw [runFrom_failAt]
    rfl
  | sequence element =>
    simp only [hd] at hm ⊢
    subst hm
    rw [runFrom_map]
    show Option.map _ ((failAt schema element.target t e element.target).runFrom t) = _
    rw [runFrom_failAt]
    rfl
  | map key value =>
    simp only [hd] at hm ⊢
    obtain ⟨-, rfl⟩ := hm
    rw [runFrom_map]
    show Option.map _ ((failAt schema value.target t e value.target).runFrom t) = _
    rw [runFrom_failAt]
    rfl
  | _ => simp [hd] at hm

/-- A composite type that is not pending calls for its first part, and is pending there. -/
theorem calls_first (schema : TypeId → Derive Schema) (hget : cx.graph.get? id = some d)
    (hp : cx.graph.isParted d = true) (hm : FirstPart cx d m) (hnew : id ∉ t.pending) :
    Calls (cx.opened · id) schema t m { t with pending := id :: t.pending } := by
  intro e
  show ∃ u, (cx.opened _ id).runFrom t = some (.error e, u)
  rw [opened_of_parted _ hget hp, checkKeys_of_firstPart hm, pure_bind, runFrom_unnamed, if_neg hnew, runFrom_withPending,
    runFrom_composed_failAt schema hm]
  exact ⟨_, rfl⟩

end Derive

/-! ## Open calls -/

section Entered

variable {cx : Setting} {n k : Nat} {s t u : Progress} {root id m : TypeId} {fs : List Frame}

/-- A call is made inside the frame of the type that makes it. -/
theorem frame_of_calls (h : Derive.Calls (cx.opened · id) (cx.schemaWithin k) t m u) :
    ∃ f, cx.frame? id = some f ∧ u.pending = f.pend t.pending ∧ t.registry.Grows cx u.registry :=
  (Derive.probedAt_opened cx k t id m u).of_fails h

theorem Entered.grows (h : Entered cx n s root k fs t id) : s.registry.Grows cx t.registry := by
  induction h with
  | start => exact .refl _
  | call _ hcall ih =>
    obtain ⟨f, -, -, hgrows⟩ := frame_of_calls hcall
    exact ih.trans hgrows

/-- The frames are of the types that are open, and pending are the types that they say. -/
theorem Entered.stack (h : Entered cx n s root k fs t id) :
    (∀ f ∈ fs, cx.Opens f) ∧ t.pending = fs.foldr Frame.pend s.pending := by
  induction h with
  | start => exact ⟨by simp, rfl⟩
  | call _ hcall ih =>
    obtain ⟨f, hf, hpending, -⟩ := frame_of_calls hcall
    rw [hf, Option.toList_some, List.singleton_append]
    refine ⟨List.forall_mem_cons.mpr ⟨Setting.opens_of_frame? hf, ih.1⟩, ?_⟩
    rw [hpending, ih.2, List.foldr_cons]

end Entered

/-! ## The discipline -/

/-- What a derivation of `root` from some progress leaves as it is, and what is pending during it. -/
structure KeepsState (cx : Setting) (n : Nat) (s : Progress) (root : TypeId) : Prop where
  /-- If it returns, a schema or an error, the same types are pending as before, -/
  pending : ∀ {o u}, (cx.schemaWithin n root).runFrom s = some (o, u) → u.pending = s.pending
  /-- the definitions that there were are the first of those that there are, -/
  entries : ∀ {o u}, (cx.schemaWithin n root).runFrom s = some (o, u) → s.registry.entries <+: u.registry.entries
  /-- and all types that were defined have their names, -/
  names : ∀ {o u}, (cx.schemaWithin n root).runFrom s = some (o, u) →
    ∀ {id fullName}, s.registry.nameOf? id = some fullName → u.registry.nameOf? id = some fullName
  /-- as all names have their types. -/
  owners : ∀ {o u}, (cx.schemaWithin n root).runFrom s = some (o, u) →
    ∀ {fullName id}, s.registry.ownerOf? fullName = some id → u.registry.ownerOf? fullName = some id
  /-- Whatever the derivation of a type that is got to calls for, it calls for inside the frame of the type, -/
  inFrame : ∀ {k fs t id}, Entered cx n s root (k + 1) fs t id → ∀ {m u},
    Derive.Calls (cx.opened · id) (cx.schemaWithin k) t m u → ∃ f, cx.frame? id = some f
  /-- and on what it does not call for it does not depend. -/
  uncalled : ∀ {k fs t id}, Entered cx n s root (k + 1) fs t id → ∀ {m u},
    ¬ Derive.Calls (cx.opened · id) (cx.schemaWithin k) t m u →
      ∀ e, (cx.opened (Derive.failAt (cx.schemaWithin k) m u e) id).runFrom t = (cx.schemaWithin (k + 1) id).runFrom t
  /-- A composite type calls for its first part, unless it is pending already, and it is pending there. -/
  first : ∀ {k fs t id}, Entered cx n s root (k + 1) fs t id → ∀ {d m}, cx.graph.get? id = some d →
    cx.graph.isParted d = true → Derive.FirstPart cx d m → id ∉ t.pending →
      Entered cx n s root k (.composite id :: fs) { t with pending := id :: t.pending } m
  /-- The frames are those of types of their kinds, -/
  opens : ∀ {k fs t id}, Entered cx n s root k fs t id → ∀ f ∈ fs, cx.Opens f
  /-- and pending are the composite types in front of the innermost definition, or with none, those from before too. -/
  during : ∀ {k fs t id}, Entered cx n s root k fs t id → ∀ i, i ∈ t.pending ↔
    .composite i ∈ fs.takeWhile Frame.isComposite ∨ (∀ f ∈ fs, f.isComposite = true) ∧ i ∈ s.pending
  /-- The field of a record adds nothing to them, also where it calls for the members of a union in its place. -/
  fields : ∀ {k t f m u},
    Derive.Calls (fun schema => Derive.field cx (cx.partsBy schema) f) (cx.schemaWithin k) t m u →
      u.pending = t.pending ∧ ∃ d, cx.graph.get? f.type.target = some d ∧ Derive.FieldParts cx f d m
  /-- A composite type is marked before its parts are derived, and the mark is taken away behind them. -/
  marks : ∀ {k id d}, cx.graph.get? id = some d → cx.graph.isParted d = true → cx.schemaWithin (k + 1) id =
    Derive.checkKeys cx d >>= fun _ => Derive.marked id d (Derive.composed cx (cx.partsBy (cx.schemaWithin k)) d)

/-- **Derivations keep what is pending and what is defined**, from any progress, with any outcome. -/
theorem derivation_keeps_state (cx : Setting) (n : Nat) (s : Progress) (root : TypeId) : KeepsState cx n s root where
  pending h := (Derive.keeps_schemaWithin cx n root s _ _ h).1
  entries h := by
    obtain ⟨more, hmore, -⟩ := (Derive.keeps_schemaWithin cx n root s _ _ h).2
    exact ⟨more, hmore.symm⟩
  names h := fun hname => (Derive.keeps_schemaWithin cx n root s _ _ h).2.nameOf? hname
  owners h := fun howner => (Derive.keeps_schemaWithin cx n root s _ _ h).2.ownerOf? howner
  inFrame _ := fun hcall => (frame_of_calls hcall).imp fun _ h => h.1
  uncalled {k fs t id} _ := fun {m u} hcall => by
    rcases (Derive.probedAt_opened cx k t id m u).outcome with hfails | hsame
    · exact absurd hfails.2 hcall
    · exact hsame
  first {k fs t id} hentered := fun {d m} hget hp hm hnew => by
    have hcall := hentered.call (Derive.calls_first (cx.schemaWithin k) hget hp hm hnew)
    rwa [Setting.frame?_of_parted hget hp] at hcall
  opens h := h.stack.1
  during h := fun i => by rw [h.stack.2, Frame.mem_foldr_pend_iff]
  fields h := Derive.calls_field h
  marks {k id d} hget hp := by
    have hkeeps : ∀ s, Derive.Keeps cx s (Derive.composed cx (cx.partsBy (cx.schemaWithin k)) d) :=
      Derive.keeps_of_probed fun _ _ => Derive.probed_composed fun m =>
        Derive.probed_self (Derive.keeps_schemaWithin cx k m)
    rw [← Setting.opened_schemaWithin, opened_of_parted _ hget hp, Derive.unnamed_eq_marked hkeeps]

/-- A row whose link is a row or nothing, which is the default, and whose cells are lists of rows. -/
def grid : Setting := .of ⟨#[
  some { name := "Row", shape := .record [
    { name := "link", type := { target := 1 }, default := some .null }, { name := "cells", type := { target := 2 } }] },
  some { name := "Optional[Row]", shape := .union [{ target := 0, weak := true }, { target := 4 }] },
  some { name := "List[List[Row]]", shape := .sequence { target := 3 } },
  some { name := "List[Row]", shape := .sequence { target := 0, weak := true } },
  some { name := "None", shape := .basic .null }]⟩ {} none

/-- The link calls for the member of its default, where the union is not pending. -/
example : Entered grid 4 ⟨{}, [7]⟩ 0 3 [.definition 0] ⟨⟨[(0, "Row")]⟩, []⟩ 4 := by
  refine .call .start fun e => ⟨⟨⟨[(0, "Row")]⟩, [7]⟩, ?_⟩
  cbv

/-- The cells call for the row inside two lists, which are pending. -/
example : Entered grid 4 ⟨{}, [7]⟩ 0 1 [.composite 3, .composite 2, .definition 0] ⟨⟨[(0, "Row")]⟩, [3, 2]⟩ 0 := by
  have cells : Entered grid 4 ⟨{}, [7]⟩ 0 3 [.definition 0] ⟨⟨[(0, "Row")]⟩, []⟩ 2 := by
    refine .call .start fun e => ⟨⟨⟨[(0, "Row")]⟩, [7]⟩, ?_⟩
    cbv
  have cell : Entered grid 4 ⟨{}, [7]⟩ 0 2 [.composite 2, .definition 0] ⟨⟨[(0, "Row")]⟩, [2]⟩ 3 := by
    refine .call cells fun e => ⟨⟨⟨[(0, "Row")]⟩, []⟩, ?_⟩
    cbv
  refine .call cell fun e => ⟨⟨⟨[(0, "Row")]⟩, [2]⟩, ?_⟩
  cbv

end Avro
