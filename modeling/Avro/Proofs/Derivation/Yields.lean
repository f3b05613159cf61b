import Avro.Derivation.Field

/-!
# What a step of a derivation yields

`Derive.Yields step s a s'` says that a step succeeds from the progress `s`, with the result `a` and the progress `s'`.
Each way to put steps together has one statement about it here, so that no later proof opens the monad:

* `yields_bind`, `yields_ofFault`, `yields_ofEncode`, `yields_withPending` for the ways to put steps together;
* `yields_namedSchema` and `yields_unnamed` for the occurrences of types;
* `Threaded` for what steps yield one after the other, over the members of a union or the fields of a record.
-/

namespace Avro

/-- The relation holds along two lists, with the progress handed on from one pair to the next. -/
inductive Threaded {α β : Type} (R : Progress → α → β → Progress → Prop) :
    Progress → List α → List β → Progress → Prop
  | nil (s : Progress) : Threaded R s [] [] s
  | cons {s s₁ s₂ : Progress} {a : α} {b : β} {as : List α} {bs : List β} :
      R s a b s₁ → Threaded R s₁ as bs s₂ → Threaded R s (a :: as) (b :: bs) s₂

namespace Derive

variable {α β : Type}

/-- The step succeeds from `s` with the result `a` and the progress `s'`. -/
def Yields (step : Derive α) (s : Progress) (a : α) (s' : Progress) : Prop := step.runFrom s = some (.ok a, s')

/-! ## Putting steps together -/

section Monad

variable {s s' : Progress} {a : α} {b : β}

@[simp] theorem yields_pure {c : α} : (pure c : Derive α).Yields s a s' ↔ a = c ∧ s' = s := by
  show some (Except.ok c, s) = some (Except.ok a, s') ↔ _
  simp only [Option.some.injEq, Prod.mk.injEq, Except.ok.injEq]
  exact ⟨fun h => ⟨h.1.symm, h.2.symm⟩, fun h => ⟨h.1.symm, h.2.symm⟩⟩

theorem runFrom_bind (x : Derive α) (f : α → Derive β) : (x >>= f).runFrom s = (x.runFrom s).bind fun r =>
    match r.1 with
    | .ok a => (f a).runFrom r.2
    | .error e => some (.error e, r.2) := by
  show (x.runFrom s).bind _ = _
  congr 1
  funext r
  obtain ⟨r, t⟩ := r
  cases r <;> rfl

/-- A step after another yields what it yields from the result and the progress of the other. -/
@[simp] theorem yields_bind {x : Derive α} {f : α → Derive β} :
    (x >>= f).Yields s b s' ↔ ∃ a t, x.Yields s a t ∧ (f a).Yields t b s' := by
  unfold Yields
  rw [runFrom_bind]
  cases hx : x.runFrom s with
  | none => simp
  | some r =>
    obtain ⟨r, t⟩ := r
    cases r with
    | error e => simp
    | ok c =>
      show (f c).runFrom t = some (.ok b, s') ↔ _
      constructor
      · exact fun h => ⟨c, t, rfl, h⟩
      · rintro ⟨_, _, he, h⟩
        cases he
        exact h

@[simp] theorem yields_map {x : Derive α} {f : α → β} : (f <$> x).Yields s b s' ↔ ∃ a, x.Yields s a s' ∧ b = f a := by
  rw [map_eq_pure_bind, yields_bind]
  constructor
  · rintro ⟨a, t, hx, hp⟩
    obtain ⟨rfl, rfl⟩ := yields_pure.mp hp
    exact ⟨a, hx, rfl⟩
  · rintro ⟨a, hx, rfl⟩
    exact ⟨a, s', hx, yields_pure.mpr ⟨rfl, rfl⟩⟩

@[simp] theorem yields_throw {e : SchemaError} : ¬ (throw e : Derive α).Yields s a s' := by
  show ¬ some (Except.error e, s) = some (Except.ok a, s')
  simp

@[simp] theorem yields_endless : ¬ (endless : Derive α).Yields s a s' := by
  show ¬ none = some (Except.ok a, s')
  simp

@[simp] theorem yields_get {t : Progress} : (get : Derive Progress).Yields s t s' ↔ t = s ∧ s' = s := by
  show some (Except.ok s, s) = some (Except.ok t, s') ↔ _
  simp only [Option.some.injEq, Prod.mk.injEq, Except.ok.injEq]
  exact ⟨fun h => ⟨h.1.symm, h.2.symm⟩, fun h => ⟨h.1.symm, h.2.symm⟩⟩

@[simp] theorem yields_set {t : Progress} {u : PUnit} : (set t : Derive PUnit).Yields s u s' ↔ s' = t := by
  show some (Except.ok PUnit.unit, t) = some (Except.ok u, s') ↔ _
  simp only [Option.some.injEq, Prod.mk.injEq, true_and]
  exact eq_comm

@[simp] theorem yields_ofFault {r : Except TypeFault α} : (ofFault r).Yields s a s' ↔ r = .ok a ∧ s' = s := by
  cases r with
  | ok c => simp [ofFault, eq_comm]
  | error f => simp [ofFault]

/-- A default is encoded without any progress. -/
@[simp] theorem yields_ofEncode {field : String} {e : Encode α} :
    (ofEncode field e).Yields s a s' ↔ e.outcome = some (.ok a) ∧ s' = s := by
  have hattempt : ∀ r t, (attempt e).Yields s r t ↔ e.outcome = some r ∧ t = s := by
    intro r t
    show (e.outcome.map fun r => (Except.ok r, s)) = some (Except.ok r, t) ↔ _
    cases e.outcome <;> simp [eq_comm]
  unfold ofEncode
  simp only [yields_bind, hattempt]
  constructor
  · rintro ⟨r, t, ⟨hr, rfl⟩, h⟩
    cases r with
    | ok c =>
      obtain ⟨rfl, rfl⟩ := yields_pure.mp h
      exact ⟨hr, rfl⟩
    | error m => exact absurd h yields_throw
  · rintro ⟨hr, rfl⟩
    exact ⟨.ok a, s', ⟨hr, rfl⟩, yields_pure.mpr ⟨rfl, rfl⟩⟩

/-- What was pending before a step with other composites pending is so again behind it. -/
@[simp] theorem yields_withPending {pending : List TypeId} {step : Derive α} :
    (withPending pending step).Yields s a s' ↔
      ∃ t, step.Yields { s with pending } a t ∧ s' = { t with pending := s.pending } := by
  show (step.runFrom { s with pending }).map (fun r => (r.1, { r.2 with pending := s.pending }))
    = some (Except.ok a, s') ↔ _
  unfold Yields
  cases step.runFrom { s with pending } with
  | none => simp
  | some r =>
    obtain ⟨r, t⟩ := r
    cases r with
    | error e => simp
    | ok c =>
      constructor
      · rintro ⟨rfl⟩
        exact ⟨t, rfl, rfl⟩
      · rintro ⟨_, he, rfl⟩
        cases he
        rfl

end Monad

/-! ## Lists of steps -/

/-- The schemas of several types are derived one after the other. -/
theorem yields_schemas {parts : Parts} : ∀ {ids : List TypeId} {σs : List Schema} {s s' : Progress},
    (schemas parts ids).Yields s σs s' ↔ Threaded (fun s id σ s' => (parts.schema id).Yields s σ s') s ids σs s'
  | [], σs, s, s' => by
    simp only [schemas, yields_pure]
    constructor
    · rintro ⟨rfl, rfl⟩
      exact .nil s'
    · rintro ⟨⟩
      exact ⟨rfl, rfl⟩
  | id :: ids, σs, s, s' => by
    simp only [schemas, yields_bind, yields_pure, yields_schemas]
    constructor
    · rintro ⟨σ, t, hσ, τs, t', hτs, rfl, rfl⟩
      exact .cons hσ hτs
    · rintro ⟨⟩
      rename_i hσ hτs
      exact ⟨_, _, hσ, _, _, hτs, rfl, rfl⟩

theorem yields_unionOf {parts : Parts} {ids : List TypeId} {σ : Schema} {s s' : Progress} :
    (unionOf parts ids).Yields s σ s' ↔
      ∃ σs, Threaded (fun s id σ s' => (parts.schema id).Yields s σ s') s ids σs s' ∧ σ = .union σs := by
  simp only [unionOf, yields_map, yields_schemas]

/-- The fields of a record are derived one after the other, and no name comes again. -/
theorem yields_fields {cx : Setting} {parts : Parts} {record : String} : ∀ {taken : List String} {fs : List Field}
    {ss : List (SchemaField Schema)} {s s' : Progress}, (fields cx parts record taken fs).Yields s ss s' ↔
      Threaded (fun s f sf s' => (field cx parts f).Yields s sf s') s fs ss s' ∧
        (ss.map SchemaField.name).Nodup ∧ ∀ sf ∈ ss, sf.name ∉ taken
  | taken, [], ss, s, s' => by
    simp only [fields, yields_pure]
    constructor
    · rintro ⟨rfl, rfl⟩
      exact ⟨.nil s', by simp, by simp⟩
    · rintro ⟨⟨⟩, -, -⟩
      exact ⟨rfl, rfl⟩
  | taken, f :: fs, ss, s, s' => by
    simp only [fields, yields_bind]
    constructor
    · rintro ⟨sf, t, hsf, h⟩
      split at h
      · simp at h
      · rename_i hnew
        simp only [yields_bind, yields_pure] at h
        obtain ⟨rest, t', hrest, rfl, rfl⟩ := h
        obtain ⟨hthread, hnodup, htaken⟩ := yields_fields.mp hrest
        refine ⟨.cons hsf hthread, ?_, ?_⟩
        · simp only [List.map_cons, List.nodup_cons, List.mem_map, not_exists, not_and]
          exact ⟨fun x hx hname => htaken x hx (by simp [hname]), hnodup⟩
        · intro x hx
          rcases List.mem_cons.mp hx with rfl | hx
          · exact hnew
          · exact fun hmem => htaken x hx (List.mem_cons_of_mem _ hmem)
    · rintro ⟨⟨⟩, hnodup, htaken⟩
      rename_i t sf ss hsf hthread
      refine ⟨sf, t, hsf, ?_⟩
      rw [if_neg (htaken sf List.mem_cons_self)]
      simp only [List.map_cons, List.nodup_cons, List.mem_map, not_exists, not_and] at hnodup
      simp only [yields_bind, yields_pure]
      refine ⟨ss, s', yields_fields.mpr ⟨hthread, hnodup.2, fun x hx => ?_⟩, rfl, rfl⟩
      intro hmem
      rcases List.mem_cons.mp hmem with hname | hmem
      · exact hnodup.1 x hx hname
      · exact htaken x (List.mem_cons_of_mem _ hx) hmem

end Derive
end Avro
