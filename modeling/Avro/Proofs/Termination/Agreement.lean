import Avro.Proofs.Derivation.ByRule
import Avro.Proofs.Derivation.Depth
import Avro.Proofs.Termination.Fallback

/-!
# Steps that end alike

Two steps agree from some progress on (`Derive.Agree`) if from that progress and from all that can come of it they end,
with one result and one progress behind it. Progress only goes forward: what is defined stays so, and what is pending
is so again behind a step (`Progress.Before`), so agreement is kept while one step is taken after another. For a named
type it is enough that the steps agree inside its definition, and for a composite type that they agree while it is
pending.
-/

namespace Avro

/-- What is defined stays so, and what is pending is the same again. -/
structure Progress.Before (s s' : Progress) : Prop where
  ids : s.ids ⊆ s'.ids
  pending : s'.pending = s.pending

section Before

variable {s t u : Progress}

theorem Progress.Before.refl (s : Progress) : s.Before s := ⟨List.Subset.refl _, rfl⟩

theorem Progress.Before.trans (h : s.Before t) (h' : t.Before u) : s.Before u :=
  ⟨List.Subset.trans h.ids h'.ids, h'.pending.trans h.pending⟩

theorem Progress.before_define (s : Progress) (id : TypeId) (fullName : String) : s.Before (s.define id fullName) :=
  ⟨by rw [Progress.ids_define]; exact List.subset_append_left _ _, rfl⟩

theorem Progress.HasDepth.of_before {g : TypeGraph} {n : Nat} (h : s.HasDepth g n) (hst : s.Before t) :
    t.HasDepth g n :=
  h.of_subset hst.ids hst.pending

/-- A type without a name in the registry is not defined. -/
theorem Progress.not_mem_ids {id : TypeId} (h : s.registry.nameOf? id = none) : id ∉ s.ids := by
  unfold Registry.nameOf? at h
  rw [Option.map_eq_none_iff, List.find?_eq_none] at h
  intro hid
  obtain ⟨e, he, rfl⟩ := List.mem_map.mp hid
  exact h e he (by simp)

end Before

namespace Derive

variable {α β : Type} {s : Progress}

/-- From this progress on, both steps end with the same result. -/
def Agree (s : Progress) (x y : Derive α) : Prop :=
  ∀ t, s.Before t → ∃ r u, x.runFrom t = some (r, u) ∧ y.runFrom t = some (r, u) ∧ t.Before u

/-! ## Putting steps together -/

theorem Agree.mono {t : Progress} {x y : Derive α} (h : Agree s x y) (hst : s.Before t) : Agree t x y :=
  fun u htu => h u (hst.trans htu)

theorem agree_pure (a : α) : Agree s (pure a) (pure a) := fun t _ => ⟨.ok a, t, rfl, rfl, .refl t⟩

theorem agree_throw (e : SchemaError) : Agree s (throw e : Derive α) (throw e) :=
  fun t _ => ⟨.error e, t, rfl, rfl, .refl t⟩

theorem agree_ofFault (r : Except TypeFault α) : Agree s (ofFault r) (ofFault r) := by
  cases r with
  | ok a => exact agree_pure a
  | error f => exact agree_throw _

/-- Steps after steps agree if they do from the progress that they are taken from. -/
theorem Agree.bind_of_yields {x y : Derive α} {f g : α → Derive β} (h : Agree s x y)
    (hfg : ∀ {t a u}, s.Before t → x.Yields t a u → Agree u (f a) (g a)) : Agree s (x >>= f) (y >>= g) := by
  intro t hst
  obtain ⟨r, u, hx, hy, htu⟩ := h t hst
  rw [runFrom_bind, runFrom_bind, hx, hy]
  cases r with
  | error e => exact ⟨.error e, u, rfl, rfl, htu⟩
  | ok a =>
    obtain ⟨r, w, hf, hg, huw⟩ := hfg hst hx u (.refl u)
    exact ⟨r, w, hf, hg, htu.trans huw⟩

theorem Agree.bind {x y : Derive α} {f g : α → Derive β} (h : Agree s x y) (hfg : ∀ a, Agree s (f a) (g a)) :
    Agree s (x >>= f) (y >>= g) := by
  refine h.bind_of_yields fun {t a u} hst hx => (hfg a).mono (hst.trans ?_)
  obtain ⟨r, u', hx', -, htu⟩ := h t hst
  cases hx.symm.trans hx'
  exact htu

theorem Agree.map {x y : Derive α} (h : Agree s x y) (f : α → β) : Agree s (f <$> x) (f <$> y) := by
  rw [map_eq_pure_bind, map_eq_pure_bind]
  exact h.bind fun a => agree_pure (f a)

/-- The encoding of a default that ends makes a step that ends. -/
theorem agree_ofEncode {e : Encode α} (he : e.Ends) (field : String) : Agree s (ofEncode field e) (ofEncode field e) := by
  have hattempt : Agree s (attempt e) (attempt e) := by
    intro t _
    obtain ⟨r, hr⟩ := he
    have hrun : (attempt e).runFrom t = some (.ok r, t) := by
      show e.outcome.map _ = _
      rw [hr, Option.map_some]
    exact ⟨.ok r, t, hrun, hrun, .refl t⟩
  refine hattempt.bind fun r => ?_
  cases r with
  | ok a => exact agree_pure a
  | error m => exact agree_throw _

theorem Agree.withPending {pending : List TypeId} {x y : Derive α} (h : Agree { s with pending } x y) :
    Agree s (withPending pending x) (withPending pending y) := by
  intro t hst
  obtain ⟨r, u, hx, hy, htu⟩ := h { t with pending } ⟨hst.ids, rfl⟩
  have hrun : ∀ {z : Derive α}, z.runFrom { t with pending } = some (r, u) →
      (Derive.withPending pending z).runFrom t = some (r, { u with pending := t.pending }) := by
    intro z hz
    show (z.runFrom { t with pending }).map _ = _
    rw [hz, Option.map_some]
  exact ⟨r, _, hrun hx, hrun hy, htu.ids, rfl⟩

/-- From the start, the result of both steps is the one that the first has. -/
theorem Agree.result {x y : Derive α} (h : Agree {} x y) : (y.runFrom {}).map Prod.fst = some x.result := by
  obtain ⟨r, u, hx, hy, -⟩ := h {} (.refl {})
  unfold Derive.result
  rw [hx, hy, Option.map_some]

/-! ## Occurrences of types -/

section Occurrences

variable {cx : Setting} {id : TypeId} {d : Descriptor}

theorem runFrom_claim (id : TypeId) (t : Progress) (fullName : String) : (claim id fullName).runFrom t = some
    (match t.registry.claim id fullName with
    | .ok c => (.ok c.1, { t with registry := c.2 })
    | .error f => (.error (.type f), t)) := by
  unfold claim
  rw [runFrom_bind]
  show (ofFault (t.registry.claim id fullName) >>= _).runFrom t = _
  cases t.registry.claim id fullName <;> rfl

theorem agree_claim (fullName : String) : Agree s (claim id fullName) (claim id fullName) := by
  intro t _
  have hrun := runFrom_claim id t fullName
  cases hclaim : t.registry.claim id fullName with
  | error f =>
    rw [hclaim] at hrun
    exact ⟨_, _, hrun, hrun, .refl t⟩
  | ok c =>
    rw [hclaim] at hrun
    refine ⟨_, _, hrun, hrun, ?_⟩
    rcases yields_claim.mp hrun with ⟨_, _, _, hu⟩ | ⟨_, _, _, hu⟩
    · exact hu ▸ .refl t
    · exact hu ▸ t.before_define id fullName

/-- Occurrences of a named type agree if its definitions do at the first occurrence. -/
theorem agree_namedSchema {body body' : Header → Derive Schema}
    (h : ∀ {t : Progress} (header : Header) (fullName : String), s.Before t → id ∉ t.ids →
      Agree { t.define id fullName with pending := [] } (body header) (body' header)) :
    Agree s (namedSchema cx id d body) (namedSchema cx id d body') := by
  have hnamed : Agree s (named cx id d body) (named cx id d body') := by
    refine (agree_ofFault _).bind fun _ => (agree_ofFault _).bind fun ns => ?_
    refine (agree_claim _).bind_of_yields fun {t c u} hst hclaim => ?_
    rcases yields_claim.mp hclaim with ⟨known, -, rfl, -⟩ | ⟨hnew, -, rfl, rfl⟩
    · exact agree_pure _
    · exact (Agree.withPending (h _ _ hst (Progress.not_mem_ids hnew))).map _
  refine hnamed.bind fun o => ?_
  cases o <;> exact agree_pure _

/-- Occurrences of a composite type agree if its parts do where it is not pending yet. -/
theorem agree_unnamed {x y : Derive α}
    (h : ∀ {t : Progress}, s.Before t → id ∉ t.pending → Agree { t with pending := id :: t.pending } x y) :
    Agree s (unnamed id d x) (unnamed id d y) := by
  have hget : Agree s (get : Derive Progress) get := fun t _ => ⟨.ok t, t, rfl, rfl, .refl t⟩
  refine hget.bind_of_yields fun {t p u} hst hp => ?_
  obtain ⟨rfl, rfl⟩ := yields_get.mp hp
  split
  · exact agree_throw _
  · rename_i hnew
    exact (h hst hnew).withPending

end Occurrences

/-! ## Lists of steps -/

theorem agree_schemas {p p' : Parts} : ∀ {ids : List TypeId},
    (∀ id ∈ ids, Agree s (p.schema id) (p'.schema id)) → Agree s (schemas p ids) (schemas p' ids)
  | [], _ => agree_pure []
  | _ :: _, h => (h _ List.mem_cons_self).bind fun _ =>
    (agree_schemas fun id' hid' => h id' (List.mem_cons_of_mem _ hid')).bind fun _ => agree_pure _

theorem agree_unionOf {p p' : Parts} {ids : List TypeId} (h : ∀ id ∈ ids, Agree s (p.schema id) (p'.schema id)) :
    Agree s (unionOf p ids) (unionOf p' ids) :=
  (agree_schemas h).map _

theorem agree_fields {cx : Setting} {p p' : Parts} {record : String} : ∀ {taken : List String} {fs : List Field},
    (∀ f ∈ fs, Agree s (field cx p f) (field cx p' f)) →
      Agree s (fields cx p record taken fs) (fields cx p' record taken fs)
  | _, [], _ => agree_pure []
  | _, _ :: _, h => (h _ List.mem_cons_self).bind fun _ => by
    split
    · exact agree_throw _
    · exact (agree_fields fun f' hf' => h f' (List.mem_cons_of_mem _ hf')).bind fun _ => agree_pure _

end Derive
end Avro
