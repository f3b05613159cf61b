import Avro.Proofs.Derivation.Dispatch
import Avro.Proofs.Graph.Members

/-!
# Encodings by encodings of parts

The encoding of a value of a type goes on to values of other types (`GoesOn`): to the parts of the value, to the members
of a union, and to the defaults of fields that the value says nothing about. Which rule encodes the value is known from
the type, so all that the encoding of a value depends on are these encodings. Where they have outcomes, other encodings
with the same outcomes there do as well (`encode_refines`).
-/

namespace Avro

namespace Encode

variable {α β : Type}

/-- The second encoding has the outcome of the first, if the first has one. -/
def Refines (e e' : Encode α) : Prop := ∀ r, e.outcome = some r → e'.outcome = some r

theorem Refines.refl (e : Encode α) : e.Refines e := fun _ h => h

theorem outcome_bind (e : Encode α) (f : α → Encode β) : (e >>= f).outcome = e.outcome.bind fun r =>
    match r with
    | .ok a => (f a).outcome
    | .error m => some (.error m) := by
  show Option.bind e.run _ = _
  congr 1
  funext r
  cases r <;> rfl

theorem Refines.bind {e e' : Encode α} {f f' : α → Encode β} (he : e.Refines e') (hf : ∀ a, (f a).Refines (f' a)) :
    (e >>= f).Refines (e' >>= f') := by
  intro r hr
  rw [outcome_bind] at hr ⊢
  obtain ⟨r', he', hr⟩ := Option.bind_eq_some_iff.mp hr
  rw [he r' he', Option.bind_some]
  cases r' with
  | ok a => exact hf a r hr
  | error m => exact hr

theorem Refines.map {e e' : Encode α} (he : e.Refines e') (f : α → β) : (f <$> e).Refines (f <$> e') := by
  rw [map_eq_pure_bind, map_eq_pure_bind]
  exact he.bind fun a => .refl _

theorem outcome_within (s : Segment) (e : Encode α) :
    (e.within s).outcome = e.outcome.map fun r => r.mapError fun m => m.within s := by
  show Option.map _ e.run = _
  congr 1

theorem Refines.within {e e' : Encode α} (he : e.Refines e') (s : Segment) : (e.within s).Refines (e'.within s) := by
  intro r hr
  rw [outcome_within] at hr ⊢
  obtain ⟨r', he', rfl⟩ := Option.map_eq_some_iff.mp hr
  rw [he r' he', Option.map_some]

end Encode

/-! ## What the encoding of a value goes on to -/

/-- The encoding of a value of a type goes on to another value of another type. -/
inductive GoesOn (g : TypeGraph) (d : Descriptor) : Value → TypeId → Value → Prop
  | member {members : List Edge} {flat : List TypeId} {m : TypeId} {v : Value} :
      d.shape = .union members → g.flatMembers members = .ok flat → m ∈ flat → GoesOn g d v m v
  | item {element : Edge} {items : List Value} {v : Value} :
      d.shape = .sequence element → v ∈ items → GoesOn g d (.list items) element.target v
  | value {key value : Edge} {es : List (String × Value)} {e : String × Value} :
      d.shape = .map key value → e ∈ es → GoesOn g d (.dict es) value.target e.2
  | entry {fs : List Field} {f : Field} {es : List (String × Value)} {e : String × Value} :
      d.shape = .record fs → f ∈ fs → e ∈ es → GoesOn g d (.dict es) f.type.target e.2
  | fallback {fs : List Field} {f : Field} {es : List (String × Value)} {v : Value} :
      d.shape = .record fs → f ∈ fs → f.default = some v → GoesOn g d (.dict es) f.type.target v

section Rules

open Encode

variable {g : TypeGraph} {cx : Setting} {enc enc' : TypeId → Value → Encode Json}

theorem firstAccepting_refines {v : Value} : ∀ {flat : List TypeId}, (∀ m ∈ flat, (enc m v).Refines (enc' m v)) →
    ∀ r, firstAccepting enc v flat = some r → firstAccepting enc' v flat = some r
  | [], _ => fun _ h => h
  | m :: ms, h => by
    intro r hr
    unfold firstAccepting at hr ⊢
    cases hm : (enc m v).outcome with
    | none => simp [hm] at hr
    | some o =>
      rw [h m List.mem_cons_self o hm]
      rw [hm] at hr
      cases o with
      | ok j => exact hr
      | error e =>
        obtain ⟨c?, hc, rfl⟩ := Option.map_eq_some_iff.mp hr
        rw [show firstAccepting enc' v ms = some c? from
          firstAccepting_refines (fun m' hm' => h m' (List.mem_cons_of_mem _ hm')) c? hc, Option.map_some]

theorem choose_refines {v : Value} {flat : List TypeId} (h : ∀ m ∈ flat, (enc m v).Refines (enc' m v)) :
    (choose g enc flat v).Refines (choose g enc' flat v) := by
  intro r hr
  unfold choose at hr ⊢
  cases hfirst : firstAccepting enc v flat with
  | none => rw [hfirst] at hr; cases hr
  | some c? => rw [firstAccepting_refines h c? hfirst]; rwa [hfirst] at hr

theorem encodeItems_refines {e e' : Value → Encode Json} : ∀ {i : Nat} {items : List Value},
    (∀ v ∈ items, (e v).Refines (e' v)) → (Rule.encodeItems e i items).Refines (Rule.encodeItems e' i items)
  | _, [], _ => .refl _
  | _, v :: _, h => ((h v List.mem_cons_self).within _).bind fun _ =>
    (encodeItems_refines fun v' hv' => h v' (List.mem_cons_of_mem _ hv')).bind fun _ => .refl _

theorem encodeEntries_refines {e e' : Value → Encode Json} : ∀ {es : List (String × Value)},
    (∀ x ∈ es, (e x.2).Refines (e' x.2)) → (Rule.encodeEntries e es).Refines (Rule.encodeEntries e' es)
  | [], _ => .refl _
  | (k, v) :: _, h => ((h (k, v) List.mem_cons_self).within _).bind fun _ =>
    (encodeEntries_refines fun x hx => h x (List.mem_cons_of_mem _ hx)).bind fun _ => .refl _

theorem encodeFields_refines {es : List (String × Value)} : ∀ {fs : List Field},
    (∀ f ∈ fs, ∀ v, Rule.givenValue? es f = some v → (enc f.type.target v).Refines (enc' f.type.target v)) →
    (Rule.encodeFields cx enc es fs).Refines (Rule.encodeFields cx enc' es fs)
  | [], _ => .refl _
  | f :: fs, h => by
    unfold Rule.encodeFields
    cases hv : Rule.givenValue? es f with
    | none => exact .refl _
    | some v =>
      exact ((h f List.mem_cons_self v hv).within _).bind fun _ =>
        (encodeFields_refines fun f' hf' => h f' (List.mem_cons_of_mem _ hf')).bind fun _ => .refl _

/-- The value of a field is an entry or the default of the field. -/
theorem goesOn_givenValue {d : Descriptor} {fs : List Field} {f : Field} {es : List (String × Value)} {v : Value}
    (hd : d.shape = .record fs) (hf : f ∈ fs) (h : Rule.givenValue? es f = some v) :
    GoesOn g d (.dict es) f.type.target v := by
  unfold Rule.givenValue? at h
  split at h
  · rename_i e he
    cases h
    exact .entry hd hf (List.mem_of_find?_eq_some he)
  · exact .fallback hd hf h

theorem encodeUnion_refines {members : List Edge} {v : Value}
    (h : ∀ flat, g.flatMembers members = .ok flat → ∀ m ∈ flat, (enc m v).Refines (enc' m v)) :
    (Rule.encodeUnion g enc members v).Refines (Rule.encodeUnion g enc' members v) := by
  unfold Rule.encodeUnion
  cases hflat : g.flatMembers members with
  | error f => exact .refl _
  | ok flat => exact (choose_refines (h flat hflat)).bind fun _ => .refl _

/-- A rule has the outcome that it has by encodings of parts also by encodings that refine them. -/
theorem encode_refines {d : Descriptor} {v : Value} {r : Rule} (hr : r ∈ RuleTable.library)
    (h : ∀ {id' v'}, GoesOn cx.graph d v id' v' → (enc id' v').Refines (enc' id' v')) :
    (r.encode cx enc d v).Refines (r.encode cx enc' d v) := by
  revert r
  apply RuleTable.library_cases
  case record =>
    simp only [Rule.record]
    split
    · rename_i fs hd
      unfold Rule.encodeRecord
      split
      · split
        · exact .refl _
        · exact (encodeFields_refines fun f hf v hv => h (goesOn_givenValue hd hf hv)).map _
      · exact .refl _
    · exact .refl _
  case union =>
    simp only [Rule.union]
    split
    · rename_i members hd
      exact encodeUnion_refines fun flat hflat m hm => h (.member hd hflat hm)
    · exact .refl _
  case map =>
    simp only [Rule.map]
    split
    · rename_i key value es hd
      exact (encodeEntries_refines fun e he => h (.value hd he)).map _
    · exact .refl _
    · exact .refl _
  case sequence =>
    simp only [Rule.sequence]
    split
    · rename_i element items hd
      exact (encodeItems_refines fun v' hv' => h (.item hd hv')).map _
    · exact .refl _
    · exact .refl _
  all_goals exact .refl _

end Rules
end Avro
