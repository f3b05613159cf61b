import Avro.Proofs.Encoding.Refines
import Avro.Proofs.Lists

/-!
# Defaults that are accepted

When the encoding of a default succeeds: what the encodings of its parts are then, for the items of a list, the entries
of a map and the fields of a record, and from which values of a type without parts there is an encoding at all.
-/

namespace Avro

namespace Encode

variable {α β : Type} {e : Encode α} {a : α} {b : β}

@[simp] theorem outcome_pure : (pure a : Encode α).outcome = some (.ok a) := rfl

@[simp] theorem outcome_ofExcept {r : Except Mismatch α} : (ofExcept r).outcome = some r := rfl

@[simp] theorem outcome_bind_ok {f : α → Encode β} :
    (e >>= f).outcome = some (.ok b) ↔ ∃ a, e.outcome = some (.ok a) ∧ (f a).outcome = some (.ok b) := by
  rw [outcome_bind]
  constructor
  · intro h
    obtain ⟨r, hr, h⟩ := Option.bind_eq_some_iff.mp h
    cases r with
    | ok a => exact ⟨a, hr, h⟩
    | error m => cases h
  · rintro ⟨a, ha, h⟩
    rw [ha]
    exact h

@[simp] theorem outcome_map_ok {f : α → β} :
    (f <$> e).outcome = some (.ok b) ↔ ∃ a, e.outcome = some (.ok a) ∧ f a = b := by
  rw [map_eq_pure_bind, outcome_bind_ok]
  simp only [outcome_pure, Option.some.injEq, Except.ok.injEq]

@[simp] theorem outcome_within_ok {s : Segment} : (e.within s).outcome = some (.ok a) ↔ e.outcome = some (.ok a) := by
  rw [outcome_within]
  constructor
  · intro h
    obtain ⟨r, hr, h⟩ := Option.map_eq_some_iff.mp h
    cases r with
    | ok c => cases h; exact hr
    | error m => cases h
  · intro h
    rw [h]
    rfl

end Encode

open Encode

/-! ## Lists, maps and records -/

section Parts

variable {encode : Value → Encode Json}

/-- The items of a list are encoded one by one. -/
theorem encodeItems_ok : ∀ {i : Nat} {items : List Value} {js : List Json},
    (Rule.encodeItems encode i items).outcome = some (.ok js) ↔
      List.Forall₂ (fun v j => (encode v).outcome = some (.ok j)) items js
  | i, [], js => by simp [Rule.encodeItems, eq_comm]
  | i, v :: vs, js => by
    simp only [Rule.encodeItems, outcome_bind_ok, outcome_within_ok, encodeItems_ok, outcome_pure]
    constructor
    · rintro ⟨j, hj, js', hjs, h⟩
      cases h
      exact .cons hj hjs
    · intro h
      cases h with
      | cons hj hjs => exact ⟨_, hj, _, hjs, rfl⟩

/-- The values of entries are encoded one by one, under their keys. -/
theorem encodeEntries_ok : ∀ {es : List (String × Value)} {js : Json.Entries},
    (Rule.encodeEntries encode es).outcome = some (.ok js) ↔
      List.Forall₂ (fun x y => y.1 = x.1 ∧ (encode x.2).outcome = some (.ok y.2)) es js
  | [], js => by simp [Rule.encodeEntries, eq_comm]
  | (k, v) :: es, js => by
    simp only [Rule.encodeEntries, outcome_bind_ok, outcome_within_ok, encodeEntries_ok, outcome_pure]
    constructor
    · rintro ⟨j, hj, js', hjs, h⟩
      cases h
      exact .cons ⟨rfl, hj⟩ hjs
    · intro h
      cases h with
      | @cons _ y _ ys hy hys =>
        obtain ⟨k', j⟩ := y
        obtain ⟨rfl, hj⟩ := hy
        exact ⟨j, hj, ys, hys, rfl⟩

/-- Each field of a record has a value, which is encoded under the name that the field has in schemas. -/
theorem encodeFields_ok {cx : Setting} {encode : TypeId → Value → Encode Json} {es : List (String × Value)} :
    ∀ {fs : List Field} {js : Json.Entries}, (Rule.encodeFields cx encode es fs).outcome = some (.ok js) ↔
      List.Forall₂ (fun f y => y.1 = cx.fieldName f ∧ ∃ v, Rule.givenValue? es f = some v ∧
        (encode f.type.target v).outcome = some (.ok y.2)) fs js
  | [], js => by simp [Rule.encodeFields, eq_comm]
  | f :: fs, js => by
    unfold Rule.encodeFields
    cases hv : Rule.givenValue? es f with
    | none =>
      constructor
      · intro h
        cases h
      · intro h
        cases h with
        | cons hy _ =>
          obtain ⟨-, v, hv', -⟩ := hy
          cases hv.symm.trans hv'
    | some v =>
      simp only [outcome_bind_ok, outcome_within_ok, encodeFields_ok, outcome_pure]
      constructor
      · rintro ⟨j, hj, js', hjs, h⟩
        cases h
        exact .cons ⟨rfl, v, hv, hj⟩ hjs
      · intro h
        cases h with
        | @cons _ y _ ys hy hys =>
          obtain ⟨k, j⟩ := y
          obtain ⟨rfl, v', hv', hj⟩ := hy
          cases hv.symm.trans hv'
          exact ⟨j, hj, ys, hys, rfl⟩

/-- A default of a record gives a value to each field, and nothing else. -/
theorem encodeRecord_ok {cx : Setting} {encode : TypeId → Value → Encode Json} {name : String} {fs : List Field}
    {v : Value} {j : Json} : (Rule.encodeRecord cx encode name fs v).outcome = some (.ok j) ↔
      ∃ es js, v = .dict es ∧ Rule.unknownKey? fs es = none ∧
        (Rule.encodeFields cx encode es fs).outcome = some (.ok js) ∧ Json.ofEntries js = j := by
  unfold Rule.encodeRecord
  cases v with
  | dict es =>
    dsimp only
    cases hk : Rule.unknownKey? fs es with
    | none => simp [hk]
    | some key => simp [Rule.mismatch, hk]
  | _ => simp [Rule.mustBe]

end Parts

end Avro
