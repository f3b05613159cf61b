import Avro.Proofs.Encoding.Accepted
import Avro.Proofs.Encoding.Depth

/-!
# Defaults that are refused

When the encoding of a default fails, and with which mismatch. An encoding that has parts fails at the first of them
that fails, behind parts that are accepted, and the mismatch is that of the part as seen from the whole
(`encodeItems_error`, `encodeEntries_error`, `encodeFields_error`). All other failures are of the value as a whole, so
their paths are empty (`path_of_encode_error`).
-/

namespace Avro

namespace Encode

variable {α β : Type} {e : Encode α} {m : Mismatch}

@[simp] theorem outcome_throw : (throw m : Encode α).outcome = some (.error m) := rfl

theorem outcome_bind_error {f : α → Encode β} : (e >>= f).outcome = some (.error m) ↔
    e.outcome = some (.error m) ∨ ∃ a, e.outcome = some (.ok a) ∧ (f a).outcome = some (.error m) := by
  rw [outcome_bind]
  cases e.outcome with
  | none => simp
  | some r => cases r <;> simp

theorem outcome_map (f : α → β) (e : Encode α) : (f <$> e).outcome = e.outcome.map (Except.map f) := by
  rw [map_eq_pure_bind, outcome_bind]
  cases e.outcome with
  | none => rfl
  | some r => cases r <;> rfl

@[simp] theorem outcome_map_error {f : α → β} :
    (f <$> e).outcome = some (.error m) ↔ e.outcome = some (.error m) := by
  rw [map_eq_pure_bind, outcome_bind_error]
  simp

theorem outcome_within_error {s : Segment} :
    (e.within s).outcome = some (.error m) ↔ ∃ n, e.outcome = some (.error n) ∧ n.within s = m := by
  rw [outcome_within]
  cases e.outcome with
  | none => simp
  | some r => cases r <;> simp [Except.mapError]

end Encode

open Encode

/-! ## Entries of records -/

section Entries

variable {es : List (String × Value)} {f : Field}

theorem unknownKey?_eq_none {fs : List Field} :
    Rule.unknownKey? fs es = none ↔ ∀ e ∈ es, ∃ f ∈ fs, f.name = e.1 := by
  simp [Rule.unknownKey?]

theorem givenValue?_of_missing (h : ∀ e ∈ es, e.1 ≠ f.name) : Rule.givenValue? es f = f.default := by
  have hnone : (es.find? fun e => e.1 == f.name) = none :=
    List.find?_eq_none.mpr fun e he => by simpa using h e he
  rw [Rule.givenValue?, hnone]

theorem givenValue?_eq_none : Rule.givenValue? es f = none ↔ (∀ e ∈ es, e.1 ≠ f.name) ∧ f.default = none := by
  by_cases hmissing : ∀ e ∈ es, e.1 ≠ f.name
  · rw [givenValue?_of_missing hmissing, and_iff_right hmissing]
  · obtain ⟨e, he⟩ : ∃ e, (es.find? fun e => e.1 == f.name) = some e := by
      simpa [← Option.isSome_iff_exists] using hmissing
    rw [Rule.givenValue?, he]
    exact iff_of_false (by simp) fun h => hmissing h.1

end Entries

/-! ## Lists, maps and records -/

section Parts

variable {encode : Value → Encode Json} {m : Mismatch}

/-- A list is refused because of its first item that is. -/
theorem encodeItems_error : ∀ {i : Nat} {items : List Value},
    (Rule.encodeItems encode i items).outcome = some (.error m) ↔ ∃ before v after n, items = before ++ v :: after ∧
      (∀ w ∈ before, ∃ j, (encode w).outcome = some (.ok j)) ∧ (encode v).outcome = some (.error n) ∧
        n.within (.index (i + before.length)) = m
  | i, [] => by simp [Rule.encodeItems]
  | i, v :: vs => by
    simp only [Rule.encodeItems, outcome_bind_error, outcome_within_error, outcome_within_ok, encodeItems_error,
      outcome_pure]
    constructor
    · rintro (⟨n, hn, rfl⟩ | ⟨j, hj, ⟨before, w, after, n, rfl, hbefore, hn, rfl⟩ | ⟨_, _, h⟩⟩)
      · exact ⟨[], v, vs, n, rfl, by simp, hn, rfl⟩
      · refine ⟨v :: before, w, after, n, rfl, List.forall_mem_cons.mpr ⟨⟨j, hj⟩, hbefore⟩, hn, ?_⟩
        rw [List.length_cons, Nat.add_right_comm, Nat.add_assoc]
      · cases h
    · rintro ⟨before, w, after, n, hitems, hbefore, hn, rfl⟩
      cases before with
      | nil =>
        cases hitems
        exact .inl ⟨n, hn, rfl⟩
      | cons _ before =>
        cases hitems
        obtain ⟨⟨j, hj⟩, hbefore⟩ := List.forall_mem_cons.mp hbefore
        refine .inr ⟨j, hj, .inl ⟨before, w, after, n, rfl, hbefore, hn, ?_⟩⟩
        rw [List.length_cons, Nat.add_right_comm, Nat.add_assoc]

/-- Entries are refused because of the first of them whose value is. -/
theorem encodeEntries_error : ∀ {es : List (String × Value)},
    (Rule.encodeEntries encode es).outcome = some (.error m) ↔ ∃ before k v after n, es = before ++ (k, v) :: after ∧
      (∀ e ∈ before, ∃ j, (encode e.2).outcome = some (.ok j)) ∧ (encode v).outcome = some (.error n) ∧
        n.within (.key k) = m
  | [] => by simp [Rule.encodeEntries]
  | (k, v) :: es => by
    simp only [Rule.encodeEntries, outcome_bind_error, outcome_within_error, outcome_within_ok, encodeEntries_error,
      outcome_pure]
    constructor
    · rintro (⟨n, hn, rfl⟩ | ⟨j, hj, ⟨before, k', w, after, n, rfl, hbefore, hn, rfl⟩ | ⟨_, _, h⟩⟩)
      · exact ⟨[], k, v, es, n, rfl, by simp, hn, rfl⟩
      · exact ⟨(k, v) :: before, k', w, after, n, rfl, List.forall_mem_cons.mpr ⟨⟨j, hj⟩, hbefore⟩, hn, rfl⟩
      · cases h
    · rintro ⟨before, k', w, after, n, hes, hbefore, hn, rfl⟩
      cases before with
      | nil =>
        cases hes
        exact .inl ⟨n, hn, rfl⟩
      | cons _ before =>
        cases hes
        obtain ⟨⟨j, hj⟩, hbefore⟩ := List.forall_mem_cons.mp hbefore
        exact .inr ⟨j, hj, .inl ⟨before, k', w, after, n, rfl, hbefore, hn, rfl⟩⟩

/-- A record is refused because of its first field that has no value, or one that is refused. -/
theorem encodeFields_error {cx : Setting} {encode : TypeId → Value → Encode Json} {es : List (String × Value)} :
    ∀ {fs : List Field}, (Rule.encodeFields cx encode es fs).outcome = some (.error m) ↔
      ∃ before f after n, fs = before ++ f :: after ∧
        (∀ g ∈ before, ∃ v, Rule.givenValue? es g = some v ∧ ∃ j, (encode g.type.target v).outcome = some (.ok j)) ∧
        (match Rule.givenValue? es f with
          | none => n = .here .noValue
          | some v => (encode f.type.target v).outcome = some (.error n)) ∧ n.within (.field f.name) = m
  | [] => by simp [Rule.encodeFields]
  | f :: fs => by
    unfold Rule.encodeFields
    cases hv : Rule.givenValue? es f with
    | none =>
      constructor
      · intro h
        cases h
        exact ⟨[], f, fs, _, rfl, by simp, by simp [hv], rfl⟩
      · rintro ⟨before, g, after, n, hfs, hbefore, hn, rfl⟩
        cases before with
        | nil =>
          cases hfs
          simp [hv] at hn
          simp [hn]
        | cons _ before =>
          cases hfs
          obtain ⟨⟨v, hv', -⟩, -⟩ := List.forall_mem_cons.mp hbefore
          cases hv.symm.trans hv'
    | some v =>
      simp only [outcome_bind_error, outcome_within_error, outcome_within_ok, encodeFields_error, outcome_pure]
      constructor
      · rintro (⟨n, hn, rfl⟩ | ⟨j, hj, ⟨before, g, after, n, rfl, hbefore, hn, rfl⟩ | ⟨_, _, h⟩⟩)
        · exact ⟨[], f, fs, n, rfl, by simp, by simpa [hv] using hn, rfl⟩
        · exact ⟨f :: before, g, after, n, rfl, List.forall_mem_cons.mpr ⟨⟨v, hv, j, hj⟩, hbefore⟩, hn, rfl⟩
        · cases h
      · rintro ⟨before, g, after, n, hfs, hbefore, hn, rfl⟩
        cases before with
        | nil =>
          cases hfs
          simp only [hv] at hn
          exact .inl ⟨n, hn, rfl⟩
        | cons _ before =>
          cases hfs
          obtain ⟨⟨w, hw, j, hj⟩, hbefore⟩ := List.forall_mem_cons.mp hbefore
          cases hv.symm.trans hw
          exact .inr ⟨j, hj, .inl ⟨before, g, after, n, rfl, hbefore, hn, rfl⟩⟩

end Parts

/-! ## Types without a rule -/

section NoRule

variable {cx : Setting} {id : TypeId} {v : Value}

/-- All values are refused where the description of the type is gone. -/
theorem encode_gone (hget : cx.graph.get? id = none) :
    (RuleTable.standard.encode cx id v).outcome = some (.error (.here .typeGone)) := by
  simp only [RuleTable.encode, RuleTable.encodeBound, RuleTable.encodeWithin, hget, outcome_throw]

/-- A type without a rule refuses all values. -/
theorem encode_noRule {d : Descriptor} (hget : cx.graph.get? id = some d) (hr : cx.graph.ruleFor? d = none) :
    (RuleTable.standard.encode cx id v).outcome =
      some (.error (.here (.type (.unsupported (.noRule d.label))))) := by
  have hfind : RuleTable.standard.find cx.graph d = .error (.unsupported (.noRule d.label)) := by
    unfold RuleTable.find
    rw [RuleTable.standard_find?, hr]
  simp only [RuleTable.encode, RuleTable.encodeBound, RuleTable.encodeWithin, hget, hfind, outcome_throw]

end NoRule

/-! ## Values without parts -/

/-- What is refused is the value as a whole. -/
def RefusesWhole (r : Except Mismatch Json) : Prop := ∀ m, r = .error m → m.path = []

section Whole

@[simp] theorem refusesWhole_ok (j : Json) : RefusesWhole (.ok j) := by rintro m ⟨⟩

@[simp] theorem refusesWhole_mismatch (r : Reason) : RefusesWhole (Rule.mismatch r) := by
  rintro m ⟨⟩
  rfl

@[simp] theorem refusesWhole_mustBe (what : String) (got : Value) : RefusesWhole (Rule.mustBe what got) := by
  rintro m ⟨⟩
  rfl

variable {v : Value}

theorem refusesWhole_basic {o : Options} {kind : Basic} : RefusesWhole (Rule.encodeBasic o kind v) := by
  unfold Rule.encodeBasic
  split
  case h_3 | h_4 => split <;> simp
  all_goals simp

theorem refusesWhole_forward : RefusesWhole (Rule.encodeForward v) := by
  unfold Rule.encodeForward
  split
  · simp
  · split <;> simp

theorem refusesWhole_string : RefusesWhole (Rule.encodeString v) := by
  unfold Rule.encodeString
  split <;> simp

theorem refusesWhole_document {isArray : Bool} : RefusesWhole (Rule.encodeDocument isArray v) := by
  unfold Rule.encodeDocument
  split <;> simp

theorem refusesWhole_logical {o : Options} {kind : Refined} : RefusesWhole (Rule.encodeLogical o kind v) := by
  unfold Rule.encodeLogical
  split
  case h_6 => split <;> simp
  all_goals simp

theorem refusesWhole_decimal {t : Decimal} : RefusesWhole (Rule.encodeDecimal t v) := by
  unfold Rule.encodeDecimal
  split
  · simp
  · split <;> simp

theorem refusesWhole_symbol {name : String} {symbols : List String} :
    RefusesWhole (Rule.encodeSymbol name symbols v) := by
  unfold Rule.encodeSymbol
  split
  · split <;> simp
  · simp

end Whole

/-! ## Unions -/

/-- A union refuses the value as a whole, whatever is wrong with it for each of the members. -/
theorem path_of_encodeUnion_error {g : TypeGraph} {encode : TypeId → Value → Encode Json} {members : List Edge}
    {v : Value} {m : Mismatch} (h : (Rule.encodeUnion g encode members v).outcome = some (.error m)) : m.path = [] := by
  unfold Rule.encodeUnion at h
  split at h
  · exact refusesWhole_mismatch _ m (Option.some.inj h)
  · simp only [outcome_bind_error, outcome_pure] at h
    obtain h | ⟨_, _, h⟩ := h
    · unfold choose at h
      split at h
      · cases h
      · cases h
      · cases h
        rfl
    · cases h

/-- The kinds of types that have defaults with parts, apart from unions. -/
def TypeGraph.isNested (g : TypeGraph) (d : Descriptor) : Bool :=
  match d.shape with
  | .record _ => true
  | .map _ _ | .sequence _ => !g.isJson d
  | _ => false

/-- A rule refuses a value as a whole if defaults of the type have no parts. -/
theorem path_of_encode_error {cx : Setting} {encode : TypeId → Value → Encode Json} {d : Descriptor} {r : Rule}
    {v : Value} {m : Mismatch} (hr : cx.graph.ruleFor? d = some r) (hn : cx.graph.isNested d = false)
    (h : (r.encode cx encode d v).outcome = some (.error m)) : m.path = [] := by
  obtain ⟨name, origin, doc, shape⟩ := d
  cases shape with
  | basic kind =>
    have hrule : r = .basic := by cases kind <;> cases hr <;> rfl
    subst hrule
    exact refusesWhole_basic m (Option.some.inj h)
  | refined kind =>
    cases kind with
    | duration => cases hr; exact refusesWhole_mismatch _ m (Option.some.inj h)
    | _ => cases hr; exact refusesWhole_logical m (Option.some.inj h)
  | namedString => cases hr; exact refusesWhole_string m (Option.some.inj h)
  | enum symbols => cases hr; exact refusesWhole_symbol m (Option.some.inj h)
  | record fs => cases hn
  | union members => cases hr; exact path_of_encodeUnion_error h
  | map | sequence =>
    simp only [TypeGraph.isNested, Bool.not_eq_false'] at hn
    simp only [TypeGraph.ruleFor?, hn, if_true, Option.some.injEq] at hr
    subst hr
    exact refusesWhole_document m (Option.some.inj h)
  | decimal params =>
    cases hr
    simp only [Rule.decimal] at h
    split at h
    · exact refusesWhole_decimal m (Option.some.inj h)
    · exact refusesWhole_mismatch _ m (Option.some.inj h)
  | forward target => cases hr; exact refusesWhole_forward m (Option.some.inj h)

end Avro
