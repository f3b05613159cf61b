import Avro.Proofs.Encoding.Refused
import Avro.Proofs.Graph.Members
import Avro.Proofs.Tree.Translates
import Mathlib.Data.Set.Finite.List
import Mathlib.Order.WellFounded

/-!
# Defaults that fall back on defaults

The encoding of a value of a type asks for encodings of values of other types, one after the other, as far as it gets
(`Setting.Asks`). So it goes down into the value, except where a record has no entry for a field: there it goes on to
the default of the field. If no default of a field comes back to itself in this way, all encodings end (`defaultsEnd`):
each way from default to default does, since there are only so many fields, and between two of them the value gets
smaller.
-/

namespace Avro

open Relation RuleTable

/-- A pass over a list that stops behind the first that does not pass comes to a member. -/
inductive ComesTo {α : Type} (Passes : α → Prop) : List α → α → Prop
  | here {a : α} {as : List α} : ComesTo Passes (a :: as) a
  | next {a b : α} {as : List α} : Passes a → ComesTo Passes as b → ComesTo Passes (a :: as) b

theorem ComesTo.mem {α : Type} {Passes : α → Prop} {as : List α} {a : α} (h : ComesTo Passes as a) : a ∈ as := by
  induction h with
  | here => exact List.mem_cons_self
  | next _ _ ih => exact List.mem_cons_of_mem _ ih

/-! ## What an encoding asks for -/

/-- Entries of a value: keys with their values. -/
abbrev Value.Entries := List (String × Value)

/-- The value of the field in a default of its record is accepted. -/
def Setting.AcceptsField (cx : Setting) (es : Value.Entries) (f : Field) : Prop :=
  ∃ v, Rule.givenValue? es f = some v ∧ cx.Accepts f.type.target v

/-- The encoding of entries as a default of a record comes to a field. -/
structure Setting.ComesToField (cx : Setting) (id : TypeId) (es : Value.Entries) (f : Field) : Prop where
  known : Rule.unknownKey? (cx.graph.fieldsOf id) es = none
  comes : ComesTo (cx.AcceptsField es) (cx.graph.fieldsOf id) f

/-- The encoding of a value of a type asks for the encoding of another value of another type. -/
inductive Setting.Asks (cx : Setting) : TypeId × Value → TypeId × Value → Prop
  /-- A union asks its members, up to the first that accepts the value. -/
  | member {id m : TypeId} {d : Descriptor} {members : List Edge} {flat : List TypeId} {v : Value} :
      cx.graph.get? id = some d → d.shape = .union members → cx.graph.flatMembers members = .ok flat →
      ComesTo (fun b => cx.Refuses b v) flat m → Asks cx (id, v) (m, v)
  | item {id : TypeId} {d : Descriptor} {element : Edge} {items : List Value} {v : Value} :
      cx.graph.get? id = some d → d.shape = .sequence element → cx.graph.isJson d = false →
      ComesTo (cx.Accepts element.target) items v → Asks cx (id, .list items) (element.target, v)
  | value {id : TypeId} {d : Descriptor} {key value : Edge} {es : Value.Entries} {e : String × Value} :
      cx.graph.get? id = some d → d.shape = .map key value → cx.graph.isJson d = false →
      ComesTo (fun e => cx.Accepts value.target e.2) es e → Asks cx (id, .dict es) (value.target, e.2)
  | entry {id : TypeId} {f : Field} {es : Value.Entries} {e : String × Value} :
      cx.ComesToField id es f → (es.find? fun e => e.1 == f.name) = some e →
      Asks cx (id, .dict es) (f.type.target, e.2)
  /-- A record without an entry for a field asks for the default of the field. -/
  | fallback {id : TypeId} {f : Field} {es : Value.Entries} {v : Value} :
      cx.ComesToField id es f → (es.find? fun e => e.1 == f.name) = none → f.default = some v →
      Asks cx (id, .dict es) (f.type.target, v)

/-- The encoding of a value comes to the default of a field of a record. -/
def Setting.Meets (cx : Setting) (p : TypeId × Value) (a : TypeId × Field) : Prop :=
  ∃ es, ReflTransGen cx.Asks p (a.1, .dict es) ∧ cx.ComesToField a.1 es a.2 ∧
    (es.find? fun e => e.1 == a.2.name) = none ∧ a.2.default.isSome = true

/-- The default of the one field falls back on that of the other. -/
def Setting.FallsBack (cx : Setting) (a b : TypeId × Field) : Prop :=
  ∃ v, a.2.default = some v ∧ cx.Meets (a.2.type.target, v) b

/-- No default of a field that can be reached falls back on itself. -/
def Setting.NoSelfFallback (cx : Setting) (root : TypeId) : Prop :=
  ∀ {r f}, cx.graph.Reachable root r → f ∈ cx.graph.fieldsOf r → ¬ cx.FallsBack (r, f) (r, f)

variable {cx : Setting} {root id : TypeId} {v : Value} {p q : TypeId × Value} {a b c : TypeId × Field}

theorem Setting.Meets.head (hpq : cx.Asks p q) (h : cx.Meets q a) : cx.Meets p a := by
  obtain ⟨es, hasks, h⟩ := h
  exact ⟨es, .head hpq hasks, h⟩

theorem Setting.FallsBack.trans (hab : cx.FallsBack a b) (hbc : cx.FallsBack b c) : cx.FallsBack a c := by
  obtain ⟨v, hv, es, hasks, hcomes, hmissing, -⟩ := hab
  obtain ⟨w, hw, es', hasks', h⟩ := hbc
  exact ⟨v, hv, es', hasks.trans (.head (.fallback hcomes hmissing hw) hasks'), h⟩

/-! ## Encodings by those that they ask for -/

namespace Encode

variable {α β : Type} {e : Encode α}

/-- The encoding ends. -/
def Ends (e : Encode α) : Prop := ∃ r, e.outcome = some r

theorem ends_pure (a : α) : (pure a : Encode α).Ends := ⟨.ok a, rfl⟩

theorem ends_throw (m : Mismatch) : (throw m : Encode α).Ends := ⟨.error m, rfl⟩

theorem ends_ofExcept (r : Except Mismatch α) : (ofExcept r).Ends := ⟨r, rfl⟩

theorem Ends.bind {f : α → Encode β} (he : e.Ends) (hf : ∀ a, e.outcome = some (.ok a) → (f a).Ends) :
    (e >>= f).Ends := by
  obtain ⟨r, hr⟩ := he
  unfold Ends
  rw [outcome_bind, hr, Option.bind_some]
  cases r with
  | ok a => exact hf a hr
  | error m => exact ⟨.error m, rfl⟩

theorem Ends.map (he : e.Ends) (f : α → β) : (f <$> e).Ends := by
  rw [map_eq_pure_bind]
  exact he.bind fun a _ => ends_pure (f a)

theorem Ends.within (he : e.Ends) (s : Segment) : (e.within s).Ends := by
  obtain ⟨r, hr⟩ := he
  exact ⟨_, by rw [outcome_within, hr, Option.map_some]⟩

variable {g : TypeGraph} {encode : TypeId → Value → Encode Json}

theorem exists_firstAccepting : ∀ {flat : List TypeId},
    (∀ m, ComesTo (fun b => ∃ e, (encode b v).outcome = some (.error e)) flat m → (encode m v).Ends) →
    ∃ c?, firstAccepting encode v flat = some c?
  | [], _ => ⟨none, rfl⟩
  | m :: ms, h => by
    obtain ⟨r, hr⟩ := h m .here
    unfold firstAccepting
    rw [hr]
    cases r with
    | ok j => exact ⟨_, rfl⟩
    | error e =>
      obtain ⟨c?, hc⟩ := exists_firstAccepting fun b hb => h b (.next ⟨e, hr⟩ hb)
      exact ⟨_, by rw [hc, Option.map_some]⟩

theorem ends_choose {flat : List TypeId}
    (h : ∀ m, ComesTo (fun b => ∃ e, (encode b v).outcome = some (.error e)) flat m → (encode m v).Ends) :
    (choose g encode flat v).Ends := by
  obtain ⟨c?, hc⟩ := exists_firstAccepting h
  unfold choose
  rw [hc]
  cases c? with
  | none => exact ends_throw _
  | some c => exact ends_pure c

end Encode

open Encode

theorem ends_encodeItems {encode : Value → Encode Json} : ∀ {i : Nat} {items : List Value},
    (∀ v, ComesTo (fun w => ∃ j, (encode w).outcome = some (.ok j)) items v → (encode v).Ends) →
    (Rule.encodeItems encode i items).Ends
  | _, [], _ => ends_pure []
  | _, _ :: _, h => ((h _ .here).within _).bind fun j hj =>
    (ends_encodeItems fun w hw => h w (.next ⟨j, outcome_within_ok.mp hj⟩ hw)).bind fun _ _ => ends_pure _

theorem ends_encodeEntries {encode : Value → Encode Json} : ∀ {es : Value.Entries},
    (∀ e, ComesTo (fun e => ∃ j, (encode e.2).outcome = some (.ok j)) es e → (encode e.2).Ends) →
    (Rule.encodeEntries encode es).Ends
  | [], _ => ends_pure []
  | (_, _) :: _, h => ((h _ .here).within _).bind fun j hj =>
    (ends_encodeEntries fun e he => h e (.next ⟨j, outcome_within_ok.mp hj⟩ he)).bind fun _ _ => ends_pure _

theorem ends_encodeFields {encode : TypeId → Value → Encode Json} {es : Value.Entries} : ∀ {fs : List Field},
    (∀ f v, ComesTo (fun f => ∃ w, Rule.givenValue? es f = some w ∧ ∃ j, (encode f.type.target w).outcome = some (.ok j))
      fs f → Rule.givenValue? es f = some v → (encode f.type.target v).Ends) →
    (Rule.encodeFields cx encode es fs).Ends
  | [], _ => ends_pure []
  | f :: fs, h => by
    unfold Rule.encodeFields
    cases hv : Rule.givenValue? es f with
    | none => exact ends_throw _
    | some v =>
      exact ((h f v .here hv).within _).bind fun j hj =>
        (ends_encodeFields fun f' v' hf' => h f' v' (.next ⟨v, hv, j, outcome_within_ok.mp hj⟩ hf')).bind fun _ _ =>
          ends_pure _

/-- The value of a field that is come to is asked for. -/
theorem asks_givenValue {es : Value.Entries} {f : Field} (hcomes : cx.ComesToField id es f)
    (h : Rule.givenValue? es f = some v) : cx.Asks (id, .dict es) (f.type.target, v) := by
  unfold Rule.givenValue? at h
  split at h
  · rename_i e he
    cases h
    exact .entry hcomes he
  · rename_i hmissing
    exact .fallback hcomes hmissing h

/-- A rule encodes a value if the encodings that the value asks for end. -/
theorem ends_rule {d : Descriptor} {r : Rule} (hget : cx.graph.get? id = some d) (hr : cx.graph.ruleFor? d = some r)
    (h : ∀ q, cx.Asks (id, v) q → (standard.encode cx q.1 q.2).Ends) : (r.encode cx (standard.encode cx) d v).Ends := by
  unfold TypeGraph.ruleFor? at hr
  split at hr
  case h_7 fs hd =>
    cases hr
    simp only [Rule.record, hd, Rule.encodeRecord]
    split
    · rename_i es
      split
      · exact ends_ofExcept _
      · rename_i hknown
        refine (ends_encodeFields fun f w hcomes hw => h (f.type.target, w) (asks_givenValue ?_ hw)).map _
        rw [← TypeGraph.fieldsOf_eq hget hd] at hknown hcomes
        exact ⟨hknown, hcomes⟩
    · exact ends_ofExcept _
  case h_8 members hd =>
    cases hr
    simp only [Rule.union, hd, Rule.encodeUnion]
    cases hflat : cx.graph.flatMembers members with
    | error f => exact ends_ofExcept _
    | ok flat =>
      exact (ends_choose fun m hm => h (m, v) (.member hget hd hflat hm)).bind fun c _ => ends_pure _
  case h_9 key value hd =>
    split at hr <;> cases hr
    · exact ends_ofExcept _
    · rename_i hj
      simp only [Rule.map, hd]
      cases v with
      | dict es => exact (ends_encodeEntries fun e he => h _ (.value hget hd (by simpa using hj) he)).map _
      | _ => exact ends_ofExcept _
  case h_10 element hd =>
    split at hr <;> cases hr
    · exact ends_ofExcept _
    · rename_i hj
      simp only [Rule.sequence, hd]
      cases v with
      | list items => exact (ends_encodeItems fun w hw => h _ (.item hget hd (by simpa using hj) hw)).map _
      | _ => exact ends_ofExcept _
  case h_11 params hd =>
    cases hr
    simp only [Rule.decimal]
    split <;> exact ends_ofExcept _
  case h_1 => cases hr
  case h_2 kind _ hd | h_4 kind _ hd =>
    cases hr
    simp only [Rule.basic, Rule.logical, hd]
    exact ends_ofExcept _
  case h_6 symbols hd =>
    cases hr
    simp only [Rule.enum, hd]
    exact ends_ofExcept _
  all_goals
    cases hr
    exact ends_ofExcept _

/-- **The encoding of a value ends if those that it asks for do.** -/
theorem ends_of_asks (h : ∀ q, cx.Asks (id, v) q → (standard.encode cx q.1 q.2).Ends) :
    (standard.encode cx id v).Ends := by
  cases hget : cx.graph.get? id with
  | none => exact ⟨_, encode_gone hget⟩
  | some d =>
    cases hr : cx.graph.ruleFor? d with
    | none => exact ⟨_, encode_noRule hget hr⟩
    | some r =>
      rw [encode_eq hget hr]
      exact ends_rule hget hr h

/-! ## Ways from default to default -/

theorem TypeGraph.mem_fieldsOf {g : TypeGraph} {f : Field} (h : f ∈ g.fieldsOf id) :
    ∃ d fs, g.get? id = some d ∧ d.shape = .record fs ∧ f ∈ fs := by
  unfold fieldsOf at h
  cases hget : g.get? id with
  | none => simp [hget] at h
  | some d =>
    unfold Descriptor.fields? at h
    rw [hget] at h
    cases hd : d.shape with
    | record fs => exact ⟨d, fs, rfl, hd, by simpa [hd] using h⟩
    | _ => simp [hd] at h

/-- What the encoding of a value asks for can be reached from its type. -/
theorem Setting.Asks.reachable (h : cx.Asks p q) : cx.graph.Reachable p.1 q.1 := by
  cases h with
  | member hget hd hflat hm => exact TypeGraph.reachable_of_mem_flatMembers hget hd hflat hm.mem
  | item hget hd hj => exact .single (TypeGraph.leadsUnnamed_element hget hd hj).leads
  | value hget hd hj => exact .single (TypeGraph.leadsUnnamed_value hget hd hj).leads
  | entry hcomes | fallback hcomes =>
    obtain ⟨d, fs, hget, hd, hf⟩ := TypeGraph.mem_fieldsOf hcomes.comes.mem
    exact .single (TypeGraph.leads_field hget hd hf)

theorem Setting.Meets.reachable (h : cx.Meets p a) :
    cx.graph.Reachable p.1 a.1 ∧ a.2 ∈ cx.graph.fieldsOf a.1 := by
  obtain ⟨es, hasks, hcomes, -⟩ := h
  refine ⟨?_, hcomes.comes.mem⟩
  generalize hq : (a.1, Value.dict es) = q at hasks
  rw [show a.1 = q.1 from hq ▸ rfl]
  clear hq
  induction hasks with
  | refl => exact .refl
  | tail _ hstep ih => exact ih.trans hstep.reachable

/-- A value that is no list and has no entries meets no default. -/
theorem Setting.not_meets_of_scalar (hlist : ∀ items, v ≠ .list items) (hdict : ∀ es, v ≠ .dict es) :
    ¬ cx.Meets (id, v) a := by
  rintro ⟨es, hasks, -⟩
  -- all that is asked for is the value itself, of one type or another
  have hsame : ∀ {q}, ReflTransGen cx.Asks (id, v) q → q.2 = v := by
    intro q hq
    induction hq with
    | refl => rfl
    | tail _ hstep ih =>
      cases hstep with
      | member => exact ih
      | item => exact absurd ih.symm (hlist _)
      | value | entry | fallback => exact absurd ih.symm (hdict _)
  exact hdict es (hsame hasks).symm

/-- How far the encoding of a value can go down into it: a union is above its members, which are no unions. -/
def Setting.height (cx : Setting) (p : TypeId × Value) : Nat :=
  match (cx.graph.get? p.1).map Descriptor.shape with
  | some (.union _) => 2 * p.2.size + 1
  | _ => 2 * p.2.size

theorem Setting.height_le (p : TypeId × Value) : 2 * p.2.size ≤ cx.height p ∧ cx.height p ≤ 2 * p.2.size + 1 := by
  unfold height
  split <;> omega

theorem Setting.height_lt_of_size_lt (h : q.2.size < p.2.size) : cx.height q < cx.height p := by
  have hp := cx.height_le p
  have hq := cx.height_le q
  omega

/-- An encoding asks for one less high, or meets the default of a field. -/
theorem Setting.Asks.height_lt (h : cx.Asks p q) : cx.height q < cx.height p ∨
    ∃ a v, cx.Meets p a ∧ a.2.default = some v ∧ q = (a.2.type.target, v) := by
  cases h with
  | @member id m d members flat v hget hd hflat hm =>
    obtain ⟨-, d', hget', hleaf⟩ := TypeGraph.flatMembers_reached hget hd hflat hm.mem
    left
    unfold height
    simp only [hget, hget', hd, Option.map_some]
    split
    · rename_i members' hd'
      exact absurd (Option.some.inj hd') (hleaf members')
    · exact Nat.lt_succ_self _
  | item _ _ _ hmem =>
    have hsize := Value.size_le_items hmem.mem
    exact .inl (height_lt_of_size_lt (by simp only [Value.size]; omega))
  | value _ _ _ hmem =>
    have hsize := Value.size_le_entries hmem.mem
    exact .inl (height_lt_of_size_lt (by simp only [Value.size]; omega))
  | entry _ hfind =>
    have hsize := Value.size_le_entries (List.mem_of_find?_eq_some hfind)
    exact .inl (height_lt_of_size_lt (by simp only [Value.size]; omega))
  | @fallback id f es v hcomes hmissing hv =>
    exact .inr ⟨(id, f), v, ⟨es, .refl, hcomes, hmissing, by simp [hv]⟩, hv, rfl⟩

/-- An encoding ends if those of all defaults do that it meets. -/
theorem ends_of_meets (p : TypeId × Value)
    (h : ∀ a v, cx.Meets p a → a.2.default = some v → (standard.encode cx a.2.type.target v).Ends) :
    (standard.encode cx p.1 p.2).Ends := by
  refine ends_of_asks fun q hq => ?_
  rcases hq.height_lt with hlt | ⟨a, v, hmeets, hv, rfl⟩
  · exact ends_of_meets q fun a v hmeets hv => h a v (hmeets.head hq) hv
  · exact h a v hmeets hv
termination_by cx.height p

/-- There are only so many fields. -/
theorem TypeGraph.finite_fields (g : TypeGraph) : {a : TypeId × Field | a.2 ∈ g.fieldsOf a.1}.Finite := by
  refine (List.finite_toSet ((List.range g.size).flatMap fun r => (g.fieldsOf r).map fun f => (r, f))).subset ?_
  rintro ⟨r, f⟩ hf
  obtain ⟨d, -, hget, -⟩ := mem_fieldsOf hf
  exact List.mem_flatMap.mpr ⟨r, List.mem_range.mpr (lt_size_of_get? hget), List.mem_map.mpr ⟨f, hf, rfl⟩⟩

/-- The fields of the records that can be reached. -/
abbrev Setting.FieldsBelow (cx : Setting) (root : TypeId) : Type :=
  {a : TypeId × Field // cx.graph.Reachable root a.1 ∧ a.2 ∈ cx.graph.fieldsOf a.1}

theorem wellFounded_fallsBack (h : cx.NoSelfFallback root) :
    WellFounded fun b a : cx.FieldsBelow root => cx.FallsBack a.1 b.1 := by
  have hsubset : {a : TypeId × Field | cx.graph.Reachable root a.1 ∧ a.2 ∈ cx.graph.fieldsOf a.1} ⊆
      {a | a.2 ∈ cx.graph.fieldsOf a.1} := fun _ ha => ha.2
  have hfinite : Finite (cx.FieldsBelow root) := (cx.graph.finite_fields.subset hsubset).to_subtype
  have htrans : IsTrans (cx.FieldsBelow root) fun b a => cx.FallsBack a.1 b.1 := ⟨fun _ _ _ hab hbc => hbc.trans hab⟩
  have hirrefl : Std.Irrefl fun b a : cx.FieldsBelow root => cx.FallsBack a.1 b.1 := ⟨fun a => h a.2.1 a.2.2⟩
  exact Finite.wellFounded_of_trans_of_irrefl _

/-- The encodings of the defaults of all fields below a type end. -/
def Setting.DefaultsEnd (cx : Setting) (root : TypeId) : Prop :=
  ∀ (a : cx.FieldsBelow root) {v : Value}, a.1.2.default = some v → (standard.encode cx a.1.2.type.target v).Ends

/-- **If no default falls back on itself, the encodings of all defaults end.** -/
theorem defaultsEnd (h : cx.NoSelfFallback root) : cx.DefaultsEnd root := by
  intro a
  induction a using (wellFounded_fallsBack h).induction with
  | _ a ih =>
    intro v hv
    obtain ⟨⟨r, f⟩, hr, hf⟩ := a
    refine ends_of_meets (f.type.target, v) fun b w hmeets hw => ?_
    obtain ⟨hreach, hb⟩ := hmeets.reachable
    obtain ⟨d, fs, hget, hd, hf⟩ := TypeGraph.mem_fieldsOf hf
    have hbelow : cx.graph.Reachable root b.1 := (hr.tail (TypeGraph.leads_field hget hd hf)).trans hreach
    exact ih ⟨b, hbelow, hb⟩ ⟨v, hv, hmeets⟩ hw

end Avro
