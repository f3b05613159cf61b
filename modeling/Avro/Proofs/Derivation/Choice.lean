import Avro.Proofs.Encoding.Accepted
import Avro.Proofs.Encoding.Depth

/-!
# The member that a default belongs to

`Encode.choose` takes the first member that accepts the default and puts it in front of the others, which keep their
order (`choose_ok_iff`). `Setting.OrderFor` says this of a list of members and the list that a schema shows.
-/

namespace Avro

/-- The type accepts the value as a default. -/
def Setting.Accepts (cx : Setting) (id : TypeId) (v : Value) : Prop :=
  ∃ j, (RuleTable.standard.encode cx id v).outcome = some (.ok j)

/-- The type refuses the value as a default. -/
def Setting.Refuses (cx : Setting) (id : TypeId) (v : Value) : Prop :=
  ∃ m, (RuleTable.standard.encode cx id v).outcome = some (.error m)

theorem Setting.Refuses.not_accepts {cx : Setting} {id : TypeId} {v : Value} (h : cx.Refuses id v) :
    ¬ cx.Accepts id v := by
  rintro ⟨j, hj⟩
  obtain ⟨m, hm⟩ := h
  cases hj.symm.trans hm

/-- All refuse the value, or there is a first one that does not. -/
theorem Setting.refuses_or_first (cx : Setting) (v : Value) (flat : List TypeId) : (∀ m ∈ flat, cx.Refuses m v) ∨
    ∃ before m after, flat = before ++ m :: after ∧ (∀ b ∈ before, cx.Refuses b v) ∧ ¬ cx.Refuses m v := by
  induction flat with
  | nil => exact .inl (List.forall_mem_nil _)
  | cons a flat ih =>
    by_cases ha : cx.Refuses a v
    · rcases ih with hall | ⟨before, m, after, rfl, hbefore, hm⟩
      · exact .inl (List.forall_mem_cons.mpr ⟨ha, hall⟩)
      · exact .inr ⟨a :: before, m, after, rfl, List.forall_mem_cons.mpr ⟨ha, hbefore⟩, hm⟩
    · exact .inr ⟨[], a, flat, rfl, List.forall_mem_nil _, ha⟩

/--
The order in which a schema shows the members of a union: as they are, or with the first that accepts the default in
front if there is one.
-/
def Setting.OrderFor (cx : Setting) : Option Value → List TypeId → List TypeId → Prop
  | none, flat, order => order = flat
  | some v, flat, order => ∃ before m after, flat = before ++ m :: after ∧ order = m :: (before ++ after) ∧
      cx.Accepts m v ∧ ∀ b ∈ before, cx.Refuses b v

/-- The members are in the order, and nothing else. -/
theorem Setting.OrderFor.mem {cx : Setting} {default : Option Value} {flat order : List TypeId}
    (h : cx.OrderFor default flat order) {m : TypeId} : m ∈ order ↔ m ∈ flat := by
  cases default with
  | none => rw [show order = flat from h]
  | some v =>
    obtain ⟨before, m', after, rfl, rfl, -⟩ := h
    simp only [List.mem_cons, List.mem_append]
    constructor
    · rintro (h | h | h) <;> simp [h]
    · rintro (h | h | h) <;> simp [h]

namespace Encode

variable {g : TypeGraph} {encode : TypeId → Value → Encode Json} {v : Value}

/-- The members in front of the one that is found refuse the default. -/
theorem exists_of_firstAccepting {c : Choice} : ∀ {flat : List TypeId}, firstAccepting encode v flat = some (some c) →
    ∃ before after, flat = before ++ c.member :: after ∧ c.others = before ++ after ∧
      (encode c.member v).outcome = some (.ok c.encoded) ∧ ∀ b ∈ before, ∃ m, (encode b v).outcome = some (.error m)
  | a :: as, h => by
    unfold firstAccepting at h
    split at h
    · cases h
    · rename_i j ha
      cases h
      exact ⟨[], as, rfl, rfl, ha, by simp⟩
    · rename_i m ha
      obtain ⟨c?, hfirst, hc⟩ := Option.map_eq_some_iff.mp h
      obtain ⟨c', rfl, rfl⟩ := Option.map_eq_some_iff.mp hc
      obtain ⟨before, after, rfl, hothers, hok, hbefore⟩ := exists_of_firstAccepting hfirst
      refine ⟨a :: before, after, rfl, by rw [hothers]; rfl, hok, fun b hb => ?_⟩
      rcases List.mem_cons.mp hb with rfl | hb
      · exact ⟨m, ha⟩
      · exact hbefore b hb

/-- A member that accepts the default is found behind members that refuse it. -/
theorem firstAccepting_append {m : TypeId} {j : Json} {after : List TypeId}
    (hok : (encode m v).outcome = some (.ok j)) : ∀ {before : List TypeId},
    (∀ b ∈ before, ∃ e, (encode b v).outcome = some (.error e)) →
      firstAccepting encode v (before ++ m :: after) = some (some ⟨m, j, before ++ after⟩)
  | [], _ => by simp [firstAccepting, hok]
  | b :: before, h => by
    obtain ⟨e, he⟩ := h b List.mem_cons_self
    have hrest : firstAccepting encode v (before ++ m :: after) = some (some ⟨m, j, before ++ after⟩) :=
      firstAccepting_append hok fun b' hb' => h b' (List.mem_cons_of_mem _ hb')
    rw [List.cons_append, firstAccepting, he, hrest]
    rfl

/-- If all members refuse the default, none is found. -/
theorem firstAccepting_refused : ∀ {flat : List TypeId},
    (∀ b ∈ flat, ∃ e, (encode b v).outcome = some (.error e)) → firstAccepting encode v flat = some none
  | [], _ => rfl
  | b :: flat, h => by
    obtain ⟨e, he⟩ := h b List.mem_cons_self
    rw [firstAccepting, he, firstAccepting_refused fun b' hb' => h b' (List.mem_cons_of_mem _ hb')]
    rfl

theorem choose_refused {flat : List TypeId} (h : ∀ b ∈ flat, ∃ e, (encode b v).outcome = some (.error e)) :
    (choose g encode flat v).outcome =
      some (.error (.expected ("one of [" ++ ", ".intercalate (flat.map g.nameOf) ++ "]") v)) := by
  unfold choose
  rw [firstAccepting_refused h]
  rfl

/-- A choice is made if and only if some member accepts the default. -/
theorem choose_ok_iff {c : Choice} {flat : List TypeId} : (choose g encode flat v).outcome = some (.ok c) ↔
    ∃ before after, flat = before ++ c.member :: after ∧ c.others = before ++ after ∧
      (encode c.member v).outcome = some (.ok c.encoded) ∧
      ∀ b ∈ before, ∃ m, (encode b v).outcome = some (.error m) := by
  have hchoose : (choose g encode flat v).outcome = some (.ok c) ↔ firstAccepting encode v flat = some (some c) := by
    unfold choose
    cases firstAccepting encode v flat with
    | none => simp [endless, outcome, ExceptT.run, ExceptT.mk]
    | some c? =>
      cases c? with
      | none =>
        constructor
        · intro h
          cases h
        · intro h
          cases h
      | some c' => simp
  rw [hchoose]
  constructor
  · exact exists_of_firstAccepting
  · obtain ⟨m, j, others⟩ := c
    rintro ⟨before, after, rfl, rfl, hok, hbefore⟩
    exact firstAccepting_append hok hbefore

end Encode

/-- The encoding of a default of a union is that of the member that it belongs to. -/
theorem encode_union_ok {cx : Setting} {id : TypeId} {d : Descriptor} {members : List Edge} {flat : List TypeId}
    {v : Value} {j : Json} (hget : cx.graph.get? id = some d) (hd : d.shape = .union members)
    (hflat : cx.graph.flatMembers members = .ok flat) : (RuleTable.standard.encode cx id v).outcome = some (.ok j) ↔
      ∃ c, (Encode.choose cx.graph (RuleTable.standard.encode cx) flat v).outcome = some (.ok c) ∧ c.encoded = j := by
  rw [RuleTable.encode_eq hget (TypeGraph.ruleFor?_union hd)]
  simp only [Rule.union, hd, Rule.encodeUnion, hflat, Encode.outcome_bind_ok, Encode.outcome_pure, Option.some.injEq,
    Except.ok.injEq]

/-- A union refuses what all of its members refuse, and all values if its members are not found. -/
theorem refuses_union {cx : Setting} {id : TypeId} {d : Descriptor} {members : List Edge} {v : Value}
    (hget : cx.graph.get? id = some d) (hd : d.shape = .union members)
    (h : ∀ flat, cx.graph.flatMembers members = .ok flat → ∀ m ∈ flat, cx.Refuses m v) : cx.Refuses id v := by
  unfold Setting.Refuses
  rw [RuleTable.encode_eq hget (TypeGraph.ruleFor?_union hd)]
  simp only [Rule.union, hd, Rule.encodeUnion]
  cases hflat : cx.graph.flatMembers members with
  | error f => exact ⟨_, rfl⟩
  | ok flat => exact ⟨_, by rw [Encode.outcome_bind, Encode.choose_refused (h flat hflat)]; rfl⟩

/-- The order that a choice gives is one for the default. -/
theorem orderFor_choose {cx : Setting} {flat : List TypeId} {v : Value} {c : Choice}
    (h : (Encode.choose cx.graph (RuleTable.standard.encode cx) flat v).outcome = some (.ok c)) :
    cx.OrderFor (some v) flat c.order := by
  obtain ⟨before, after, hflat, hothers, hok, hbefore⟩ := Encode.choose_ok_iff.mp h
  exact ⟨before, c.member, after, hflat, by rw [Choice.order, hothers], ⟨c.encoded, hok⟩, hbefore⟩

end Avro
