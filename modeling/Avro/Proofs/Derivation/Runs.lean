import Avro.Proofs.Derivation.ByRule

/-!
# Runs

A derivation by the rules of the library that succeeds is a step over derivations of parts that succeed
(`runs_succ_iff`). `runs_induction` is the induction that all invariants are proved by: what each step has whose parts
are derived and have it, all derivations have that succeed. `derive_ok_iff` takes it to the derivation from the start.
-/

namespace Avro

/-- The derivation of a type by the rules of the library, at most `n` types deep, succeeds. -/
def Runs (cx : Setting) (n : Nat) : Deriving TypeId Schema :=
  Derive.Does (RuleTable.standard.schemaWithin cx (RuleTable.standard.encode cx) n)

section Runs

variable {cx : Setting} {n : Nat} {s s' : Progress} {id : TypeId} {σ : Schema}

theorem runs_zero : ¬ Runs cx 0 s id σ s' := Derive.yields_endless

/-- **A derivation that succeeds is a step over derivations of parts that succeed.** -/
theorem runs_succ_iff : Runs cx (n + 1) s id σ s' ↔ Step cx (Runs cx n) s id σ s' := by
  show (RuleTable.schemaWithin RuleTable.standard cx (RuleTable.standard.encode cx) (n + 1) id).Yields s σ s' ↔ _
  unfold RuleTable.schemaWithin
  cases hget : cx.graph.get? id with
  | none =>
    constructor
    · exact fun h => absurd h Derive.yields_throw
    · intro h
      cases h with
      | leaf h | reference h | definition h | composite h => simp [hget] at h
  | some d =>
    simp only [Derive.yields_bind, Derive.yields_ofFault, RuleTable.standard_find_ok]
    refine Iff.trans ?_ (rule_step hget)
    constructor
    · rintro ⟨r, _, ⟨hr, rfl⟩, h⟩
      exact ⟨r, hr, h⟩
    · rintro ⟨r, hr, h⟩
      exact ⟨r, s, ⟨hr, rfl⟩, h⟩

/-- Induction over derivations that succeed: what each step has whose parts are derived and have it, they all have. -/
theorem runs_induction {P : Deriving TypeId Schema}
    (hstep : ∀ {s id σ s'}, Step cx (fun s id σ s' => (∃ n, Runs cx n s id σ s') ∧ P s id σ s') s id σ s' →
      P s id σ s') : ∀ {n : Nat} {s : Progress} {id : TypeId} {σ : Schema} {s' : Progress},
    Runs cx n s id σ s' → P s id σ s'
  | 0, _, _, _, _, h => absurd h runs_zero
  | _ + 1, _, _, _, _, h => hstep ((runs_succ_iff.mp h).mono fun h => ⟨⟨_, h⟩, runs_induction hstep h⟩)

/-- A derivation from the start succeeds if the given namespace is valid and the derivation of the type succeeds. -/
theorem derive_ok_iff {root : TypeId} {tree : Schema} : RuleTable.standard.derive cx root = .ok tree ↔
    (∀ ns, cx.givenNs = some ns → Name.checkNamespace ns = .ok ()) ∧
      ∃ s', Runs cx (RuleTable.depthBound cx.graph) {} root tree s' := by
  have hresult : ∀ {α : Type} (step : Derive α) (a : α), step.result = .ok a ↔ ∃ s', step.Yields {} a s' := by
    intro α step a
    unfold Derive.result Derive.Yields
    cases step.runFrom {} with
    | none => simp
    | some r => obtain ⟨r, t⟩ := r; simp
  unfold RuleTable.derive
  rw [hresult]
  cases hns : cx.givenNs with
  | none =>
    exact ⟨fun h => ⟨by simp, h⟩, fun h => h.2⟩
  | some ns =>
    simp only [Derive.yields_bind, Derive.yields_ofFault]
    constructor
    · rintro ⟨s', _, _, ⟨hv, rfl⟩, h⟩
      exact ⟨by simpa using hv, s', h⟩
    · rintro ⟨hv, s', h⟩
      exact ⟨s', (), {}, ⟨hv ns rfl, rfl⟩, h⟩

end Runs

end Avro
