import Avro.Proofs.Symbols
import Avro.Proofs.Tree.Coverage
import Mathlib.Data.List.Nodup

/-!
# Which types have schemas

A type has a schema only if all types that can be reached from it are fine by themselves (`Setting.Admits`), no two of
them want one name, and none leads back to itself by types without names. `Derivable` lists these conditions, none of
which looks at the order of a derivation, and `derivable_of_derive` says that they are necessary.
-/

namespace Avro

open Relation

namespace Setting

/-- The field is fine by itself: it has a name, it has a default if it must, and its type accepts the default. -/
structure AdmitsField (cx : Setting) (f : Field) : Prop where
  name : Name.check (cx.fieldName f) = .ok ()
  mandatory : cx.options.defaultsMandatory = true → f.default.isSome = true
  default : ∀ v, f.default = some v → cx.Accepts f.type.target v

/-- The type is fine by itself. -/
def Admits (cx : Setting) (d : Descriptor) : Prop :=
  match d.shape with
  | .basic kind => kind ≠ .any
  | .refined kind => kind = .duration → cx.ValidHeading d
  | .namedString => cx.ValidHeading d
  | .enum symbols => cx.ValidHeading d ∧ symbols ≠ [] ∧ ∀ s ∈ symbols, Name.check s = .ok ()
  | .record fs => cx.ValidHeading d ∧ (fs.map cx.fieldName).Nodup ∧ ∀ f ∈ fs, cx.AdmitsField f
  | .union _ => True
  | .map key _ => cx.graph.isJson d = false → ∃ k, cx.graph.target? key = some k ∧ k.isBasic .string = true
  | .sequence _ => True
  | .decimal params => ∃ t, Decimal.ofParams params = .ok t
  | .forward name => name.isEmpty = false ∧ Name.checkNamespace name = .ok ()

end Setting

/-- What it takes for a type to have a schema. -/
structure Derivable (cx : Setting) (root : TypeId) : Prop where
  given : ∀ ns, cx.givenNs = some ns → Name.checkNamespace ns = .ok ()
  /-- All edges that are followed lead to descriptions. -/
  resolves : ∀ {id}, cx.graph.Reachable root id → ∃ d, cx.graph.get? id = some d
  admits : ∀ {id d}, cx.graph.Reachable root id → cx.graph.get? id = some d → cx.Admits d
  /-- Two named types have two names. -/
  distinct : ∀ {a b da db}, cx.graph.Reachable root a → cx.graph.Reachable root b →
    cx.graph.get? a = some da → cx.graph.get? b = some db → da.isNamed = true → db.isNamed = true →
    cx.fullNameOf da = cx.fullNameOf db → a = b
  /-- Each cycle goes through a record. -/
  acyclic : ∀ {id}, cx.graph.Reachable root id → ¬ TransGen cx.graph.LeadsUnnamed id id

/-! ## The conditions are necessary -/

variable {cx : Setting} {M : Shows} {Ref : TypeId → String → Prop} {id : TypeId} {default : Option Value} {σ : Schema}
  {d : Descriptor}

theorem Translates.exists_get (h : Translates cx M Ref id default σ) : ∃ d, cx.graph.get? id = some d := by
  cases h with
  | leaf hget | reference hget | enum hget | duration hget | record hget | union hget | sequence hget | map hget =>
    exact ⟨_, hget⟩

theorem Leaf.admits (h : Leaf cx d σ) : cx.Admits d := by
  unfold Setting.Admits
  cases h with
  | basic hd hp =>
    rw [hd]
    rintro rfl
    cases hp
  | refined hd hl =>
    rw [hd]
    rintro rfl
    cases hl
  | namedString hd hv => rw [hd]; exact hv
  | decimal hd ht => rw [hd]; exact ⟨_, ht⟩
  | forward hd hne hns => rw [hd]; exact ⟨hne, hns⟩
  | json hj =>
    rcases TypeGraph.collection_of_isJson hj with ⟨_, _, hd⟩ | ⟨_, hd⟩
    · rw [hd]; exact fun hno => by simp [hj] at hno
    · rw [hd]; trivial

theorem FieldTranslates.admits {f : Field} {s : SchemaField Schema} (h : FieldTranslates cx M f s) :
    cx.AdmitsField f := by
  refine ⟨h.valid, h.mandatory, fun v hv => ?_⟩
  obtain ⟨j, -, hj⟩ := h.default v hv
  exact ⟨j, hj⟩

/-- A type is fine by itself if a schema shows it that is no reference. -/
theorem Translates.admits (h : Translates cx M Ref id default σ) (hget : cx.graph.get? id = some d)
    (hdef : d.isNamed = true → ∃ fullName, σ.definedName? = some fullName) : cx.Admits d := by
  cases h with
  | leaf hget' hl => cases hget.symm.trans hget'; exact hl.admits
  | reference hget' hn =>
    cases hget.symm.trans hget'
    obtain ⟨fullName, hname⟩ := hdef hn
    cases hname
  | enum hget' hv hd hs =>
    cases hget.symm.trans hget'
    unfold Setting.Admits
    rw [hd]
    exact ⟨hv, exists_distinctSymbols_cons.mp ⟨_, _, hs⟩⟩
  | duration hget' hv hd =>
    cases hget.symm.trans hget'
    unfold Setting.Admits
    rw [hd]
    exact fun _ => hv
  | record hget' hv hd hfs hnodup =>
    cases hget.symm.trans hget'
    unfold Setting.Admits
    rw [hd]
    refine ⟨hv, ?_, fun f hf => ?_⟩
    · rw [← map_name_of_translates hfs]
      exact hnodup
    · obtain ⟨s, -, hs⟩ := exists_of_forall₂_left hfs hf
      exact hs.admits
  | union hget' hd | sequence hget' hd =>
    cases hget.symm.trans hget'
    unfold Setting.Admits
    rw [hd]
    trivial
  | map hget' hd hj hk hstr =>
    cases hget.symm.trans hget'
    unfold Setting.Admits
    rw [hd]
    exact fun _ => ⟨_, hk, hstr⟩

/-- **A type that has a schema meets all of the conditions.** -/
theorem derivable_of_derive {root : TypeId} {tree : Schema} (h : RuleTable.standard.derive cx root = .ok tree) :
    Derivable cx root := by
  obtain ⟨hgiven, -⟩ := derive_ok_iff.mp h
  obtain ⟨hroot, hscope⟩ := nodes_of_derive h
  -- a type that is reached has a description, and is fine by itself since it is so at the node that defines it
  have hfine : ∀ id, cx.graph.Reachable root id → ∃ d, cx.graph.get? id = some d ∧ cx.Admits d := by
    refine forall_reachable hroot hscope ?_ fun x hx => ?_
    · intro u d members hget hd _
      refine ⟨d, hget, ?_⟩
      unfold Setting.Admits
      rw [hd]
      trivial
    · obtain ⟨d, hget⟩ := (translates_of_mem hroot hx).exists_get
      refine ⟨d, hget, ?_⟩
      cases hn : d.isNamed with
      | false => exact (translates_of_mem hroot hx).admits hget (by simp [hn])
      | true =>
        obtain ⟨y, hy, htype, hdef⟩ := (hscope.exists_definition hget hn hx).resolve_left List.not_mem_nil
        exact (translates_of_mem hroot hy).admits (htype ▸ hget) fun _ => ⟨_, hdef⟩
  refine ⟨hgiven, fun hreach => ?_, fun hreach hget => ?_, fun ha hb hda hdb hna hnb hname => ?_, fun hreach => ?_⟩
  · obtain ⟨d, hget, -⟩ := hfine _ hreach
    exact ⟨d, hget⟩
  · obtain ⟨d, hget', hd⟩ := hfine _ hreach
    cases hget.symm.trans hget'
    exact hd
  · refine List.inj_on_of_nodup_map (hscope.nodup .nil) (mem_definitions_of_reachable hroot hscope ha hda hna)
      (mem_definitions_of_reachable hroot hscope hb hdb hnb) ?_
    rw [Setting.nameAt_eq hda, Setting.nameAt_eq hdb, hname]
  · refine TypeGraph.not_cycle_of_acc (forall_reachable hroot hscope acc_of_union (fun x hx => ?_) _ hreach)
    exact acc_of_derived (derived_of_mem hroot hx)

end Avro
