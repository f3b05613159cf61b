import Avro.Proofs.Derivable.Conditions
import Avro.Proofs.Derivation.Depth

/-!
# A type that meets the conditions has a schema

A derivation goes on as long as it is deep enough (`Ready`): each named type is defined once, and between two of them
no composite type is met twice, as there are no cycles without records. So there is a step for each type that can be
reached, over derivations of its parts that succeed (`exists_step`). With the other direction, the conditions are just
those under which a derivation succeeds (`derive_ok_iff_derivable`).
-/

namespace Avro

open Relation

/-! ## Progress that leaves enough depth -/

theorem Progress.Knows.ids_eq {cx : Setting} {s : Progress} {ids : List TypeId} (h : s.Knows cx ids) : s.ids = ids := by
  unfold Progress.ids
  rw [h, List.map_map]
  exact List.map_id' ids

/-- Named types that can be reached are defined, and there is depth for all that are not and for those not pending. -/
structure Ready (cx : Setting) (root : TypeId) (n : Nat) (s : Progress) : Prop where
  knows : s.Knows cx s.ids
  reached : ∀ i ∈ s.ids, cx.graph.Reachable root i ∧ ∃ d, cx.graph.get? i = some d ∧ d.isNamed = true
  enough : cx.graph.unvisited s.ids * (cx.graph.size + 1) + cx.graph.unvisited s.pending + 1 ≤ n

variable {cx : Setting} {root : TypeId} {n : Nat} {s s' : Progress} {id : TypeId} {d : Descriptor}

theorem ready_start : Ready cx root (RuleTable.depthBound cx.graph) {} :=
  ⟨rfl, fun _ hi => (List.not_mem_nil hi).elim, Progress.hasDepth_start⟩

/-- Depth is left behind a derivation as it was before. -/
theorem Ready.of_extending {x : Node} (h : Ready cx root n s) (hext : Extending cx s x s') (hx : Derived cx x)
    (hreach : cx.graph.Reachable root x.type) (hpending : s'.pending = s.pending) : Ready cx root n s' := by
  have hext := hext s.ids h.knows
  have hids : s'.ids = s.ids ++ definitions (cx.labelled x) := hext.knows.ids_eq
  refine ⟨hids ▸ hext.knows, fun i hi => ?_, ?_⟩
  · rw [hids] at hi
    rcases List.mem_append.mp hi with hi | hi
    · exact h.reached i hi
    · obtain ⟨y, hy, rfl, fullName, hdef⟩ := mem_definitions.mp hi
      obtain ⟨d, hget, hn, -⟩ := hext.inScope.definedName hy hdef
      exact ⟨hreach.trans (reachable_of_mem hx hy), d, hget, hn⟩
  · have hsubset : s.ids ⊆ s'.ids := by
      rw [hids]
      exact List.subset_append_left _ _
    exact Progress.HasDepth.of_subset h.enough hsubset hpending

/-- There is depth for what a named type defines, where nothing is pending. -/
theorem Ready.define (h : Ready cx root (n + 1) s) (hreach : cx.graph.Reachable root id)
    (hget : cx.graph.get? id = some d) (hn : d.isNamed = true) (hnew : id ∉ s.ids) :
    Ready cx root n { s.define id (cx.fullNameOf d) with pending := [] } := by
  have hknows := h.knows.define hget []
  have hids := hknows.ids_eq
  refine ⟨hids.symm ▸ hknows, ?_, Progress.HasDepth.define h.enough (TypeGraph.lt_size_of_get? hget) hnew _⟩
  rw [hids]
  intro i hi
  rcases List.mem_append.mp hi with hi | hi
  · exact h.reached i hi
  · obtain rfl := List.mem_singleton.mp hi
    exact ⟨hreach, d, hget, hn⟩

/-- There is depth for the parts of a composite type that is not pending. -/
theorem Ready.pend (h : Ready cx root (n + 1) s) (hget : cx.graph.get? id = some d) (hnew : id ∉ s.pending) :
    Ready cx root n { s with pending := id :: s.pending } :=
  ⟨h.knows, h.reached, Progress.HasDepth.pend h.enough (TypeGraph.lt_size_of_get? hget) hnew⟩

/-! ## What is pending -/

theorem Step.pending_eq {R : Deriving TypeId Schema} {σ : Schema} (h : Step cx R s id σ s') :
    s'.pending = s.pending := by cases h <;> rfl

theorem Runs.pending_eq {σ : Schema} (h : Runs cx n s id σ s') : s'.pending = s.pending := by
  cases n with
  | zero => exact absurd h runs_zero
  | succ n => exact (runs_succ_iff.mp h).pending_eq

theorem Threaded.pending_eq {α β : Type} {R : Deriving α β} {as : List α} {bs : List β} (h : Threaded R s as bs s')
    (hR : ∀ {s a b s'}, R s a b s' → s'.pending = s.pending) : s'.pending = s.pending := by
  induction h with
  | nil => rfl
  | cons hab _ ih => exact ih.trans (hR hab)

theorem FieldStep.pending_eq {f : Field} {sf : SchemaField Schema} (h : FieldStep cx (Runs cx n) s f sf s') :
    s'.pending = s.pending := by
  obtain ⟨-, -, -, htype⟩ := h
  cases htype with
  | bare _ hσ | plain _ _ hσ => exact hσ.pending_eq
  | chosen _ _ _ _ hσs => exact hσs.pending_eq Runs.pending_eq

/-! ## Steps there are -/

/-- Steps for all of a list can be put together if each leaves what they all need. -/
theorem exists_threaded {α β : Type} {R : Deriving α β} {I : Progress → Prop} :
    ∀ {as : List α} {s : Progress}, I s → (∀ a ∈ as, ∀ s, I s → ∃ b s', R s a b s' ∧ I s') →
      ∃ bs s', Threaded R s as bs s'
  | [], s, _, _ => ⟨[], s, .nil s⟩
  | a :: as, s, hs, hR => by
    obtain ⟨b, t, hab, ht⟩ := hR a List.mem_cons_self s hs
    obtain ⟨bs, s', hbs⟩ := exists_threaded ht fun a ha => hR a (List.mem_cons_of_mem _ ha)
    exact ⟨b :: bs, s', .cons hab hbs⟩

/-- Derivations of this depth succeed for all types that can be reached. -/
def Succeeds (cx : Setting) (root : TypeId) (n : Nat) : Prop := ∀ {s id}, Ready cx root n s →
  cx.graph.Reachable root id → (∀ p ∈ s.pending, TransGen cx.graph.LeadsUnnamed p id) → ∃ σ s', Runs cx n s id σ s'

section Steps

variable (hd : Derivable cx root) (hsucc : Succeeds cx root n)

include hsucc in
theorem exists_members (order : List TypeId) {pending : List TypeId} (hs : Ready cx root n s)
    (hpending : s.pending = pending)
    (horder : ∀ m ∈ order, cx.graph.Reachable root m ∧ ∀ p ∈ pending, TransGen cx.graph.LeadsUnnamed p m) :
    ∃ σs s', Threaded (Runs cx n) s order σs s' := by
  refine exists_threaded (I := fun s => Ready cx root n s ∧ s.pending = pending) ⟨hs, hpending⟩ ?_
  rintro m hm s ⟨hs, hp⟩
  obtain ⟨hreach, hlead⟩ := horder m hm
  obtain ⟨σ, s', hσ⟩ := hsucc hs hreach (hp ▸ hlead)
  have hext : Extending cx s ⟨m, none, σ⟩ s' := hσ.extends none (by simp)
  have hready : Ready cx root n s' := hs.of_extending hext (derived_of_runs hσ) hreach hσ.pending_eq
  exact ⟨σ, s', hσ, hready, hσ.pending_eq.trans hp⟩

include hd in
theorem exists_flatMembers {members : List Edge} (hreach : cx.graph.Reachable root id)
    (hget : cx.graph.get? id = some d) (hu : d.shape = .union members) :
    ∃ flat, cx.graph.flatMembers members = .ok flat ∧
      ∀ m ∈ flat, cx.graph.Reachable root m ∧ TransGen cx.graph.LeadsUnnamed id m := by
  have hto : ∀ {m}, ReflTransGen cx.graph.HasMember id m → cx.graph.Reachable root m := fun hm =>
    hreach.trans (TypeGraph.reachable_of_leadsUnnamed (TypeGraph.leadsUnnamed_of_hasMember hm))
  obtain ⟨flat, hflat⟩ := TypeGraph.flatMembers_ok hget hu (fun m hm => hd.resolves (hto hm)) fun m hm hcycle =>
    hd.acyclic (hto hm) (TypeGraph.transGen_of_hasMember hcycle)
  refine ⟨flat, hflat, fun m hm => ?_⟩
  obtain ⟨hmem, -⟩ := TypeGraph.flatMembers_reached hget hu hflat hm
  exact ⟨hto hmem.to_reflTransGen, TypeGraph.transGen_of_hasMember hmem⟩

include hd hsucc in
theorem exists_fieldType {f : Field} (hs : Ready cx root n s) (hpending : s.pending = [])
    (hreach : cx.graph.Reachable root f.type.target) (hget : cx.graph.get? f.type.target = some d)
    (hf : cx.AdmitsField f) : ∃ σ j? s', FieldType cx (Runs cx n) s f d σ j? s' := by
  have hrun : ∃ σ s', Runs cx n s f.type.target σ s' := hsucc hs hreach (by simp [hpending])
  cases hv : f.default with
  | none =>
    obtain ⟨σ, s', hσ⟩ := hrun
    exact ⟨σ, none, s', .bare hv hσ⟩
  | some v =>
    obtain ⟨j, hj⟩ := hf.default v hv
    by_cases hu : ∃ members, d.shape = .union members
    · obtain ⟨members, hu⟩ := hu
      obtain ⟨flat, hflat, hmem⟩ := exists_flatMembers hd hreach hget hu
      obtain ⟨c, hc, -⟩ := (encode_union_ok hget hu hflat).mp hj
      have horder : ∀ m ∈ c.order, cx.graph.Reachable root m := fun m hm =>
        (hmem m ((orderFor_choose hc).mem.mp hm)).1
      obtain ⟨σs, t, hσs⟩ := exists_members hsucc c.order hs hpending fun m hm => ⟨horder m hm, by simp⟩
      exact ⟨.union σs, some c.encoded, t, .chosen hv hu hflat hc hσs⟩
    · obtain ⟨σ, s', hσ⟩ := hrun
      exact ⟨σ, some j, s', .plain hv (fun members hu' => hu ⟨members, hu'⟩) hσ hj⟩

include hd hsucc in
theorem exists_fields {fs : List Field} (hs : Ready cx root n s) (hpending : s.pending = [])
    (hfs : ∀ f ∈ fs, cx.graph.Reachable root f.type.target ∧ cx.AdmitsField f) :
    ∃ ss s', Threaded (FieldStep cx (Runs cx n)) s fs ss s' := by
  refine exists_threaded (I := fun s => Ready cx root n s ∧ s.pending = []) ⟨hs, hpending⟩ ?_
  rintro f hf s ⟨hs, hp⟩
  obtain ⟨hreach, hadmits⟩ := hfs f hf
  obtain ⟨d, hget⟩ := hd.resolves hreach
  obtain ⟨σ, j?, s', htype⟩ := exists_fieldType hd hsucc hs hp hreach hget hadmits
  have hstep : FieldStep cx (Runs cx n) s f ⟨cx.fieldName f, σ, cx.fieldDoc f.doc, j?⟩ s' :=
    .mk hadmits.name hadmits.mandatory hget htype
  have hready : Ready cx root n s' :=
    hs.of_extending (hstep.extends Runs.extends) hstep.translates.type hreach hstep.pending_eq
  exact ⟨_, s', hstep, hready, hstep.pending_eq.trans hp⟩

/-- A leaf that is fine by itself has a schema. -/
theorem exists_leaf (hfine : cx.Admits d) (hn : d.isNamed = false) (hp : cx.graph.isParted d = false) :
    ∃ σ, Leaf cx d σ := by
  unfold Setting.Admits at hfine
  cases hshape : d.shape with
  | basic kind =>
    rw [hshape] at hfine
    cases kind with
    | any => exact absurd rfl hfine
    | _ => exact ⟨_, .basic hshape rfl⟩
  | refined kind =>
    cases kind with
    | duration => simp [Descriptor.isNamed, hshape] at hn
    | _ => exact ⟨_, .refined hshape rfl⟩
  | namedString =>
    rw [hshape] at hfine
    exact ⟨_, .namedString hshape hfine⟩
  | decimal params =>
    rw [hshape] at hfine
    obtain ⟨t, ht⟩ := hfine
    exact ⟨_, .decimal hshape ht⟩
  | forward name =>
    rw [hshape] at hfine
    exact ⟨_, .forward hshape hfine.1 hfine.2⟩
  | map | sequence =>
    refine ⟨_, .json ?_⟩
    simpa [TypeGraph.isParted, hshape] using hp
  | enum | record => simp [Descriptor.isNamed, hshape] at hn
  | union => simp [TypeGraph.isParted, hshape] at hp

theorem Setting.Admits.heading (hfine : cx.Admits d) (hn : d.isNamed = true) : cx.ValidHeading d := by
  unfold Setting.Admits at hfine
  cases hshape : d.shape with
  | enum | record =>
    rw [hshape] at hfine
    exact hfine.1
  | refined kind =>
    rw [hshape] at hfine
    cases kind with
    | duration => exact hfine rfl
    | _ => simp [Descriptor.isNamed, hshape] at hn
  | _ => simp [Descriptor.isNamed, hshape] at hn

section

variable (hreach : cx.graph.Reachable root id) (hget : cx.graph.get? id = some d)
include hd hsucc hreach hget

/-- A named type has a definition. -/
theorem exists_body (hn : d.isNamed = true) (hs : Ready cx root n s) (hpending : s.pending = []) :
    ∃ σ s', Body cx (Runs cx n) s d σ s' := by
  have hfine := hd.admits hreach hget
  unfold Setting.Admits at hfine
  cases hshape : d.shape with
  | enum symbols =>
    rw [hshape] at hfine
    obtain ⟨x, xs, hx⟩ := exists_distinctSymbols_cons.mpr hfine.2
    exact ⟨_, _, .enum hshape hx⟩
  | refined kind =>
    cases kind with
    | duration => exact ⟨_, _, .duration hshape⟩
    | _ => simp [Descriptor.isNamed, hshape] at hn
  | record fs =>
    rw [hshape] at hfine
    obtain ⟨-, hnodup, hfields⟩ := hfine
    obtain ⟨ss, s', hss⟩ := exists_fields hd hsucc hs hpending fun f hf =>
      ⟨hreach.tail (TypeGraph.leads_field hget hshape hf), hfields f hf⟩
    refine ⟨_, s', .record hshape hss ?_⟩
    rw [map_name_of_translates (hss.forall₂ fun _ _ _ _ h => h.translates)]
    exact hnodup
  | _ => simp [Descriptor.isNamed, hshape] at hn

/-- A composite type without a name has parts. -/
theorem exists_parted (hp : cx.graph.isParted d = true) (hs : Ready cx root n s)
    (hpending : ∀ p ∈ s.pending, ReflTransGen cx.graph.LeadsUnnamed p id) : ∃ σ s', Parted cx (Runs cx n) s d σ s' := by
  cases hshape : d.shape with
  | union members =>
    obtain ⟨flat, hflat, hmem⟩ := exists_flatMembers hd hreach hget hshape
    obtain ⟨σs, s', hσs⟩ := exists_members hsucc flat hs rfl fun m hm =>
      ⟨(hmem m hm).1, fun p hp => (hmem m hm).2.trans_right (hpending p hp)⟩
    exact ⟨_, s', .union hshape hflat hσs⟩
  | sequence element =>
    have hj : cx.graph.isJson d = false := by simpa [TypeGraph.isParted, hshape] using hp
    have hlead := TypeGraph.leadsUnnamed_element hget hshape hj
    obtain ⟨σ, s', hσ⟩ := hsucc hs (hreach.tail hlead.leads) fun p hp => .tail' (hpending p hp) hlead
    exact ⟨_, s', .sequence hshape hj hσ⟩
  | map key value =>
    have hj : cx.graph.isJson d = false := by simpa [TypeGraph.isParted, hshape] using hp
    have hlead := TypeGraph.leadsUnnamed_value hget hshape hj
    obtain ⟨σ, s', hσ⟩ := hsucc hs (hreach.tail hlead.leads) fun p hp => .tail' (hpending p hp) hlead
    have hfine := hd.admits hreach hget
    unfold Setting.Admits at hfine
    rw [hshape] at hfine
    obtain ⟨k, hk, hstr⟩ := hfine hj
    exact ⟨_, s', .map hshape hj hk hstr hσ⟩
  | _ => simp [TypeGraph.isParted, hshape] at hp

end

end Steps

/-- There is a step for each type that can be reached, over derivations of its parts that succeed. -/
theorem exists_step (hd : Derivable cx root) (hsucc : Succeeds cx root n) (hs : Ready cx root (n + 1) s)
    (hreach : cx.graph.Reachable root id) (hpending : ∀ p ∈ s.pending, TransGen cx.graph.LeadsUnnamed p id) :
    ∃ σ s', Step cx (Runs cx n) s id σ s' := by
  obtain ⟨d, hget⟩ := hd.resolves hreach
  have hfine := hd.admits hreach hget
  cases hn : d.isNamed with
  | true =>
    have hheading : cx.ValidHeading d := hfine.heading hn
    by_cases hid : id ∈ s.ids
    · have hknown : s.registry.nameOf? id = some (cx.nameAt id) := hs.knows.nameOf?.mpr ⟨hid, rfl⟩
      exact ⟨_, s, .reference hget hn hheading hknown⟩
    · have hname : ∀ i ∈ s.ids, cx.nameAt i ≠ cx.fullNameOf d := by
        intro i hi hname
        obtain ⟨hreach', d', hget', hn'⟩ := hs.reached i hi
        rw [Setting.nameAt_eq hget'] at hname
        exact hid (hd.distinct hreach' hreach hget' hget hn' hn hname ▸ hi)
      have hfresh : s.registry.nameOf? id = none := hs.knows.nameOf?_none.mpr hid
      have hfree : s.registry.ownerOf? (cx.fullNameOf d) = none := hs.knows.ownerOf?_none.mpr hname
      obtain ⟨σ, t, hb⟩ := exists_body hd hsucc hreach hget hn (hs.define hreach hget hn hid) rfl
      exact ⟨σ, _, .definition hget hn hheading hfresh hfree hb⟩
  | false =>
    cases hp : cx.graph.isParted d with
    | false =>
      obtain ⟨σ, hσ⟩ := exists_leaf hfine hn hp
      exact ⟨σ, s, .leaf hget hσ⟩
    | true =>
      -- a type that is pending leads to the type, so the type would be on a cycle if it were
      have hid : id ∉ s.pending := fun hid => hd.acyclic hreach (hpending id hid)
      obtain ⟨σ, t, hσ⟩ := exists_parted hd hsucc hreach hget hp (hs.pend hget hid) fun p hp => by
        rcases List.mem_cons.mp hp with rfl | hp
        · exact .refl
        · exact (hpending p hp).to_reflTransGen
      exact ⟨σ, _, .composite hget hid hσ⟩

theorem succeeds (hd : Derivable cx root) : ∀ n, Succeeds cx root n
  | 0 => fun hs _ _ => absurd hs.enough Progress.not_hasDepth_zero
  | n + 1 => fun hs hreach hpending => by
    obtain ⟨σ, s', h⟩ := exists_step hd (succeeds hd n) hs hreach hpending
    exact ⟨σ, s', runs_succ_iff.mpr h⟩

/-- **A type has a schema if and only if it meets the conditions.** -/
theorem derive_ok_iff_derivable {cx : Setting} {root : TypeId} :
    (∃ tree, RuleTable.standard.derive cx root = .ok tree) ↔ Derivable cx root := by
  constructor
  · rintro ⟨tree, h⟩
    exact derivable_of_derive h
  · intro hd
    obtain ⟨tree, s', h⟩ := succeeds hd _ ready_start .refl (by simp)
    exact ⟨tree, derive_ok_iff.mpr ⟨hd.given, s', h⟩⟩

end Avro
