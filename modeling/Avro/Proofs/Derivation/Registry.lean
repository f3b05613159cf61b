import Avro.Proofs.Termination.Agreement
import Mathlib.Data.Finmap

/-!
# Names are given once

The registry stands for two tables, one from types to names and one from names to types (`Registry.tables`). An
occurrence of a named type looks for the type in the first and for the name in the second, and is entered in both if it
is in neither (`Registry.tables_claim`), so each table remains the inverse of the other (`NameTables.Inverse.define`).

Hence in a run of occurrences, of any types under any names, the first of a type that is accepted defines the type under
its name there, and all later ones are answered with this name. Only a new type whose name is that of another is
refused, and nothing but a definition changes the tables (`Registry.visits_define_once`).
-/

namespace Avro

/-! ## Entries by their keys -/

/-- A table of entries gives each key the value of the first entry with the key. -/
theorem dlookup_map_eq_find? {α β γ : Type} [DecidableEq α] (es : List γ) (f : γ → α) (g : γ → β) (a : α) :
    (es.map fun e => (⟨f e, g e⟩ : Σ _ : α, β)).dlookup a = (es.find? fun e => f e == a).map g := by
  induction es with
  | nil => rfl
  | cons e es ih =>
    rw [List.map_cons, List.find?_cons]
    by_cases ha : f e = a
    · subst ha
      simp
    · rw [List.dlookup_cons_ne _ _ (Ne.symm ha), ih, beq_false_of_ne ha]

/-- The first entry with a key, behind an entry with a new key. -/
theorem map_find?_concat {α β γ : Type} [DecidableEq α] (es : List γ) (x : γ) (f : γ → α) (g : γ → β)
    (h : (es.find? fun e => f e == f x).map g = none) (a : α) :
    ((es ++ [x]).find? fun e => f e == a).map g =
      if a = f x then some (g x) else (es.find? fun e => f e == a).map g := by
  rw [List.find?_append]
  split_ifs with ha
  · rw [Option.map_eq_none_iff] at h
    simp [ha, h]
  · simp [Ne.symm ha]

theorem lookup_insert_eq_ite {α β : Type} [DecidableEq α] (s : Finmap fun _ : α => β) (a : α) (b : β) (x : α) :
    (s.insert a b).lookup x = if x = a then some b else s.lookup x := by
  split_ifs with h
  · rw [h, Finmap.lookup_insert]
  · rw [Finmap.lookup_insert_of_ne _ h]

theorem card_keys_insert {α : Type} {β : α → Type} [DecidableEq α] {s : Finmap β} {a : α} {b : β a}
    (h : s.lookup a = none) : (s.insert a b).keys.card = s.keys.card + 1 := by
  have hkeys : (s.insert a b).keys = insert a s.keys := by
    ext x
    rw [Finmap.mem_keys, Finmap.mem_insert, Finset.mem_insert, Finmap.mem_keys]
  have hnew : a ∉ s.keys := by rwa [Finmap.mem_keys, ← Finmap.lookup_eq_none]
  rw [hkeys, Finset.card_insert_of_notMem hnew]

/-! ## Two tables -/

/-- The names of types, and the types of names. -/
@[ext]
structure NameTables where
  names : Finmap fun _ : TypeId => String
  owners : Finmap fun _ : String => TypeId

namespace NameTables

variable {m : NameTables} {id : TypeId} {fullName : String}

/-- Each table is the inverse of the other. -/
def Inverse (m : NameTables) : Prop :=
  ∀ id fullName, m.names.lookup id = some fullName ↔ m.owners.lookup fullName = some id

/-- Enters a type and its name in both tables. -/
def define (m : NameTables) (id : TypeId) (fullName : String) : NameTables :=
  ⟨m.names.insert id fullName, m.owners.insert fullName id⟩

/-- Lets a type have the name if it is new. -/
def claim (m : NameTables) (id : TypeId) (fullName : String) : Except TypeFault (Claim × NameTables) :=
  match m.names.lookup id with
  | some name => .ok (.known name, m)
  | none =>
    match m.owners.lookup fullName with
    | some _ => .error (.name fullName .taken)
    | none => .ok (.fresh, m.define id fullName)

theorem lookup_names_define (m : NameTables) (id : TypeId) (fullName : String) (i : TypeId) :
    (m.define id fullName).names.lookup i = if i = id then some fullName else m.names.lookup i :=
  lookup_insert_eq_ite m.names id fullName i

theorem lookup_owners_define (m : NameTables) (id : TypeId) (fullName : String) (n : String) :
    (m.define id fullName).owners.lookup n = if n = fullName then some id else m.owners.lookup n :=
  lookup_insert_eq_ite m.owners fullName id n

theorem inverse_empty : Inverse ⟨∅, ∅⟩ := fun _ _ => by simp

/-- A new type with a new name may be entered. -/
theorem Inverse.define (h : m.Inverse) (hid : m.names.lookup id = none) (hname : m.owners.lookup fullName = none) :
    (m.define id fullName).Inverse := by
  intro i n
  rw [lookup_names_define, lookup_owners_define]
  split_ifs with hi hn hn
  · simp [hi, hn]
  · -- the type has one name, and no other was its own before
    rw [← h i n, hi, hid]
    simp [Ne.symm hn]
  · rw [h i n, hn, hname]
    simp [Ne.symm hi]
  · exact h i n

end NameTables

namespace Registry

variable {r : Registry} {id : TypeId} {fullName : String}

/-! ## The registry as two tables -/

/-- The tables that the registry stands for. -/
def tables (r : Registry) : NameTables where
  names := (r.entries.map fun e => (⟨e.1, e.2⟩ : Σ _ : TypeId, String)).toFinmap
  owners := (r.entries.map fun e => (⟨e.2, e.1⟩ : Σ _ : String, TypeId)).toFinmap

@[simp]
theorem lookup_names (r : Registry) (id : TypeId) : r.tables.names.lookup id = r.nameOf? id := by
  rw [tables, Finmap.dlookup_list_toFinmap, dlookup_map_eq_find?, nameOf?]

@[simp]
theorem lookup_owners (r : Registry) (fullName : String) : r.tables.owners.lookup fullName = r.ownerOf? fullName := by
  rw [tables, Finmap.dlookup_list_toFinmap, dlookup_map_eq_find?, ownerOf?]

/-- The registry with one more type. -/
def define (r : Registry) (id : TypeId) (fullName : String) : Registry := ⟨r.entries ++ [(id, fullName)]⟩

theorem nameOf?_define (h : r.nameOf? id = none) (i : TypeId) :
    (r.define id fullName).nameOf? i = if i = id then some fullName else r.nameOf? i :=
  map_find?_concat r.entries (id, fullName) Prod.fst Prod.snd h i

theorem ownerOf?_define (h : r.ownerOf? fullName = none) (n : String) :
    (r.define id fullName).ownerOf? n = if n = fullName then some id else r.ownerOf? n :=
  map_find?_concat r.entries (id, fullName) Prod.snd Prod.fst h n

/-- A new type and its name are entered in the tables. -/
theorem tables_define (hid : r.nameOf? id = none) (hname : r.ownerOf? fullName = none) :
    (r.define id fullName).tables = r.tables.define id fullName := by
  refine NameTables.ext (Finmap.ext_lookup fun i => ?_) (Finmap.ext_lookup fun n => ?_)
  · rw [NameTables.lookup_names_define, lookup_names, lookup_names, nameOf?_define hid]
  · rw [NameTables.lookup_owners_define, lookup_owners, lookup_owners, ownerOf?_define hname]

/-- What comes of a claim is decided by the two tables, and is done to both. -/
theorem tables_claim (r : Registry) (id : TypeId) (fullName : String) :
    r.tables.claim id fullName = (r.claim id fullName).map fun c => (c.1, c.2.tables) := by
  rw [NameTables.claim, claim, lookup_names, lookup_owners]
  cases hid : r.nameOf? id with
  | some name => rfl
  | none =>
    cases hname : r.ownerOf? fullName with
    | some owner => rfl
    | none => exact congrArg (fun m => Except.ok (Claim.fresh, m)) (tables_define hid hname).symm

/-! ## Visits -/

/-- An occurrence of a named type under a full name. -/
structure Visit where
  id : TypeId
  fullName : String
deriving DecidableEq

/-- What an occurrence is told. -/
abbrev Answer := Except TypeFault Claim

/-- The answer to an occurrence, and the registry behind it. -/
def visit (r : Registry) (v : Visit) : Answer × Registry :=
  match r.claim v.id v.fullName with
  | .ok (c, next) => (.ok c, next)
  | .error f => (.error f, r)

/-- A visit finds the type, or a new type finds its name with another one, or the type is defined. -/
theorem visit_cases (r : Registry) (v : Visit) :
    (∃ known, r.nameOf? v.id = some known ∧ r.visit v = (.ok (.known known), r)) ∨
    (r.nameOf? v.id = none ∧ (∃ owner, r.ownerOf? v.fullName = some owner) ∧
      r.visit v = (.error (.name v.fullName .taken), r)) ∨
    (r.nameOf? v.id = none ∧ r.ownerOf? v.fullName = none ∧ r.visit v = (.ok .fresh, r.define v.id v.fullName)) := by
  unfold visit claim
  cases hid : r.nameOf? v.id with
  | some known => exact .inl ⟨known, rfl, rfl⟩
  | none =>
    cases hname : r.ownerOf? v.fullName with
    | some owner => exact .inr (.inl ⟨rfl, ⟨owner, rfl⟩, rfl⟩)
    | none => exact .inr (.inr ⟨rfl, rfl, rfl⟩)

/-- A type that is defined is told its name, whatever name it occurs under. -/
theorem visit_of_nameOf? {v : Visit} (h : r.nameOf? v.id = some fullName) :
    r.visit v = (.ok (.known fullName), r) := by
  rw [visit, claim_of_nameOf? h]

/-- A new type that is not refused is defined. -/
theorem eq_fresh_of_visit {v : Visit} {c : Claim} (h : r.nameOf? v.id = none) (hc : (r.visit v).1 = .ok c) :
    c = .fresh := by
  obtain ⟨known, hid, -⟩ | ⟨-, -, hv⟩ | ⟨-, -, hv⟩ := r.visit_cases v
  · rw [h] at hid
    cases hid
  · rw [hv] at hc
    cases hc
  · rw [hv] at hc
    exact (Except.ok.inj hc).symm

theorem visit_eq_error_iff {v : Visit} {f : TypeFault} : (r.visit v).1 = .error f ↔
    f = .name v.fullName .taken ∧ r.nameOf? v.id = none ∧ ∃ owner, r.ownerOf? v.fullName = some owner := by
  obtain ⟨known, hid, hv⟩ | ⟨hid, howner, hv⟩ | ⟨hid, hname, hv⟩ := r.visit_cases v
  · simp [hv, hid]
  · rw [hv, Except.error.injEq, eq_comm]
    exact ⟨fun hf => ⟨hf, hid, howner⟩, And.left⟩
  · simp [hv, hname]

/-- A visit that does not define its type changes nothing. -/
theorem visit_unchanged {v : Visit} (h : (r.visit v).1 ≠ .ok .fresh) : (r.visit v).2 = r := by
  obtain ⟨known, -, hv⟩ | ⟨-, -, hv⟩ | ⟨-, -, hv⟩ := r.visit_cases v
  · rw [hv]
  · rw [hv]
  · exact absurd (congrArg Prod.fst hv) h

/-- A derivation claims names by visits. -/
theorem runFrom_claim_eq_visit (s : Progress) (v : Visit) : (Derive.claim v.id v.fullName).runFrom s =
    some ((s.registry.visit v).1.mapError .type, { s with registry := (s.registry.visit v).2 }) := by
  rw [Derive.runFrom_claim, visit]
  cases s.registry.claim v.id v.fullName <;> rfl

/-! ## Runs -/

/-- The registry behind visits, one after the other. -/
def after (r : Registry) (vs : List Visit) : Registry := vs.foldl (fun r v => (r.visit v).2) r

/-- Visits, one after the other, each with its answer. -/
def answers (r : Registry) : List Visit → List (Visit × Answer)
  | [] => []
  | v :: vs => (v, (r.visit v).1) :: answers (r.visit v).2 vs

theorem after_concat (r : Registry) (vs : List Visit) (v : Visit) :
    r.after (vs ++ [v]) = ((r.after vs).visit v).2 := by
  rw [after, List.foldl_append]
  rfl

theorem answers_concat (r : Registry) (vs : List Visit) (v : Visit) :
    r.answers (vs ++ [v]) = r.answers vs ++ [(v, ((r.after vs).visit v).1)] := by
  induction vs generalizing r with
  | nil => rfl
  | cons w vs ih => exact congrArg _ (ih _)

/-- A visit by which a type is defined. -/
def Defining (a : Visit × Answer) : Prop := a.2 = .ok .fresh

instance : DecidablePred Defining := fun a => inferInstanceAs (Decidable (a.2 = .ok .fresh))

/-- What the registry knows behind visits with their answers. -/
structure Reflects (r : Registry) (as : List (Visit × Answer)) : Prop where
  inverse : r.tables.Inverse
  defined : ∀ {id fullName}, r.nameOf? id = some fullName ↔ (⟨id, fullName⟩, .ok .fresh) ∈ as
  size : r.size = as.countP Defining
  names : r.tables.names.keys.card = r.size
  owners : r.tables.owners.keys.card = r.size

theorem reflects_empty : Reflects {} [] where
  inverse := NameTables.inverse_empty
  defined := by simp [nameOf?]
  size := rfl
  names := rfl
  owners := rfl

variable {as : List (Visit × Answer)}

/-- A visit that is refused or finds its type defined adds nothing to what the registry knows. -/
theorem Reflects.keep (h : r.Reflects as) {v : Visit} {a : Answer} (ha : ¬ Defining (v, a)) :
    r.Reflects (as ++ [(v, a)]) where
  inverse := h.inverse
  defined {i n} := by
    have hne : (⟨i, n⟩, .ok .fresh) ≠ (v, a) := fun heq => ha (congrArg Prod.snd heq).symm
    rw [h.defined, List.mem_append, List.mem_singleton, or_iff_left hne]
  size := by simp [List.countP_append, ha, h.size]
  names := h.names
  owners := h.owners

/-- A visit that defines its type adds just this type and its name. -/
theorem Reflects.define (h : r.Reflects as) (hid : r.nameOf? id = none) (hname : r.ownerOf? fullName = none) :
    (r.define id fullName).Reflects (as ++ [(⟨id, fullName⟩, .ok .fresh)]) := by
  have htables := tables_define hid hname
  have hid' := lookup_names r id ▸ hid
  have hname' := lookup_owners r fullName ▸ hname
  have hsize : (r.define id fullName).size = r.size + 1 := List.length_append
  refine ⟨htables ▸ h.inverse.define hid' hname', ?defined, ?size, ?names, ?owners⟩
  case defined =>
    intro i n
    rw [nameOf?_define hid, List.mem_append, List.mem_singleton, ← h.defined]
    split_ifs with hi
    · subst hi
      simp [hid, eq_comm]
    · simp [hi]
  case size =>
    have hnew : Defining (⟨id, fullName⟩, .ok .fresh) := rfl
    rw [hsize, h.size, List.countP_append, List.countP_singleton, decide_eq_true hnew, if_pos rfl]
  case names =>
    rw [htables, hsize, ← h.names]
    exact card_keys_insert hid'
  case owners =>
    rw [htables, hsize, ← h.owners]
    exact card_keys_insert hname'

/-- A visit keeps what the registry knows in accordance with the answers. -/
theorem Reflects.visit (h : r.Reflects as) (v : Visit) : (r.visit v).2.Reflects (as ++ [(v, (r.visit v).1)]) := by
  obtain ⟨known, -, hv⟩ | ⟨-, -, hv⟩ | ⟨hid, hname, hv⟩ := r.visit_cases v
  · rw [hv]
    exact h.keep (by simp [Defining])
  · rw [hv]
    exact h.keep (by simp [Defining])
  · rw [hv]
    exact h.define hid hname

/-- The registry reflects the visits of any run. -/
theorem reflects_after (vs : List Visit) : (after {} vs).Reflects (answers {} vs) := by
  induction vs using List.reverseRecOn with
  | nil => exact reflects_empty
  | append_singleton vs v ih =>
    rw [after_concat, answers_concat]
    exact ih.visit v

/-- One of the visits defines the type under the name. -/
def Defines (vs : List Visit) (id : TypeId) (fullName : String) : Prop :=
  (⟨id, fullName⟩, .ok .fresh) ∈ answers {} vs

/-- What is known behind visits of the empty registry. -/
structure DefinesOnce (vs : List Visit) : Prop where
  /-- Each of the two tables is the inverse of the other. -/
  inverse : (after {} vs).tables.Inverse
  /-- They hold the types that were defined and the names under which they were. -/
  defined : ∀ id fullName, (after {} vs).tables.names.lookup id = some fullName ↔ Defines vs id fullName
  /-- What comes of another visit is decided by them, and is done to them. -/
  claimed : ∀ id fullName, (after {} vs).tables.claim id fullName =
    ((after {} vs).claim id fullName).map fun c => (c.1, c.2.tables)
  /-- If no visit of a type was accepted, the first that is defines it. -/
  first : ∀ v c, (∀ other c', (⟨v.id, other⟩, .ok c') ∉ answers {} vs) →
    ((after {} vs).visit v).1 = .ok c → c = .fresh
  /-- Behind its definition, each visit of a type is told the name of the definition. -/
  again : ∀ v fullName, Defines vs v.id fullName → (after {} vs).visit v = (.ok (.known fullName), after {} vs)
  /-- Just the visits of new types under names of others are refused. -/
  refused : ∀ v f, ((after {} vs).visit v).1 = .error f ↔ f = .name v.fullName .taken ∧
    (∀ other, ¬ Defines vs v.id other) ∧ ∃ owner, owner ≠ v.id ∧ Defines vs owner v.fullName
  /-- A visit that does not define its type changes nothing. -/
  unchanged : ∀ v, ((after {} vs).visit v).1 ≠ .ok .fresh → ((after {} vs).visit v).2 = after {} vs
  /-- As many types are defined as visits were told to define them. -/
  size : (after {} vs).size = (answers {} vs).countP Defining
  /-- The two tables are as large as that. -/
  tables : (after {} vs).tables.names.keys.card = (after {} vs).size ∧
    (after {} vs).tables.owners.keys.card = (after {} vs).size

theorem definesOnce (vs : List Visit) : DefinesOnce vs := by
  have h := reflects_after vs
  have hdefined (id : TypeId) (fullName : String) :
      (after {} vs).nameOf? id = some fullName ↔ Defines vs id fullName := h.defined
  have hnew (id : TypeId) : (after {} vs).nameOf? id = none ↔ ∀ other, ¬ Defines vs id other := by
    simp only [Option.eq_none_iff_forall_ne_some, ne_eq, hdefined]
  have howner (owner : TypeId) (fullName : String) :
      (after {} vs).ownerOf? fullName = some owner ↔ Defines vs owner fullName := by
    rw [← hdefined, ← lookup_names, ← lookup_owners]
    exact (h.inverse owner fullName).symm
  refine ⟨h.inverse, fun id fullName => ?defined, tables_claim _, ?first, ?again, ?refused, ?unchanged, h.size,
    h.names, h.owners⟩
  case defined => rw [lookup_names, hdefined]
  case first =>
    intro v c hfirst hc
    exact eq_fresh_of_visit ((hnew v.id).mpr fun other hmem => hfirst other _ hmem) hc
  case again => exact fun v fullName hdef => visit_of_nameOf? ((hdefined v.id fullName).mpr hdef)
  case refused =>
    intro v f
    rw [visit_eq_error_iff, hnew]
    simp only [howner]
    refine and_congr_right fun _ => and_congr_right fun hfree => exists_congr fun owner => ?_
    exact ⟨fun hdef => ⟨fun heq => hfree _ (heq ▸ hdef), hdef⟩, And.right⟩
  case unchanged => exact fun v => visit_unchanged

/-- **Types are defined once, each under the name of its first occurrence that is accepted**, in all runs of occurrences
of any types under any names; the claims of a derivation are such visits. -/
theorem visits_define_once : (∀ (s : Progress) (v : Visit), (Derive.claim v.id v.fullName).runFrom s =
      some ((s.registry.visit v).1.mapError .type, { s with registry := (s.registry.visit v).2 })) ∧
    ∀ vs, DefinesOnce vs :=
  ⟨runFrom_claim_eq_visit, definesOnce⟩

/-- A type that was refused is still new, and is defined under another name. -/
example : (answers {} [⟨1, "a.A"⟩, ⟨2, "a.A"⟩, ⟨1, "b.B"⟩, ⟨2, "b.B"⟩]).map Prod.snd =
    [.ok .fresh, .error (.name "a.A" .taken), .ok (.known "a.A"), .ok .fresh] := by decide

end Registry
end Avro
