import Avro.Proofs.Derivation.Ownership

/-!
# Rules by priority

A table asks its rules by priority, and those of one priority in the order in which they were added (`Registers`). Each
new rule finds its place behind all that are not of a greater priority, which keeps that order (`Registers.insert`), so
it holds after any rules that are added to the empty table or to the one of the library (`Registers.insertAll`).

Hence the rule of a type is the one of least priority that takes care of it, the first that was added of those
(`Registers.find_ok_iff_first`). Another rule has the type if it takes care of it and no rule does that is not of a
greater priority, and else changes nothing for the type (`Registers.find_insert_taken`, `Registers.find_insert_kept`).
-/

namespace Avro
namespace RuleTable

variable {t : RuleTable} {g : TypeGraph} {d : Descriptor} {r x e : RankedRule} {rs es : List RankedRule}

/-! ## The place of a rule -/

/-- Rules in the order of their priorities. -/
def Sorted (es : List RankedRule) : Prop := es.Pairwise fun a b => a.priority ≤ b.priority

/-- The rules that stay in front of a rule. -/
def ahead (x : RankedRule) (es : List RankedRule) : List RankedRule := es.takeWhile fun e => e.priority ≤ x.priority

/-- The rules that come behind a rule. -/
def behind (x : RankedRule) (es : List RankedRule) : List RankedRule := es.dropWhile fun e => e.priority ≤ x.priority

theorem ahead_append_behind (x : RankedRule) (es : List RankedRule) : ahead x es ++ behind x es = es :=
  List.takeWhile_append_dropWhile

/-- A rule is put between those that stay in front of it and those behind. -/
theorem place_eq (x : RankedRule) (es : List RankedRule) : place x es = ahead x es ++ x :: behind x es := by
  induction es with
  | nil => rfl
  | cons e es ih =>
    unfold ahead behind at ih
    by_cases hlt : x.priority < e.priority
    · simp [place, ahead, behind, hlt]
    · simp [place, ahead, behind, hlt, Nat.le_of_not_lt hlt, ih]

theorem le_of_mem_ahead (h : e ∈ ahead x es) : e.priority ≤ x.priority := by
  simpa using List.mem_takeWhile_imp h

/-- If rules are in order, all that come behind a rule are of a greater priority. -/
theorem lt_of_mem_behind (hs : Sorted es) (h : e ∈ behind x es) : x.priority < e.priority := by
  induction es with
  | nil => cases h
  | cons a es ih =>
    obtain ⟨ha, hes⟩ := List.pairwise_cons.mp hs
    by_cases hle : a.priority ≤ x.priority
    · exact ih hes (by simpa [behind, hle] using h)
    · have hmem : e = a ∨ e ∈ es := by simpa [behind, hle] using h
      rcases hmem with rfl | hmem
      · exact Nat.lt_of_not_le hle
      · exact Nat.lt_of_lt_of_le (Nat.lt_of_not_le hle) (ha e hmem)

theorem mem_ahead_iff (hs : Sorted es) : e ∈ ahead x es ↔ e ∈ es ∧ e.priority ≤ x.priority := by
  constructor
  · exact fun h => ⟨ahead_append_behind x es ▸ List.mem_append_left _ h, le_of_mem_ahead h⟩
  · rintro ⟨hmem, hle⟩
    rw [← ahead_append_behind x es] at hmem
    refine (List.mem_append.mp hmem).resolve_right fun h => ?_
    exact absurd hle (Nat.not_le_of_lt (lt_of_mem_behind hs h))

/-! ## Registrations -/

/-- A registration is asked before another: it is of less priority, or of the same one and was made before. -/
def Precedes (a b : RankedRule × Nat) : Prop :=
  a.1.priority < b.1.priority ∨ a.1.priority = b.1.priority ∧ a.2 < b.2

theorem Precedes.asymm {a b : RankedRule × Nat} (h : Precedes a b) : ¬ Precedes b a := by
  unfold Precedes at *
  omega

/-- The rules of the table are those that were added, each as often as it was, in the order in which they are asked. -/
def Registers (t : RuleTable) (rs : List RankedRule) : Prop :=
  ∃ ranked : List (RankedRule × Nat), ranked.Perm rs.zipIdx ∧ ranked.Pairwise Precedes ∧ t.entries = ranked.map Prod.fst

/-- Adds rules one after the other. -/
def insertAll (t : RuleTable) (rs : List RankedRule) : RuleTable :=
  rs.foldl (fun t r => t.insert r.priority r.rule) t

theorem registers_empty : Registers empty [] := ⟨[], .nil, .nil, rfl⟩

theorem Registers.sorted (h : t.Registers rs) : Sorted t.entries := by
  obtain ⟨ranked, -, hranked, hentries⟩ := h
  rw [hentries, Sorted, List.pairwise_map]
  refine hranked.imp fun {a b} hab => ?_
  unfold Precedes at hab
  omega

theorem Registers.mem_iff (h : t.Registers rs) : e ∈ t.entries ↔ e ∈ rs := by
  obtain ⟨ranked, hperm, -, hentries⟩ := h
  rw [hentries, (hperm.map Prod.fst).mem_iff, List.zipIdx_map_fst]

/-- A rule that is added is the last of its priority. -/
theorem Registers.insert (h : t.Registers rs) (x : RankedRule) :
    (t.insert x.priority x.rule).Registers (rs ++ [x]) := by
  have hsorted := h.sorted
  obtain ⟨ranked, hperm, hranked, hentries⟩ := h
  have hsplit := (ahead_append_behind x t.entries).trans hentries
  obtain ⟨before, after, rfl, hbefore, hafter⟩ := List.append_eq_map_iff.mp hsplit
  have hle : ∀ a ∈ before, a.1.priority ≤ x.priority := fun a ha => by
    have hmem : a.1 ∈ ahead x t.entries := hbefore ▸ List.mem_map_of_mem ha
    exact le_of_mem_ahead hmem
  have hlt : ∀ a ∈ after, x.priority < a.1.priority := fun a ha =>
    lt_of_mem_behind hsorted (hafter ▸ List.mem_map_of_mem ha)
  have hindex : ∀ a ∈ before ++ after, a.2 < rs.length := fun a ha => by
    simpa using List.snd_lt_of_mem_zipIdx (hperm.subset ha)
  refine ⟨before ++ (x, rs.length) :: after, ?_, ?_, ?_⟩
  · rw [List.zipIdx_append]
    refine List.perm_middle.trans ((List.perm_append_singleton _ _).symm.trans ?_)
    simpa using hperm.append_right [(x, rs.length)]
  · rw [List.pairwise_append] at hranked ⊢
    obtain ⟨hb, ha, hcross⟩ := hranked
    refine ⟨hb, List.pairwise_cons.mpr ⟨fun a h => .inl (hlt a h), ha⟩, fun a hmem b h => ?_⟩
    rcases List.mem_cons.mp h with rfl | h
    · have hi := hindex a (List.mem_append_left _ hmem)
      have hp := hle a hmem
      unfold Precedes
      dsimp only
      omega
    · exact hcross a hmem b h
  · rw [RuleTable.insert, place_eq, ← hbefore, ← hafter, List.map_append, List.map_cons]

theorem Registers.insertAll (h : t.Registers rs) (more : List RankedRule) :
    (t.insertAll more).Registers (rs ++ more) := by
  induction more generalizing t rs with
  | nil => rwa [List.append_nil]
  | cons x more ih =>
    have hx := ih (h.insert x)
    rwa [List.append_assoc, List.singleton_append] at hx

/-! ## The rule that is found -/

/-- The registration takes care of the type, and is asked before all others that do. -/
def IsFirst (rs : List RankedRule) (g : TypeGraph) (d : Descriptor) (e : RankedRule) (i : Nat) : Prop :=
  rs[i]? = some e ∧ e.rule.handles g d = true ∧
    ∀ e' k, rs[k]? = some e' → e'.rule.handles g d = true → k ≠ i → Precedes (e, i) (e', k)

/-- The rule of a type is that of the registration which is asked before all others that take care of the type. -/
theorem Registers.find_ok_iff_first (h : t.Registers rs) {r : Rule} :
    t.find g d = .ok r ↔ ∃ e i, IsFirst rs g d e i ∧ e.rule = r := by
  obtain ⟨ranked, hperm, hranked, hentries⟩ := h
  have hmem : ∀ {e i}, (e, i) ∈ ranked ↔ rs[i]? = some e := fun {e i} => by
    rw [hperm.mem_iff, List.mk_mem_zipIdx_iff_getElem?]
  rw [find_ok_iff, Owns, hentries]
  constructor
  · rintro ⟨before, e, after, hsplit, rfl, hhandles, hbefore⟩
    obtain ⟨xs, ys, rfl, rfl, hys⟩ := List.map_eq_append_iff.mp hsplit
    obtain ⟨⟨e, i⟩, zs, rfl, rfl, rfl⟩ := List.map_eq_cons_iff.mp hys
    refine ⟨e, i, ⟨hmem.mp (by simp), hhandles, fun e' k hk hhandles' hne => ?_⟩, rfl⟩
    rcases List.mem_append.mp (hmem.mpr hk) with hxs | hzs
    · exact absurd hhandles' (by simp [hbefore e' (List.mem_map_of_mem hxs)])
    · rcases List.mem_cons.mp hzs with heq | hzs
      · exact absurd (congrArg Prod.snd heq) hne
      · exact (List.pairwise_cons.mp (List.pairwise_append.mp hranked).2.1).1 _ hzs
  · rintro ⟨e, i, ⟨hi, hhandles, hleast⟩, rfl⟩
    obtain ⟨xs, zs, rfl⟩ := List.append_of_mem (hmem.mpr hi)
    refine ⟨xs.map Prod.fst, e, zs.map Prod.fst, by simp, rfl, hhandles, fun b hb => ?_⟩
    obtain ⟨⟨b, k⟩, hx, rfl⟩ := List.mem_map.mp hb
    have hbefore : Precedes (b, k) (e, i) := (List.pairwise_append.mp hranked).2.2 _ hx _ List.mem_cons_self
    refine Bool.eq_false_iff.mpr fun hhandles' => hbefore.asymm ?_
    refine hleast b k (hmem.mp (List.mem_append_left _ hx)) hhandles' fun hk => ?_
    subst hk
    have heq : b = e := Option.some.inj ((hmem.mp (List.mem_append_left _ hx)).symm.trans hi)
    subst heq
    exact hbefore.asymm hbefore

/-- A type has no rule if and only if none that was added takes care of it. -/
theorem Registers.find_error_iff (h : t.Registers rs) {fault : TypeFault} :
    t.find g d = .error fault ↔
      (∀ e ∈ rs, e.rule.handles g d = false) ∧ fault = .unsupported (.noRule d.label) := by
  have hnone : t.find? g d = none ↔ ∀ e ∈ rs, e.rule.handles g d = false := by
    simp [find?, List.find?_eq_none, h.mem_iff]
  rw [← hnone, find]
  cases t.find? g d <;> simp [eq_comm]

/-- The rules in front are asked first, then the rule itself, then those behind it. -/
theorem find?_insert (t : RuleTable) (x : RankedRule) (g : TypeGraph) (d : Descriptor) :
    (t.insert x.priority x.rule).find? g d =
      (((ahead x t.entries).find? fun e => e.rule.handles g d).or
        (if x.rule.handles g d then some x else (behind x t.entries).find? fun e => e.rule.handles g d)).map (·.rule) := by
  rw [find?, insert, place_eq, List.find?_append, List.find?_cons]
  cases x.rule.handles g d <;> rfl

theorem find?_split (t : RuleTable) (x : RankedRule) (g : TypeGraph) (d : Descriptor) :
    t.find? g d = (((ahead x t.entries).find? fun e => e.rule.handles g d).or
      ((behind x t.entries).find? fun e => e.rule.handles g d)).map (·.rule) := by
  rw [← List.find?_append, ahead_append_behind, find?]

theorem Registers.find_insert_taken (h : t.Registers rs) (x : RankedRule) (hx : x.rule.handles g d = true)
    (hfree : ∀ e ∈ rs, e.priority ≤ x.priority → e.rule.handles g d = false) :
    (t.insert x.priority x.rule).find g d = .ok x.rule := by
  have hahead : ((ahead x t.entries).find? fun e => e.rule.handles g d) = none := by
    refine List.find?_eq_none.mpr fun e he => ?_
    obtain ⟨hmem, hle⟩ := (mem_ahead_iff h.sorted).mp he
    simp [hfree e (h.mem_iff.mp hmem) hle]
  rw [find, find?_insert, hahead, Option.none_or, if_pos hx]
  rfl

/-- Another rule changes nothing for a type that it does not take care of, or that has a rule which is not of a greater
priority. -/
theorem Registers.find_insert_kept (h : t.Registers rs) (x : RankedRule) (hx : x.rule.handles g d = true →
    ∃ e ∈ rs, e.priority ≤ x.priority ∧ e.rule.handles g d = true) :
    (t.insert x.priority x.rule).find g d = t.find g d := by
  have hfind? : (t.insert x.priority x.rule).find? g d = t.find? g d := by
    rw [find?_insert, find?_split t x]
    cases hhandles : x.rule.handles g d with
    | false => rfl
    | true =>
      obtain ⟨e, he, hle, hhandles'⟩ := hx hhandles
      have hmem : e ∈ ahead x t.entries := (mem_ahead_iff h.sorted).mpr ⟨h.mem_iff.mpr he, hle⟩
      have hsome : ((ahead x t.entries).find? fun e => e.rule.handles g d).isSome :=
        List.find?_isSome.mpr ⟨e, hmem, hhandles'⟩
      obtain ⟨f, hf⟩ := Option.isSome_iff_exists.mp hsome
      rw [hf, Option.some_or, Option.some_or]
  rw [find, hfind?, find]

/-! ## Runs of registrations -/

/-- What is known of a table that rules have been added to, one after the other. -/
structure LooksUp (t : RuleTable) (rs : List RankedRule) : Prop where
  /-- Its rules are those that were added, none lost or repeated, by priority and then in the order of their addition. -/
  order : t.Registers rs
  /-- The rule of a type is that of the first registration in this order that takes care of the type. -/
  found : ∀ {g d r}, t.find g d = .ok r ↔ ∃ e i, IsFirst rs g d e i ∧ e.rule = r
  /-- A type is refused if and only if no rule takes care of it. -/
  refused : ∀ {g d fault}, t.find g d = .error fault ↔
    (∀ e ∈ rs, e.rule.handles g d = false) ∧ fault = .unsupported (.noRule d.label)
  /-- Another rule has the types that it takes care of and that no rule of its priority or a lower one has. -/
  taken : ∀ {g d} (x : RankedRule), x.rule.handles g d = true →
    (∀ e ∈ rs, e.priority ≤ x.priority → e.rule.handles g d = false) →
    (t.insert x.priority x.rule).find g d = .ok x.rule
  /-- It changes nothing for all other types. -/
  kept : ∀ {g d} (x : RankedRule), (t.insert x.priority x.rule).find g d ≠ t.find g d →
    x.rule.handles g d = true ∧ ∀ e ∈ rs, e.priority ≤ x.priority → e.rule.handles g d = false

theorem Registers.looksUp (h : t.Registers rs) : t.LooksUp rs where
  order := h
  found := h.find_ok_iff_first
  refused := h.find_error_iff
  taken x := h.find_insert_taken x
  kept {g d} x hne := by
    by_contra hcond
    refine hne (h.find_insert_kept x fun hx => ?_)
    simpa [hx] using hcond

theorem registers_standard : standard.Registers standardRules := registers_empty.insertAll standardRules

/-- **Rules are looked up by priority, and among equal ones by the order of their addition**, in each table that is made
from the empty one or from that of the library. -/
theorem insertAll_looksUp (rs : List RankedRule) :
    (empty.insertAll rs).LooksUp rs ∧ (standard.insertAll rs).LooksUp (standardRules ++ rs) :=
  ⟨(registers_empty.insertAll rs).looksUp, (registers_standard.insertAll rs).looksUp⟩

/-- Of equal priorities, the one that was added first is asked first. -/
example : (empty.insertAll [⟨10, .map⟩, ⟨10, .basic⟩, ⟨0, .record⟩, ⟨10, .map⟩]).ranks =
    [(0, "record"), (10, "map"), (10, "primitive"), (10, "map")] := by decide

end RuleTable
end Avro
