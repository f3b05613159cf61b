import Avro.Proofs.Graph.Members
import Mathlib

/-!
# The expansion of a list of members

`TypeGraph.Expands g es xs` writes a list of edges out: where an edge leads to a union stands the expansion of its
members, and everywhere else the type itself, as often as it is met. A list has an expansion if and only if all that it
reaches through unions is there and no union is among its own members (`exists_expands_iff`). Then `flatMembers` gives
the expansion with each type at its first place only, and otherwise it fails (`flatMembers_ok_iff`). All that is known
of the members of a union follows from that (`flattensExactly`).
-/

namespace Avro.TypeGraph

open Relation

/-- What a list of edges leads to from left to right, unions by their members. -/
inductive Expands (g : TypeGraph) : List Edge → List TypeId → Prop
  | nil : Expands g [] []
  | leaf {e : Edge} {d : Descriptor} {es : List Edge} {xs : List TypeId} :
      g.target? e = some d → (∀ inner, d.shape ≠ .union inner) → Expands g es xs → Expands g (e :: es) (e.target :: xs)
  | union {e : Edge} {d : Descriptor} {inner es : List Edge} {ys xs : List TypeId} :
      g.target? e = some d → d.shape = .union inner → Expands g inner ys → Expands g es xs →
      Expands g (e :: es) (ys ++ xs)

/-- One of the edges leads to the type, through members of unions. -/
def Lists (g : TypeGraph) (es : List Edge) (m : TypeId) : Prop := ∃ e ∈ es, ReflTransGen g.HasMember e.target m

variable {g : TypeGraph} {active out out' : List TypeId} {es as bs : List Edge} {xs ys zs : List TypeId} {e e' : Edge}
  {d : Descriptor} {inner : List Edge} {m : TypeId}

/-! ## Expansions -/

theorem Expands.unique (hx : g.Expands es xs) (hy : g.Expands es ys) : xs = ys := by
  induction hx generalizing ys with
  | nil => cases hy; rfl
  | leaf hd hu _ ih =>
    cases hy with
    | leaf _ _ h => rw [ih h]
    | union hd' hu' => cases hd.symm.trans hd'; exact absurd hu' (hu _)
  | union hd hu _ _ ih₂ ih₁ =>
    cases hy with
    | leaf hd' hu' => cases hd.symm.trans hd'; exact absurd hu (hu' _)
    | union hd' hu' h₂ h₁ =>
      cases hd.symm.trans hd'
      cases hu.symm.trans hu'
      rw [ih₂ h₂, ih₁ h₁]

theorem expands_append : g.Expands (as ++ bs) zs ↔ ∃ xs ys, g.Expands as xs ∧ g.Expands bs ys ∧ zs = xs ++ ys := by
  constructor
  · intro h
    induction as generalizing zs with
    | nil => exact ⟨[], zs, .nil, h, rfl⟩
    | cons e as ih =>
      cases h with
      | leaf hd hu h =>
        obtain ⟨xs, ys, hxs, hys, rfl⟩ := ih h
        exact ⟨_, ys, .leaf hd hu hxs, hys, rfl⟩
      | union hd hu hinner h =>
        obtain ⟨xs, ys, hxs, hys, rfl⟩ := ih h
        exact ⟨_, ys, .union hd hu hinner hxs, hys, (List.append_assoc _ _ _).symm⟩
  · rintro ⟨xs, ys, hxs, hys, rfl⟩
    induction hxs with
    | nil => exact hys
    | leaf hd hu _ ih => exact .leaf hd hu ih
    | union hd hu hinner _ _ ih =>
      rw [List.append_assoc]
      exact .union hd hu hinner ih

/-- A union expands as its members do. -/
theorem expands_union (hd : g.target? e = some d) (hu : d.shape = .union inner) :
    g.Expands (e :: es) xs ↔ g.Expands (inner ++ es) xs := by
  rw [expands_append]
  constructor
  · intro h
    cases h with
    | leaf hd' hu' => cases hd.symm.trans hd'; exact absurd hu (hu' _)
    | union hd' hu' hinner hes =>
      cases hd.symm.trans hd'
      cases hu.symm.trans hu'
      exact ⟨_, _, hinner, hes, rfl⟩
  · rintro ⟨ys, zs, hys, hzs, rfl⟩
    exact .union hd hu hys hzs

/-- Edges to one type expand alike. -/
theorem Expands.of_target (h : g.Expands (e :: es) xs) (he : e'.target = e.target) : g.Expands (e' :: es) xs := by
  have htarget : g.target? e' = g.target? e := by rw [target?, target?, he]
  cases h with
  | leaf hd hu h =>
    rw [← he]
    exact .leaf (htarget.trans hd) hu h
  | union hd hu hinner h => exact .union (htarget.trans hd) hu hinner h

/-- Types that are no unions expand to themselves. -/
theorem expands_leaves (h : ∀ e ∈ es, ∃ d, g.target? e = some d ∧ ∀ inner, d.shape ≠ .union inner) :
    g.Expands es (es.map Edge.target) := by
  induction es with
  | nil => exact .nil
  | cons e es ih =>
    obtain ⟨⟨d, hd, hu⟩, hes⟩ := List.forall_mem_cons.mp h
    exact .leaf hd hu (ih hes)

/-! ## What an expansion holds -/

theorem lists_cons : g.Lists (e :: es) m ↔ ReflTransGen g.HasMember e.target m ∨ g.Lists es m := by
  simp [Lists]

/-- What a union reaches is the union, and what its members reach. -/
theorem reflTransGen_union (hd : g.target? e = some d) (hu : d.shape = .union inner) :
    ReflTransGen g.HasMember e.target m ↔ m = e.target ∨ g.Lists inner m := by
  rw [ReflTransGen.cases_head_iff]
  refine or_congr eq_comm ⟨?_, ?_⟩
  · rintro ⟨_, ⟨d', inner', hd', hu', a, ha, rfl⟩, hreach⟩
    cases hd.symm.trans hd'
    cases hu.symm.trans hu'
    exact ⟨a, ha, hreach⟩
  · rintro ⟨a, ha, hreach⟩
    exact ⟨a.target, ⟨d, inner, hd, hu, a, ha, rfl⟩, hreach⟩

/-- A type that is no union reaches itself only. -/
theorem reflTransGen_leaf (hd : g.target? e = some d) (hu : ∀ inner, d.shape ≠ .union inner) :
    ReflTransGen g.HasMember e.target m ↔ m = e.target := by
  rw [ReflTransGen.cases_head_iff, or_iff_left, eq_comm]
  rintro ⟨_, ⟨d', inner, hd', hu', -⟩, -⟩
  cases hd.symm.trans hd'
  exact hu inner hu'

/-- All that a list with an expansion reaches is there. -/
theorem Expands.resolves (h : g.Expands es xs) (hm : g.Lists es m) : ∃ d, g.get? m = some d := by
  induction h with
  | nil => simp [Lists] at hm
  | leaf hd hu _ ih =>
    rw [lists_cons, reflTransGen_leaf hd hu] at hm
    rcases hm with rfl | hm
    · exact ⟨_, hd⟩
    · exact ih hm
  | union hd hu _ _ ih₂ ih₁ =>
    rw [lists_cons, reflTransGen_union hd hu] at hm
    rcases hm with (rfl | hm) | hm
    · exact ⟨_, hd⟩
    · exact ih₂ hm
    · exact ih₁ hm

/-- All ways through unions end that start in a list with an expansion. -/
theorem Expands.acc (h : g.Expands es xs) : ∀ e ∈ es, Acc (Function.swap g.HasMember) e.target := by
  induction h with
  | nil => simp
  | @leaf e d es xs hd hu _ ih =>
    refine List.forall_mem_cons.mpr ⟨⟨_, ?_⟩, ih⟩
    rintro _ ⟨d', inner, hd', hu', -⟩
    cases hd.symm.trans hd'
    exact absurd hu' (hu inner)
  | @union e d inner es ys xs hd hu _ _ ih₂ ih₁ =>
    refine List.forall_mem_cons.mpr ⟨⟨_, ?_⟩, ih₁⟩
    rintro _ ⟨d', inner', hd', hu', a, ha, rfl⟩
    cases hd.symm.trans hd'
    cases hu.symm.trans hu'
    exact ih₂ a ha

theorem Expands.acyclic (h : g.Expands es xs) (hm : g.Lists es m) : ¬ TransGen g.HasMember m m := by
  obtain ⟨e, he, hreach⟩ := hm
  have hacc : ∀ {a b}, ReflTransGen g.HasMember a b → Acc (Function.swap g.HasMember) a →
      Acc (Function.swap g.HasMember) b := by
    intro a b hab ha
    induction hab with
    | refl => exact ha
    | tail _ hstep ih => exact ih.inv hstep
  exact not_cycle_of_acc (hacc hreach (h.acc e he))

/-- An expansion holds the types that are reached and are no unions. -/
theorem Expands.mem_iff (h : g.Expands es xs) :
    m ∈ xs ↔ g.Lists es m ∧ ∃ d, g.get? m = some d ∧ ∀ inner, d.shape ≠ .union inner := by
  induction h with
  | nil => simp [Lists]
  | @leaf e d es xs hd hu _ ih =>
    have hleaf : m = e.target → ∃ d, g.get? m = some d ∧ ∀ inner, d.shape ≠ .union inner := by
      rintro rfl
      exact ⟨d, hd, hu⟩
    rw [List.mem_cons, ih, lists_cons, reflTransGen_leaf hd hu, or_and_right, and_iff_left_of_imp hleaf]
  | @union e d inner es ys xs hd hu _ _ ih₂ ih₁ =>
    have hnot : ¬ (m = e.target ∧ ∃ d, g.get? m = some d ∧ ∀ inner, d.shape ≠ .union inner) := by
      rintro ⟨rfl, d', hd', hu'⟩
      cases hd.symm.trans hd'
      exact hu' inner hu
    rw [List.mem_append, ih₂, ih₁, lists_cons, reflTransGen_union hd hu, or_and_right, or_and_right,
      or_iff_right hnot]

/-! ## First places -/

theorem eraseDups_concat {x : TypeId} :
    (zs ++ [x]).eraseDups = if x ∈ zs then zs.eraseDups else zs.eraseDups ++ [x] := by
  rw [List.eraseDups_append]
  split <;> simp_all [List.removeAll, List.eraseDups_cons]

/-- What has been met before changes nothing. -/
theorem eraseDups_append_of_subset (h : ys ⊆ zs) : (zs ++ ys).eraseDups = zs.eraseDups := by
  have hnone : ys.removeAll zs = [] := by
    rw [List.removeAll, List.filter_eq_nil_iff]
    intro y hy
    simpa using h hy
  rw [List.eraseDups_append, hnone, List.eraseDups_nil, List.append_nil]

theorem eraseDups_of_nodup (h : xs.Nodup) : xs.eraseDups = xs := by
  induction xs with
  | nil => rfl
  | cons x xs ih =>
    obtain ⟨hx, hxs⟩ := List.nodup_cons.mp h
    have hall : (xs.filter fun y => !y == x) = xs := by
      rw [List.filter_eq_self]
      intro y hy
      have hne : y ≠ x := fun heq => hx (heq ▸ hy)
      simpa using hne
    rw [List.eraseDups_cons, hall, ih hxs]

/-! ## Splicing -/

/-- Splicing adds the expansion of the list to what was expanded before, at the first places. -/
theorem expands_of_spliceInto (h : g.spliceInto active out es = .ok out') (hout : out = zs.eraseDups) :
    ∃ xs, g.Expands es xs ∧ out' = (zs ++ xs).eraseDups := by
  fun_induction spliceInto g active out es generalizing out' zs with
  | case1 =>
    cases h
    exact ⟨[], .nil, by rw [List.append_nil, hout]⟩
  | case2 | case3 | case5 => cases h
  | case4 _ out e es d hd inner hu hnew out₁ hsplice ih₂ ih₁ =>
    obtain ⟨ys, hys, hout₁⟩ := ih₂ hsplice hout
    obtain ⟨xs, hxs, rfl⟩ := ih₁ h hout₁
    exact ⟨ys ++ xs, .union hd hu hys hxs, by rw [List.append_assoc]⟩
  | case6 _ out e es d hd hu ih =>
    have hstep : (if e.target ∈ out then out else out ++ [e.target]) = (zs ++ [e.target]).eraseDups := by
      rw [eraseDups_concat, hout]
      simp only [List.mem_eraseDups]
    obtain ⟨xs, hxs, rfl⟩ := ih h hstep
    exact ⟨e.target :: xs, .leaf hd hu hxs, by rw [List.append_assoc, List.singleton_append]⟩

/-- A list is spliced if and only if it has an expansion, where no union is around it. -/
theorem spliceInto_ok_iff (hout : out = zs.eraseDups) :
    g.spliceInto [] out es = .ok out' ↔ ∃ xs, g.Expands es xs ∧ out' = (zs ++ xs).eraseDups := by
  refine ⟨fun h => expands_of_spliceInto h hout, ?_⟩
  rintro ⟨xs, hxs, rfl⟩
  obtain ⟨out', hok⟩ : ∃ out', g.spliceInto [] out es = .ok out' :=
    spliceInto_ok (fun e he m hm => hxs.resolves ⟨e, he, hm⟩) (fun e he m hm => hxs.acyclic ⟨e, he, hm⟩) (by simp)
  obtain ⟨ys, hys, rfl⟩ := expands_of_spliceInto hok hout
  rw [hok, hxs.unique hys]

theorem flatMembers_ok_iff {flat : List TypeId} :
    g.flatMembers es = .ok flat ↔ ∃ xs, g.Expands es xs ∧ flat = xs.eraseDups := by
  have hnil : [] = ([] : List TypeId).eraseDups := rfl
  exact spliceInto_ok_iff hnil

/-- A list has an expansion if all that it reaches is there and no union is among its own members. -/
theorem exists_expands_iff : (∃ xs, g.Expands es xs) ↔
    (∀ m, g.Lists es m → ∃ d, g.get? m = some d) ∧ ∀ m, g.Lists es m → ¬ TransGen g.HasMember m m := by
  refine ⟨fun ⟨xs, hxs⟩ => ⟨fun m hm => hxs.resolves hm, fun m hm => hxs.acyclic hm⟩, fun ⟨hres, hcycle⟩ => ?_⟩
  obtain ⟨out', hok⟩ : ∃ out', g.spliceInto [] [] es = .ok out' :=
    spliceInto_ok (fun e he m hm => hres m ⟨e, he, hm⟩) (fun e he m hm => hcycle m ⟨e, he, hm⟩) (by simp)
  obtain ⟨xs, hxs, -⟩ := flatMembers_ok_iff.mp hok
  exact ⟨xs, hxs⟩

/-- Two lists are spliced one after the other. -/
theorem spliceInto_append : g.spliceInto active out (as ++ bs) =
    match g.spliceInto active out as with
    | .ok out' => g.spliceInto active out' bs
    | .error f => .error f := by
  induction as generalizing out with
  | nil => rw [List.nil_append, spliceInto]
  | cons e as ih =>
    rw [List.cons_append]
    cases hd : g.target? e with
    | none => rw [spliceInto_gone hd, spliceInto_gone hd]
    | some d =>
      by_cases hu : ∃ inner, d.shape = .union inner
      · obtain ⟨inner, hu⟩ := hu
        rw [spliceInto_union hd hu, spliceInto_union hd hu]
        split
        · rfl
        · cases g.spliceInto (e.target :: active) out inner with
          | ok out₁ => exact ih
          | error f => rfl
      · rw [not_exists] at hu
        rw [spliceInto_leaf hd hu, spliceInto_leaf hd hu, ih]

/-! ## The members of a union -/

/-- A nested union may be replaced by its members. -/
theorem flatMembers_inline {before after : List Edge} (hd : g.target? e = some d) (hu : d.shape = .union inner)
    (flat : List TypeId) : g.flatMembers (before ++ inner ++ after) = .ok flat ↔
      g.flatMembers (before ++ e :: after) = .ok flat := by
  have hexpands : ∀ xs, g.Expands (before ++ inner ++ after) xs ↔ g.Expands (before ++ e :: after) xs := by
    intro xs
    rw [List.append_assoc, expands_append, expands_append]
    simp only [expands_union hd hu]
  simp only [flatMembers_ok_iff, hexpands]

/-- A member may be repeated behind its first place. -/
theorem flatMembers_repeat {before mid after : List Edge} (he : e'.target = e.target) :
    g.flatMembers (before ++ e :: (mid ++ e' :: after)) = g.flatMembers (before ++ e :: (mid ++ after)) := by
  have hfront : ∀ rest, g.flatMembers (before ++ e :: (mid ++ rest)) =
      match g.flatMembers (before ++ e :: mid) with
      | .ok out => g.spliceInto [] out rest
      | .error f => .error f := by
    intro rest
    simp only [flatMembers, ← spliceInto_append, List.append_assoc, List.cons_append]
  rw [hfront, hfront]
  cases hfirst : g.flatMembers (before ++ e :: mid) with
  | error f => rfl
  | ok out =>
    -- what the member adds is among what it has added before
    obtain ⟨zs, hzs, rfl⟩ := flatMembers_ok_iff.mp hfirst
    obtain ⟨xs, rest, -, hrest, rfl⟩ := expands_append.mp hzs
    obtain ⟨ys, ws, hys, -, rfl⟩ := expands_append.mp (show g.Expands ([e] ++ mid) rest from hrest)
    have hagain : g.spliceInto [] (xs ++ (ys ++ ws)).eraseDups [e'] = .ok (xs ++ (ys ++ ws)).eraseDups := by
      refine (spliceInto_ok_iff rfl).mpr ⟨ys, hys.of_target he, (eraseDups_append_of_subset ?_).symm⟩
      intro y hy
      simp [hy]
    dsimp only
    rw [← List.singleton_append, spliceInto_append, hagain]

/-- What is known of the members that are found in a list of edges. -/
structure FlattensExactly (g : TypeGraph) (members : List Edge) : Prop where
  /-- They are found if all that is reached is there and no union is among its own members. -/
  succeeds : (∃ flat, g.flatMembers members = .ok flat) ↔
    (∀ m, g.Lists members m → ∃ d, g.get? m = some d) ∧ ∀ u, g.Lists members u → ¬ TransGen g.HasMember u u
  nodup : ∀ {flat}, g.flatMembers members = .ok flat → flat.Nodup
  /-- They are the types that are reached and are no unions. -/
  mem_iff : ∀ {flat}, g.flatMembers members = .ok flat → ∀ m, m ∈ flat ↔
    g.Lists members m ∧ ∃ d, g.get? m = some d ∧ ∀ inner, d.shape ≠ .union inner
  /-- They stand in the order in which the expansion of the list comes to them first. -/
  ordered : ∀ {flat}, g.flatMembers members = .ok flat → ∃ xs, g.Expands members xs ∧ flat = xs.eraseDups
  /-- They are their own members. -/
  again : ∀ {flat}, g.flatMembers members = .ok flat → ∀ edges : List Edge, edges.map Edge.target = flat →
    g.flatMembers edges = .ok flat
  /-- They are the same with the members of a nested union in its place. So if one of the two lists has none, neither has
  the other; the errors can name different unions. -/
  inlined : ∀ before e after {d inner}, members = before ++ e :: after → g.target? e = some d →
    d.shape = .union inner → ∀ flat, g.flatMembers (before ++ inner ++ after) = .ok flat ↔
      g.flatMembers members = .ok flat
  /-- They are the same with a member repeated behind its place. -/
  repeated : ∀ before e mid after, members = before ++ e :: (mid ++ after) → ∀ e' : Edge, e'.target = e.target →
    g.flatMembers (before ++ e :: (mid ++ e' :: after)) = g.flatMembers members

/-- **The members of a union are its expansion, each type at its first place.** -/
theorem flattensExactly (g : TypeGraph) (members : List Edge) : g.FlattensExactly members where
  succeeds := by
    simp only [← exists_expands_iff, flatMembers_ok_iff, exists_comm (α := List TypeId), exists_and_left,
      exists_eq, and_true]
  nodup h := nodup_flatMembers h
  mem_iff h m := by
    obtain ⟨xs, hxs, rfl⟩ := flatMembers_ok_iff.mp h
    rw [List.mem_eraseDups, hxs.mem_iff]
  ordered h := flatMembers_ok_iff.mp h
  again {flat} h edges hedges := by
    refine flatMembers_ok_iff.mpr ⟨flat, ?_, (eraseDups_of_nodup (nodup_flatMembers h)).symm⟩
    subst hedges
    refine expands_leaves fun e he => ?_
    obtain ⟨xs, hxs, heq⟩ := flatMembers_ok_iff.mp h
    have hmem : e.target ∈ xs := List.mem_eraseDups.mp (heq ▸ List.mem_map_of_mem he)
    exact (hxs.mem_iff.mp hmem).2
  inlined _ _ _ _ _ hmembers hd hu flat := hmembers ▸ flatMembers_inline hd hu flat
  repeated _ _ _ _ hmembers _ he := hmembers ▸ flatMembers_repeat he

/-- A union of two unions, the second of which has the first and one of its members among its own. -/
def diamond : TypeGraph := ⟨#[
  some { name := "Outer", shape := .union [{ target := 1 }, { target := 2 }] },
  some { name := "Left", shape := .union [{ target := 3 }, { target := 4 }] },
  some { name := "Right", shape := .union [{ target := 4 }, { target := 5 }, { target := 1 }] },
  some { name := "str", shape := .basic .string },
  some { name := "int", shape := .basic .integer },
  some { name := "None", shape := .basic .null }]⟩

theorem flattens_diamond : diamond.FlattensExactly [{ target := 0 }] ∧
    diamond.flatMembers [{ target := 0 }] = .ok [3, 4, 5] ∧
    diamond.flatMembers [{ target := 1 }, { target := 2 }] = .ok [3, 4, 5] ∧
    diamond.flatMembers [{ target := 0 }, { target := 0, weak := true }] = .ok [3, 4, 5] := by
  have hflat : diamond.flatMembers [{ target := 0 }] = .ok [3, 4, 5] := by cbv
  have h := diamond.flattensExactly [{ target := 0 }]
  refine ⟨h, hflat, (h.inlined [] _ [] rfl rfl rfl _).mpr hflat, ?_⟩
  rw [← hflat]
  exact h.repeated [] _ [] [] rfl { target := 0, weak := true } rfl

/-- Two unions, each the only member of the other. -/
def seesaw : TypeGraph := ⟨#[
  some { name := "Up", shape := .union [{ target := 1 }] },
  some { name := "Down", shape := .union [{ target := 0 }] }]⟩

example : seesaw.flatMembers [{ target := 0 }] = .error (.unsupported (.memberOfItself "Up")) ∧
    seesaw.flatMembers [{ target := 1 }] = .error (.unsupported (.memberOfItself "Down")) := by
  constructor <;> cbv

end Avro.TypeGraph
