import Avro.Proofs.Cache.Compilations
import Avro.Proofs.Renaming.Schema

/-!
# What a compilation depends on

Edges lead from the type that is compiled to the types that are `reached`. Of the graph, an answer depends on these only
(`renamingOfReached`), and only on what their descriptions say (`Renamed.toRenaming`): neither on the identities of the
types, as long as different types have different ones, nor on whether an edge is weak, as long as its target is there.
-/

namespace Avro

open Relation

namespace TypeGraph

/-- An edge leads from one type to the other, even if the description of the other is gone. -/
def Joins (g : TypeGraph) (a b : TypeId) : Prop := ∃ d, g.get? a = some d ∧ ∃ e ∈ d.shape.edges, e.target = b

/-- The types that edges lead to from a type, itself too. -/
def reached (g : TypeGraph) (root : TypeId) : Set TypeId := {a | ReflTransGen g.Joins root a}

/-- Those of the types reached that are described. -/
def live (g : TypeGraph) (root : TypeId) : Set TypeId := {a | a ∈ g.reached root ∧ (g.get? a).isSome}

/-- The types are described and the one is renamed to the other, or the descriptions of both are gone. -/
def Matches (g g' : TypeGraph) (φ : TypeId → TypeId) (a b : TypeId) : Prop :=
  (g.get? a).isSome ∧ (g'.get? b).isSome ∧ φ a = b ∨ g.get? a = none ∧ g'.get? b = none

/-- The types that are described and reached from one root are, under other identities, those reached from the other
root: different ones stay different, and their descriptions say the same. An edge leads to the type that its target is
renamed to, whether or not it is weak; if the target is gone, so is that of the other edge. -/
structure Renamed (g g' : TypeGraph) (root root' : TypeId) (φ : TypeId → TypeId) : Prop where
  roots : g.Matches g' φ root root'
  inj : Set.InjOn φ (g.live root)
  alike : ∀ {a d}, a ∈ g.live root → g.get? a = some d → ∃ d', g'.get? (φ a) = some d' ∧
    d.Alike (fun e e' => g.Matches g' φ e.target e'.target) d'

/-! ## Types that are reached -/

variable {g g' : TypeGraph} {φ : TypeId → TypeId} {root root' a b : TypeId} {d : Descriptor} {e : Edge}

theorem mem_live_iff : a ∈ g.live root ↔ a ∈ g.reached root ∧ ∃ d, g.get? a = some d := by
  rw [live, Set.mem_ofPred_eq, Option.isSome_iff_exists]

/-- Where an edge leads from a type that is reached, that is reached too. -/
theorem target_reached (ha : a ∈ g.reached root) (hget : g.get? a = some d) (he : e ∈ d.shape.edges) :
    e.target ∈ g.reached root := ReflTransGen.tail ha ⟨d, hget, e, he, rfl⟩

/-- A type that is reached and matches another is live and renamed to it, or both are gone. -/
theorem Matches.live_or_gone (h : g.Matches g' φ a b) (ha : a ∈ g.reached root) :
    a ∈ g.live root ∧ φ a = b ∨ g.get? a = none ∧ g'.get? b = none :=
  h.imp_left fun ⟨hsome, _, heq⟩ => ⟨⟨ha, hsome⟩, heq⟩

namespace Renamed

/-- The renaming of live types, where errors tell gone descriptions not apart. -/
def toRenaming (h : g.Renamed g' root root' φ) : Renaming g g' where
  Rel a b := a ∈ g.live root ∧ φ a = b
  mask _ := 0
  inj := by
    rintro a _ b _ ⟨ha, rfl⟩ ⟨hb, rfl⟩
    exact ⟨fun h => h ▸ rfl, fun heq => h.inj ha hb heq⟩
  alike := by
    rintro a _ ⟨ha, rfl⟩
    obtain ⟨hreach, d, hget⟩ := mem_live_iff.mp ha
    obtain ⟨d', hget', halike⟩ := h.alike ha hget
    refine ⟨d, d', hget, hget', halike.name, halike.origin, halike.doc, halike.shape.imp_of_mem fun he hmatch => ?_⟩
    exact (hmatch.live_or_gone (target_reached hreach hget he)).imp_right fun ⟨h, h'⟩ => ⟨h, h', rfl⟩

theorem near_root (h : g.Renamed g' root root' φ) : h.toRenaming.Near root root' :=
  (h.roots.live_or_gone .refl).imp_right fun ⟨h, h'⟩ => ⟨h, h', rfl⟩

end Renamed

/-- A type that is reached is live, or gone in the other graph too. -/
theorem live_or_gone (h : ∀ a ∈ g.reached root, g'.get? a = g.get? a) (ha : a ∈ g.reached root) :
    a ∈ g.live root ∨ g.get? a = none ∧ g'.get? a = none := by
  cases hd : g.get? a with
  | none => exact .inr ⟨rfl, (h a ha).trans hd⟩
  | some d => exact .inl (mem_live_iff.mpr ⟨ha, d, hd⟩)

/-- Live types stay themselves in a graph with the same descriptions of the types reached. -/
def renamingOfReached (h : ∀ a ∈ g.reached root, g'.get? a = g.get? a) : Renaming g g' where
  Rel a b := a ∈ g.live root ∧ a = b
  mask a := a
  inj := by
    rintro a _ b _ ⟨-, rfl⟩ ⟨-, rfl⟩
    exact .rfl
  alike := by
    rintro a _ ⟨ha, rfl⟩
    obtain ⟨hreach, d, hget⟩ := mem_live_iff.mp ha
    refine ⟨d, d, hget, (h a hreach).trans hget, rfl, rfl, rfl, Shape.alike_self fun e he => ?_⟩
    exact (live_or_gone h (target_reached hreach hget he)).imp (⟨·, rfl⟩) fun ⟨h, h'⟩ => ⟨h, h', rfl⟩

theorem near_self (h : ∀ a ∈ g.reached root, g'.get? a = g.get? a) : (renamingOfReached h).Near root root :=
  (live_or_gone h .refl).imp (⟨·, rfl⟩) fun ⟨h, h'⟩ => ⟨h, h', rfl⟩

end TypeGraph

/-! ## Answers -/

/-- The same text, or errors that are the same once the identity of a description that is gone is left out: so are the
messages with any one address in its place. -/
inductive SameAnswer : Except SchemaError String → Except SchemaError String → Prop
  | text (s : String) : SameAnswer (.ok s) (.ok s)
  | error {e e' : SchemaError} : e.masked (fun _ => 0) = e'.masked (fun _ => 0) →
      (∀ address, e.message (fun _ => address) = e'.message fun _ => address) → SameAnswer (.error e) (.error e')

theorem SameAnswer.of_masked {r r' : Except SchemaError String}
    (h : r.mapError (SchemaError.masked fun _ => 0) = r'.mapError (SchemaError.masked fun _ => 0)) :
    SameAnswer r r' := by
  match r, r', h with
  | .ok s, .ok _, h =>
    cases Except.ok.inj h
    exact .text s
  | .error e, .error e', h =>
    have he := Except.error.inj h
    refine .error he fun address => ?_
    rw [← e.message_masked (fun _ => 0) fun _ => address, he, e'.message_masked]

section Compile

variable {t : RuleTable} (ht : t.OfLibrary) (ns : Option String) (o : Options)
include ht

/-- New compilers answer for near types alike. -/
theorem compile_near {g g' : TypeGraph} {ρ : Renaming g g'} {root root' : TypeId} (h : ρ.Near root root') :
    (({ table := t } : Compiler).compile g root ns o).1.mapError (SchemaError.masked ρ.mask) =
      (({ table := t } : Compiler).compile g' root' ns o).1.mapError (SchemaError.masked ρ.mask) := by
  have hschema := @derive_alike (.of g o ns) g' ρ t ht root root' h
  have htext (g : TypeGraph) (root : TypeId) :
      (({ table := t } : Compiler).compile g root ns o).1.mapError (SchemaError.masked ρ.mask) =
        ((t.derive (.of g o ns) root).mapError (SchemaError.masked ρ.mask)).map fun s => s.render o.output := by
    have hfresh : (({ table := t } : Compiler).compile g root ns o).1 = ({ table := t } : Compiler).text g root ns o :=
      Compiler.compile_fresh t ⟨g, root, ns, o⟩
    rw [hfresh, Compiler.text, Compiler.schema]
    cases t.derive (.of g o ns) root <;> rfl
  rw [htext, htext, hschema]
  rfl

/-- A new compiler gives the same answer if the same is reached, whatever else is described. -/
theorem compile_of_reached {g g' : TypeGraph} {root : TypeId} (h : ∀ a ∈ g.reached root, g'.get? a = g.get? a) :
    (({ table := t } : Compiler).compile g' root ns o).1 = (({ table := t } : Compiler).compile g root ns o).1 := by
  have hmasked := compile_near ht ns o (TypeGraph.near_self h)
  have hid (r : Except SchemaError String) : r.mapError (SchemaError.masked fun a => a) = r := by
    cases r with
    | ok s => rfl
    | error e => exact congrArg Except.error e.masked_id
  rw [← hid (Compiler.compile _ g' root ns o).1, ← hid (Compiler.compile _ g root ns o).1]
  exact hmasked.symm

end Compile

/-- **An answer depends only on what the descriptions that are reached say.** A new compiler with rules of the library
answers for roots from which the same is reached under other identities with the same text, or with errors that differ
in the identity of a description that is gone. If the same is reached under the same identities, its answers are equal,
whatever else is described. -/
theorem answer_of_reached {t : RuleTable} (ht : t.OfLibrary) (g : TypeGraph) (root : TypeId) (ns : Option String)
    (o : Options) :
    (∀ g' root' φ, g.Renamed g' root root' φ → SameAnswer (({ table := t } : Compiler).compile g root ns o).1
      (({ table := t } : Compiler).compile g' root' ns o).1) ∧
    ∀ g', (∀ a ∈ g.reached root, g'.get? a = g.get? a) →
      (({ table := t } : Compiler).compile g' root ns o).1 = (({ table := t } : Compiler).compile g root ns o).1 := by
  exact ⟨fun g' root' φ h => .of_masked (compile_near ht ns o h.near_root), fun g' h => compile_of_reached ht ns o h⟩

/-! ## Parts of a machine -/

/-- Parts of a machine, each with the next one if there is one. -/
def machine : TypeGraph :=
  ⟨#[
    some { name := "Part", shape := .record [
      { name := "weight", type := { target := 1, weak := true }, default := some (.int 1) },
      { name := "next", type := { target := 2 }, default := some .null }] },
    some { name := "int", shape := .basic .integer },
    some { name := "Optional", shape := .union [{ target := 0, weak := true }, { target := 3 }] },
    some { name := "None", shape := .basic .null }]⟩

/-- The parts in other places, beside types that they do not need; edges that were weak are strong and the reverse. -/
def machineElsewhere : TypeGraph :=
  ⟨#[
    some { name := "None", shape := .basic .null },
    some { name := "Optional", shape := .union [{ target := 3, weak := true }, { target := 0, weak := true }] },
    some { name := "int", shape := .basic .integer },
    some { name := "Part", shape := .record [
      { name := "weight", type := { target := 2 }, default := some (.int 1) },
      { name := "next", type := { target := 1 }, default := some .null }] },
    some { name := "List", shape := .sequence { target := 3 } }]⟩

theorem lt_of_get?_machine {a : Nat} {d : Descriptor} (h : machine.get? a = some d) : a < 4 := by
  by_contra hge
  have hnone : machine.get? a = none := by
    rw [TypeGraph.get?, Array.getElem?_eq_none (by simpa [machine] using hge)]
    rfl
  cases hnone.symm.trans h

theorem renamed_machine : machine.Renamed machineElsewhere 0 3 (3 - ·) where
  roots := .inl ⟨rfl, rfl, rfl⟩
  inj := by
    intro (a : Nat) ha (b : Nat) hb (hab : 3 - a = 3 - b)
    obtain ⟨-, _, hget⟩ := TypeGraph.mem_live_iff.mp ha
    obtain ⟨-, _, hget'⟩ := TypeGraph.mem_live_iff.mp hb
    have ha := lt_of_get?_machine hget
    have hb := lt_of_get?_machine hget'
    exact show a = b by omega
  alike := by
    intro a d _ hget
    have hlive {a b : TypeId} (h : (machine.get? a).isSome) (h' : (machineElsewhere.get? b).isSome) (hab : 3 - a = b) :
        machine.Matches machineElsewhere (3 - ·) a b := .inl ⟨h, h', hab⟩
    match a, lt_of_get?_machine hget, hget with
    | 0, _, rfl =>
      refine ⟨_, rfl, rfl, rfl, rfl, .record (.cons ⟨rfl, ?_, rfl, rfl, rfl⟩ (.cons ⟨rfl, ?_, rfl, rfl, rfl⟩ .nil))⟩
      · exact hlive rfl rfl rfl
      · exact hlive rfl rfl rfl
    | 1, _, rfl => exact ⟨_, rfl, rfl, rfl, rfl, .basic⟩
    | 2, _, rfl => exact ⟨_, rfl, rfl, rfl, rfl, .union (.cons (hlive rfl rfl rfl) (.cons (hlive rfl rfl rfl) .nil))⟩
    | 3, _, rfl => exact ⟨_, rfl, rfl, rfl, rfl, .basic⟩

/-- The machine and a type that its parts do not need. -/
def machineStocked : TypeGraph := (machine.insert { name := "Any", shape := .basic .any }).2

theorem lt_of_reached_machine {a : Nat} (ha : a ∈ machine.reached 0) : a < 4 := by
  induction ha with
  | refl => decide
  | tail _ hjoins ih =>
    obtain ⟨d, hget, e, he, rfl⟩ := hjoins
    have hall : ∀ a < 4, ∀ d ∈ machine.get? a, ∀ e ∈ d.shape.edges, e.target < 4 := by decide
    exact hall _ ih d hget e he

theorem same_reached_machine : ∀ a ∈ machine.reached 0, machineStocked.get? a = machine.get? a := by
  intro a ha
  match a, lt_of_reached_machine ha with
  | 0, _ | 1, _ | 2, _ | 3, _ => rfl

/-- The parts have the same schema wherever they are, and whatever is beside them. -/
theorem same_answer_machine : RuleTable.standard.OfLibrary ∧ machine.Renamed machineElsewhere 0 3 (3 - ·) ∧
    (∀ a ∈ machine.reached 0, machineStocked.get? a = machine.get? a) ∧
    SameAnswer (({} : Compiler).compile machine 0 none {}).1 (({} : Compiler).compile machineElsewhere 3 none {}).1 ∧
    (({} : Compiler).compile machineStocked 0 none {}).1 = (({} : Compiler).compile machine 0 none {}).1 := by
  have h := answer_of_reached RuleTable.ofLibrary_standard machine 0 none {}
  exact ⟨RuleTable.ofLibrary_standard, renamed_machine, same_reached_machine, h.1 _ _ _ renamed_machine,
    h.2 _ same_reached_machine⟩

end Avro
