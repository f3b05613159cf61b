import Avro.Proofs.Cache.Compilations
import Avro.Proofs.Renaming.Compilation

/-!
# Whether a cache is seen

A cache is not seen in the answers to requests, but for the first document of each key, which stays
(`Cache.transparent`). In those of compilations it is not seen as long as calls with one key reach the same types
(`compileAll_of_reached`). It is seen once the target of a weak edge is gone (`gone_after_compile`).
-/

namespace Avro

namespace Compiler

variable {t : RuleTable} {qs : List Call}

/-- The text of a call depends on the types that are reached only. -/
theorem Call.text_of_reached (ht : t.OfLibrary) {p q : Call} (hkey : p.key = q.key)
    (h : ∀ a ∈ p.graph.reached p.type, q.graph.get? a = p.graph.get? a) : p.text t = q.text t := by
  have hsame : p.text t = ({ p with graph := q.graph } : Call).text t := by
    rw [← compile_fresh, ← compile_fresh]
    exact (compile_of_reached ht p.ns p.options h).symm
  rw [hsame]
  exact text_congr hkey rfl

/-- Calls with one key that find the same types get what they get without a cache. -/
theorem compileAll_of_graph (h : qs.Pairwise fun p q => p.key = q.key → p.graph = q.graph) :
    compileAll { table := t } qs = qs.map (·.text t) :=
  compileAll_of_pairwise (h.imp fun hgraph hkey => Call.text_congr hkey (hgraph hkey))

/-- So do calls of which those with one key reach the same types, if the rules are those of the library. -/
theorem compileAll_of_reached (ht : t.OfLibrary) (h : qs.Pairwise fun p q => p.key = q.key →
    ∀ a ∈ p.graph.reached p.type, q.graph.get? a = p.graph.get? a) :
    compileAll { table := t } qs = qs.map (·.text t) :=
  compileAll_of_pairwise (h.imp fun {p q} hreached (hkey : p.key = q.key) => Call.text_of_reached ht hkey (hreached hkey))

end Compiler

/-- **A cache is seen in its answers only where what was built first is not what would be built now.** Any requests to a
fresh cache, one after the other, are answered with the first document that was built for their key, or else with what
they build; failures and looking leave no trace, keys do not interfere, and the counts are those of the successes. A
compiler that shares its cache answers each call with the first document that was built for the key of the call, or else
with what it gives without the cache. So its answers to calls are those without the cache just if each key that has a
document is compiled to it again, and they are as long as calls with one key find the same types, of which only those that
are reached count for the rules of the library. -/
theorem caching_is_transparent :
    (∀ (ε δ : Type) (rs : List (Cache.Request ε δ)), Cache.Transparent rs) ∧
    (∀ (type type' : TypeId) (ns ns' : Option String) (o o' : Options),
      CacheKey.of type ns o = CacheKey.of type' ns' o' ↔
        type = type' ∧ o = o' ∧ (ns = ns' ∨ (ns = none ∨ ns = some "") ∧ (ns' = none ∨ ns' = some ""))) ∧
    (∀ (t : RuleTable) (ss : List Compiler.Step) (q : Compiler.Call),
      ((Compiler.after { table := t } ss).compile q.graph q.type q.ns q.options).1 =
        (Compiler.firstBuilt t q.key ss).elim (q.text t) .ok) ∧
    (∀ (t : RuleTable) (qs : List Compiler.Call),
      Compiler.compileAll { table := t } qs = qs.map (·.text t) ↔ ∀ (before : List Compiler.Call) (q : Compiler.Call),
        before ++ [q] <+: qs → ∀ d, Compiler.firstBuilt t q.key (before.map .compile) = some d → q.text t = .ok d) ∧
    (∀ (t : RuleTable) (qs : List Compiler.Call), (qs.Pairwise fun p q => p.key = q.key → p.graph = q.graph) →
      Compiler.compileAll { table := t } qs = qs.map (·.text t)) ∧
    ∀ (t : RuleTable) (qs : List Compiler.Call), t.OfLibrary → (qs.Pairwise fun p q => p.key = q.key →
        ∀ a ∈ p.graph.reached p.type, q.graph.get? a = p.graph.get? a) →
      Compiler.compileAll { table := t } qs = qs.map (·.text t) :=
  ⟨fun _ _ => Cache.transparent, fun _ _ _ _ _ _ => CacheKey.of_eq_of_iff, Compiler.compile_after,
    Compiler.compileAll_iff, fun _ _ => Compiler.compileAll_of_graph, fun _ _ => Compiler.compileAll_of_reached⟩

/-! ## A target that is gone -/

/-- An optional integer, where the union does not keep the integer. -/
def weakOptional : TypeGraph :=
  ⟨#[
    some { name := "Union", shape := .union [{ target := 1, weak := true }, { target := 2 }] },
    some { name := "int", shape := .basic .integer },
    some { name := "None", shape := .basic .null }]⟩

/-- The same when the integer is gone. -/
def integerGone : TypeGraph := ⟨weakOptional.places.set! 1 none⟩

/-- From null no other type is reached. -/
theorem same_reached_integerGone : ∀ a ∈ weakOptional.reached 2, integerGone.get? a = weakOptional.get? a := by
  intro a ha
  have htwo : a = 2 := by
    induction ha with
    | refl => rfl
    | tail _ hjoins ih =>
      obtain ⟨d, hget, e, he, -⟩ := hjoins
      subst ih
      have hnone : ∀ d ∈ weakOptional.get? 2, d.shape.edges = [] := by decide
      rw [hnone d hget] at he
      cases he
  rw [htwo]
  rfl

/-- A part of a machine and null are compiled, both again when there is a type more for the one, no namespace given in
another way, and a type less for the other. -/
theorem compileAll_machine :
    Compiler.compileAll {} [⟨machine, 0, none, {}⟩, ⟨weakOptional, 2, none, {}⟩, ⟨machineStocked, 0, some "", {}⟩,
      ⟨integerGone, 2, none, {}⟩] =
    [(⟨machine, 0, none, {}⟩ : Compiler.Call).text .standard, .ok "\"null\"",
      (⟨machineStocked, 0, some "", {}⟩ : Compiler.Call).text .standard, .ok "\"null\""] := by
  obtain ⟨-, -, -, -, -, hsame⟩ := caching_is_transparent
  have hnull : (⟨weakOptional, 2, none, {}⟩ : Compiler.Call).text .standard = .ok "\"null\"" := by cbv
  have hnull' : (⟨integerGone, 2, none, {}⟩ : Compiler.Call).text .standard = .ok "\"null\"" := by cbv
  rw [hsame .standard _ RuleTable.ofLibrary_standard, List.map_cons, List.map_cons, List.map_cons, List.map_cons, hnull,
    hnull', List.map_nil]
  refine .cons ?_ (.cons ?_ (.cons ?_ (.cons (by simp) .nil)))
  · simpa [Compiler.Call.key, CacheKey.of] using fun _ => same_reached_machine
  · simpa [Compiler.Call.key, CacheKey.of] using same_reached_integerGone
  · simp [Compiler.Call.key, CacheKey.of]

/-- Keeps a document of its own under the key of the integer. -/
def putOther : Cache.Request String String := .getOrBuild 1 none {} fun _ => .ok "other"

/-- A type is compiled, an integer that it does not keep is gone, and the type is compiled again. And a document is kept
under a key before the key is compiled. -/
theorem gone_after_compile :
    Compiler.compileAll {} [⟨weakOptional, 0, none, {}⟩, ⟨integerGone, 0, none, {}⟩] =
      [.ok "[\"long\",\"null\"]", .ok "[\"long\",\"null\"]"] ∧
    (⟨integerGone, 0, none, {}⟩ : Compiler.Call).text .standard = .error (.type (.gone 1)) ∧
    ((Compiler.after {} [.ask putOther]).compile weakOptional 1 none {}).1 = .ok "other" ∧
    (⟨weakOptional, 1, none, {}⟩ : Compiler.Call).text .standard = .ok "\"long\"" ∧
    ¬ ∀ (t : RuleTable) (qs : List Compiler.Call), Compiler.compileAll { table := t } qs = qs.map (·.text t) := by
  have hrun : Compiler.compileAll {} [⟨weakOptional, 0, none, {}⟩, ⟨integerGone, 0, none, {}⟩] =
      [.ok "[\"long\",\"null\"]", .ok "[\"long\",\"null\"]"] := by cbv
  have hgone : (⟨integerGone, 0, none, {}⟩ : Compiler.Call).text .standard = .error (.type (.gone 1)) := by cbv
  refine ⟨hrun, hgone, by cbv, by cbv, fun h => ?_⟩
  have hsame := h .standard [⟨weakOptional, 0, none, {}⟩, ⟨integerGone, 0, none, {}⟩]
  rw [hrun, List.map_cons, List.map_cons, hgone] at hsame
  simp at hsame

end Avro
