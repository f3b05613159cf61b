import Avro.Compiler
import Avro.Proofs.Cache.Requests

/-!
# Compilations with a cache

A compilation is a request to the cache of the compiler, for the text that the compiler gives without it
(`compile_serve`). So after any compilations, and any requests to the cache that is shared with others, a compilation is
answered with the first document that was built for its key, or else with its own text (`compile_after`).

The key of a compilation is its type, its options and its namespace. The text also depends on the types as they are at
the time. So the answers of several compilations are their own texts if and only if each key that has a document is
compiled to it again (`compileAll_iff`).
-/

namespace Avro

/-- Two compilations have one key if they agree in all but how they say that no namespace is given. -/
theorem CacheKey.of_eq_of_iff {type type' : TypeId} {ns ns' : Option String} {o o' : Options} :
    CacheKey.of type ns o = CacheKey.of type' ns' o' ↔
      type = type' ∧ o = o' ∧ (ns = ns' ∨ (ns = none ∨ ns = some "") ∧ (ns' = none ∨ ns' = some "")) := by
  have hnone (n : Option String) : Name.nonempty? n = none ↔ n = none ∨ n = some "" := by
    cases n with
    | none => simp [Name.nonempty?]
    | some s => by_cases hs : s = "" <;> simp [Name.nonempty?, hs]
  have hsome {n : Option String} {s : String} (h : Name.nonempty? n = some s) : n = some s := by
    cases n with
    | none => simp [Name.nonempty?] at h
    | some t =>
      simp only [Name.nonempty?] at h
      split at h
      · cases h
      · exact h
  have hns : Name.nonempty? ns = Name.nonempty? ns' ↔
      ns = ns' ∨ (ns = none ∨ ns = some "") ∧ (ns' = none ∨ ns' = some "") := by
    rw [← hnone ns, ← hnone ns']
    constructor
    · intro h
      cases hn : Name.nonempty? ns with
      | none => exact .inr ⟨rfl, h ▸ hn⟩
      | some s => exact .inl ((hsome hn).trans (hsome (h ▸ hn)).symm)
    · rintro (rfl | ⟨h, h'⟩)
      · rfl
      · rw [h, h']
  simp only [CacheKey.of, CacheKey.mk.injEq, hns]

namespace Compiler

/-- The arguments of a compilation, with the types as they are at the time. -/
structure Call where
  graph : TypeGraph
  type : TypeId
  ns : Option String := none
  options : Options := {}

namespace Call

def key (q : Call) : CacheKey := .of q.type q.ns q.options

/-- What the compilation gives without a cache. -/
def text (t : RuleTable) (q : Call) : Except SchemaError String :=
  ({ table := t } : Compiler).text q.graph q.type q.ns q.options

/-- The compilation as a request to a cache. -/
def request (t : RuleTable) (q : Call) : Cache.Request SchemaError String :=
  .getOrBuild q.type q.ns q.options fun _ => q.text t

/-- Compilations with one key are one compilation if the types are the same. -/
theorem text_congr {t : RuleTable} {p q : Call} (hkey : p.key = q.key) (hgraph : p.graph = q.graph) :
    p.text t = q.text t := by
  obtain ⟨htype, hoptions, hns⟩ := CacheKey.mk.inj hkey
  rw [text, text, Compiler.text, Compiler.text, schema, schema, Setting.of, Setting.of, htype, hoptions, hns, hgraph]

theorem builds_eq_some {t : RuleTable} {q : Call} {key : CacheKey} {d : String} :
    (q.request t).builds key = some d ↔ q.key = key ∧ q.text t = .ok d := by
  have hdocument : (q.request t).document? = some d ↔ q.text t = .ok d := by
    simp only [request, Cache.Request.document?]
    cases q.text t <;> simp [Except.toOption]
  have hkey : (q.request t).key = q.key := rfl
  rw [← hdocument, Cache.Request.builds, hkey]
  split <;> simp [*]

end Call

/-- What is asked of a compiler: a compilation, or something of its cache. -/
inductive Step : Type 1 where
  | compile (q : Call)
  | ask {ε : Type} (r : Cache.Request ε String)

/-- The document that a step builds for a key. -/
def Step.builds (t : RuleTable) (key : CacheKey) : Step → Option String
  | compile q => (q.request t).builds key
  | ask r => r.builds key

/-- The output of the first build for a key that succeeds. -/
def firstBuilt (t : RuleTable) (key : CacheKey) (ss : List Step) : Option String := ss.findSome? (·.builds t key)

/-- The compiler after a step. -/
def take (c : Compiler) : Step → Compiler
  | .compile q => (c.compile q.graph q.type q.ns q.options).2
  | .ask r => { c with cache := (c.cache.serve r).2 }

/-- The compiler after steps. -/
def after (c : Compiler) (ss : List Step) : Compiler := ss.foldl take c

/-- The results of compilations with the cache, one after the other. -/
def compileAll : Compiler → List Call → List (Except SchemaError String)
  | _, [] => []
  | c, q :: qs =>
    let (r, c) := c.compile q.graph q.type q.ns q.options
    r :: compileAll c qs

/-! ## One compilation -/

variable {c : Compiler} {t : RuleTable}

/-- A compilation is a request to the cache. -/
theorem compile_serve (c : Compiler) (q : Call) :
    c.compile q.graph q.type q.ns q.options =
      ((c.cache.get? q.key).elim (q.text c.table) .ok, { c with cache := (c.cache.serve (q.request c.table)).2 }) := by
  have hanswer := Cache.answer_eq c.cache (q.request c.table)
  simp only [Call.request, Cache.serve, Cache.Answer.built.injEq] at hanswer
  exact Prod.ext hanswer rfl

/-- A compiler that has not compiled anything gives the text. -/
theorem compile_fresh (t : RuleTable) (q : Call) :
    (({ table := t } : Compiler).compile q.graph q.type q.ns q.options).1 = q.text t := by
  rw [compile_serve]
  rfl

theorem table_take (c : Compiler) (s : Step) : (c.take s).table = c.table := by
  cases s <;> rfl

/-- A step leaves what is there and adds what it builds. -/
theorem get?_take (c : Compiler) (s : Step) (key : CacheKey) :
    (c.take s).cache.get? key = (c.cache.get? key).or (s.builds c.table key) := by
  cases s with
  | compile q =>
    rw [take, compile_serve]
    exact Cache.get?_serve c.cache (q.request c.table) key
  | ask r => exact Cache.get?_serve c.cache r key

/-! ## Runs -/

theorem firstBuilt_cons (t : RuleTable) (key : CacheKey) (s : Step) (ss : List Step) :
    firstBuilt t key (s :: ss) = (s.builds t key).or (firstBuilt t key ss) := by
  rw [firstBuilt, List.findSome?_cons]
  cases s.builds t key <;> rfl

/-- What the cache holds after steps is what it held, or else what was built first. -/
theorem get?_after (c : Compiler) (ss : List Step) (key : CacheKey) :
    (c.after ss).cache.get? key = (c.cache.get? key).or (firstBuilt c.table key ss) ∧ (c.after ss).table = c.table := by
  induction ss generalizing c with
  | nil => simp [after, firstBuilt]
  | cons s ss ih =>
    obtain ⟨hget, htable⟩ := ih (c.take s)
    rw [get?_take, table_take, Option.or_assoc, ← firstBuilt_cons] at hget
    exact ⟨hget, htable.trans (table_take c s)⟩

/-- **A compilation is answered with the first document that was built for its key**, or else with its own text. -/
theorem compile_after (t : RuleTable) (ss : List Step) (q : Call) :
    ((after { table := t } ss).compile q.graph q.type q.ns q.options).1 =
      (firstBuilt t q.key ss).elim (q.text t) .ok := by
  obtain ⟨hget, htable⟩ := get?_after { table := t } ss q.key
  rw [compile_serve, hget, htable, Cache.get?_fresh, Option.none_or]

/-- The answers are the texts just if each key that has a document is compiled to it again. -/
theorem compileAll_eq_map (c : Compiler) (qs : List Call) :
    compileAll c qs = qs.map (·.text c.table) ↔ ∀ (before : List Call) (q : Call), before ++ [q] <+: qs → ∀ d,
      (c.cache.get? q.key).or (firstBuilt c.table q.key (before.map .compile)) = some d → q.text c.table = .ok d := by
  induction qs generalizing c with
  | nil => simp [compileAll]
  | cons p qs ih =>
    have hhead : (c.cache.get? p.key).elim (p.text c.table) Except.ok = p.text c.table ↔
        ∀ d, c.cache.get? p.key = some d → p.text c.table = .ok d := by
      cases c.cache.get? p.key <;> simp [eq_comm]
    have htail := ih (c.take (.compile p))
    simp only [get?_take, table_take, Option.or_assoc, ← firstBuilt_cons] at htail
    have hcons : compileAll c (p :: qs) =
        (c.cache.get? p.key).elim (p.text c.table) .ok :: compileAll (c.take (.compile p)) qs := by
      rw [compileAll, take, compile_serve]
    rw [hcons, List.map_cons, List.cons.injEq, hhead, htail]
    constructor
    · rintro ⟨hfirst, hrest⟩ before q hq d hd
      cases before with
      | nil =>
        obtain rfl : q = p := by simpa using hq
        exact hfirst d (by simpa [firstBuilt] using hd)
      | cons b before =>
        obtain ⟨rfl, hq'⟩ := List.cons_prefix_cons.mp hq
        exact hrest before q hq' d hd
    · intro h
      refine ⟨fun d hd => h [] p (by simp) d (by simp [hd]), fun before q hq d hd => ?_⟩
      exact h (p :: before) q (List.cons_prefix_cons.mpr ⟨rfl, hq⟩) d hd

/-- **The cache is not seen in the answers just if each key that has a document is compiled to it again.** -/
theorem compileAll_iff (t : RuleTable) (qs : List Call) :
    compileAll { table := t } qs = qs.map (·.text t) ↔ ∀ (before : List Call) (q : Call),
      before ++ [q] <+: qs → ∀ d, firstBuilt t q.key (before.map .compile) = some d → q.text t = .ok d := by
  simpa only [Cache.get?_fresh, Option.none_or] using compileAll_eq_map { table := t } qs

/-- So they are if no call whose key was compiled before would give another document. -/
theorem compileAll_of_pairwise {t : RuleTable} {qs : List Call}
    (h : qs.Pairwise fun p q => p.key = q.key → p.text t = q.text t) :
    compileAll { table := t } qs = qs.map (·.text t) := by
  refine (compileAll_iff t qs).mpr fun before q hq d hd => ?_
  obtain ⟨s, hs, hbuilds⟩ := List.exists_of_findSome?_eq_some hd
  obtain ⟨p, hp, rfl⟩ := List.mem_map.mp hs
  obtain ⟨hkey, htext⟩ := Call.builds_eq_some.mp hbuilds
  obtain ⟨-, -, hall⟩ := List.pairwise_append.mp (h.sublist hq.sublist)
  rw [← hall p hp q List.mem_cons_self hkey, htext]

end Compiler
end Avro
