import Avro.Compiler
import Mathlib

/-!
# Runs of a cache

A cache serves requests one after the other. What it holds after any run is what the requests say: the document of a key
is the first one that was built for it (`get?_after`), and a request is answered with it, or else with what it builds
itself (`answer_eq`). Requests for one key have no part in those for another (`trace_filter`), and the counts are those
of the requests up to the greatest count (`Counted`).
-/

namespace Avro
namespace Cache

variable {ε δ : Type}

/-- A request to a cache: for the document that is there, or for one that is built if there is none. -/
inductive Request (ε δ : Type) where
  | get (type : TypeId) (ns : Option String) (options : Options)
  | getOrBuild (type : TypeId) (ns : Option String) (options : Options) (build : Unit → Except ε δ)

/-- What a cache answers to a request. -/
inductive Answer (ε δ : Type) where
  | found (document : Option δ)
  | built (result : Except ε δ)

namespace Request

/-- The key that a request is for. -/
def key : Request ε δ → CacheKey
  | get type ns options | getOrBuild type ns options _ => .of type ns options

/-- What the build of a request gives, if there is one and it succeeds. -/
def document? : Request ε δ → Option δ
  | get .. => none
  | getOrBuild _ _ _ build => (build ()).toOption

/-- The document that a request builds for a key. -/
def builds (key : CacheKey) (r : Request ε δ) : Option δ := if r.key = key then r.document? else none

theorem builds_self (r : Request ε δ) : r.builds r.key = r.document? := if_pos rfl

theorem builds_of_ne {key : CacheKey} {r : Request ε δ} (h : r.key ≠ key) : r.builds key = none := if_neg h

end Request

/-- Whether an answer is the success of a request that builds. -/
def Answer.isDocument : Answer ε δ → Bool
  | found _ => false
  | built result => result.isOk

/-- The output of the first build for a key that succeeds. -/
def firstBuilt (key : CacheKey) (rs : List (Request ε δ)) : Option δ := rs.findSome? (·.builds key)

/-- Answers one request. -/
def serve (c : Cache δ) : Request ε δ → Answer ε δ × Cache δ
  | .get type ns options => (.found (c.get? (.of type ns options)), c)
  | .getOrBuild type ns options build =>
    let (result, c) := c.getOrBuild (.of type ns options) build
    (.built result, c)

/-- The cache after requests. -/
def after (c : Cache δ) (rs : List (Request ε δ)) : Cache δ := rs.foldl (fun c r => (c.serve r).2) c

/-- Requests with the answers that they get one after the other. -/
def trace : Cache δ → List (Request ε δ) → List (Request ε δ × Answer ε δ)
  | _, [] => []
  | c, r :: rs => (r, (c.serve r).1) :: trace (c.serve r).2 rs

/-- The number of requests that were answered with a document that they could build. -/
def successes (c : Cache δ) (rs : List (Request ε δ)) : Nat := (c.trace rs).countP (·.2.isDocument)

/-! ## One request -/

variable {c : Cache δ} {r : Request ε δ} {key : CacheKey}

theorem get?_mk (entries : List (CacheKey × δ)) (hits misses : UInt64) :
    get? ⟨entries, hits, misses⟩ key = (entries.find? (·.1 == key)).map Prod.snd := rfl

/-- What is kept is found, unless something stood under its key. -/
theorem get?_append (entries : List (CacheKey × δ)) (hits misses hits' misses' : UInt64) (k : CacheKey) (d : δ) :
    get? ⟨entries ++ [(k, d)], hits, misses⟩ key =
      (get? ⟨entries, hits', misses'⟩ key).or (if k = key then some d else none) := by
  by_cases hk : k = key <;> cases hf : entries.find? (·.1 == key) <;>
    simp [get?_mk, List.find?_append, hk, hf]

/-- A request is answered with the document of its key, or else with what it builds. -/
theorem answer_eq (c : Cache δ) (r : Request ε δ) :
    (c.serve r).1 = match r with
      | .get .. => .found (c.get? r.key)
      | .getOrBuild _ _ _ build => .built ((c.get? r.key).elim (build ()) .ok) := by
  cases r with
  | get type ns options => rfl
  | getOrBuild type ns options build =>
    simp only [serve, getOrBuild, Request.key]
    split
    · simp [*]
    · split <;> simp [*]

/-- All that a request does to a cache: nothing, or a hit is counted, or a document is kept under a new key. -/
theorem serve_cases (c : Cache δ) (r : Request ε δ) :
    ((c.serve r).2 = c ∧ (c.serve r).1.isDocument = false ∧ (c.get? r.key = none → r.document? = none)) ∨
    ((c.serve r).2 = { c with hits := countUp c.hits } ∧ (c.serve r).1.isDocument = true ∧ (c.get? r.key).isSome) ∨
    (∃ d, r.document? = some d ∧ c.get? r.key = none ∧ (c.serve r).1.isDocument = true ∧
      (c.serve r).2 = { c with entries := c.entries ++ [(r.key, d)], misses := countUp c.misses }) := by
  cases r with
  | get type ns options => exact .inl ⟨rfl, rfl, fun _ => rfl⟩
  | getOrBuild type ns options build =>
    simp only [serve, getOrBuild, Request.key, Request.document?]
    cases hc : c.get? (.of type ns options) with
    | some d => exact .inr (.inl ⟨rfl, rfl, rfl⟩)
    | none =>
      cases hb : build () with
      | ok d => exact .inr (.inr ⟨d, rfl, rfl, rfl, rfl⟩)
      | error e => exact .inl ⟨rfl, rfl, fun _ => rfl⟩

/-- A request leaves what is there and adds what it builds for its own key. -/
theorem get?_serve (c : Cache δ) (r : Request ε δ) (key : CacheKey) :
    (c.serve r).2.get? key = (c.get? key).or (r.builds key) := by
  obtain ⟨hs, -, hd⟩ | ⟨hs, -, hd⟩ | ⟨d, hd, hn, -, hs⟩ := serve_cases c r
  · rw [hs]
    by_cases hk : r.key = key
    · subst hk
      cases hc : c.get? r.key <;> simp [Request.builds_self, hd, hc]
    · simp [Request.builds_of_ne hk]
  · rw [hs, get?_mk]
    by_cases hk : r.key = key
    · subst hk
      obtain ⟨d, hd⟩ := Option.isSome_iff_exists.mp hd
      rw [hd, Option.some_or]
      exact hd
    · rw [Request.builds_of_ne hk, Option.or_none]
      rfl
  · rw [hs, get?_append c.entries _ _ c.hits c.misses, Request.builds, hd]

/-! ## Runs -/

variable {rs : List (Request ε δ)}

@[simp] theorem after_nil (c : Cache δ) : c.after ([] : List (Request ε δ)) = c := rfl

@[simp] theorem after_cons (c : Cache δ) (r : Request ε δ) (rs : List (Request ε δ)) :
    c.after (r :: rs) = (c.serve r).2.after rs := rfl

theorem after_append (c : Cache δ) (rs more : List (Request ε δ)) : c.after (rs ++ more) = (c.after rs).after more :=
  List.foldl_append

/-- What a cache holds after requests is what it held, or else what was built first. -/
theorem get?_after (c : Cache δ) (rs : List (Request ε δ)) (key : CacheKey) :
    (c.after rs).get? key = (c.get? key).or (firstBuilt key rs) := by
  induction rs generalizing c with
  | nil => simp [firstBuilt]
  | cons r rs ih =>
    rw [after_cons, ih, get?_serve, Option.or_assoc, firstBuilt, firstBuilt, List.findSome?_cons]
    cases r.builds key <;> rfl

theorem get?_fresh (key : CacheKey) : get? ({} : Cache δ) key = none := rfl

theorem get?_after_fresh (rs : List (Request ε δ)) (key : CacheKey) :
    (after {} rs).get? key = firstBuilt key rs := by
  rw [get?_after, get?_fresh, Option.none_or]

/-- Caches that hold the same for a key give the same answers to the requests for it, in any company. -/
theorem trace_filter (key : CacheKey) {c c' : Cache δ} (rs : List (Request ε δ)) (h : c.get? key = c'.get? key) :
    (c.trace rs).filter (·.1.key = key) = c'.trace (rs.filter (·.key = key)) := by
  induction rs generalizing c c' with
  | nil => rfl
  | cons r rs ih =>
    by_cases hr : r.key = key
    · have ha : (c.serve r).1 = (c'.serve r).1 := by
        rw [answer_eq, answer_eq, hr, h]
      have hs : (c.serve r).2.get? key = (c'.serve r).2.get? key := by rw [get?_serve, get?_serve, h]
      simp [trace, hr, ha, ih hs]
    · have hs : (c.serve r).2.get? key = c'.get? key := by
        rw [get?_serve, Request.builds_of_ne hr, Option.or_none, h]
      simp [trace, hr, ih hs]

/-! ## Counts -/

theorem toNat_countUp (n : UInt64) : (countUp n).toNat = min (n.toNat + 1) (UInt64.size - 1) := by
  have hn := n.toNat_lt_size
  unfold countUp
  split
  · next h => rw [UInt64.toNat_add, UInt64.toNat_one, Nat.mod_eq_of_lt h]; omega
  · omega

/-- One document was kept at each miss, and each other success was a hit, up to the greatest count. -/
structure Counted (c : Cache δ) (successes : Nat) : Prop where
  misses : c.misses.toNat = min c.size (UInt64.size - 1)
  hits : c.hits.toNat = min (successes - c.size) (UInt64.size - 1)
  size_le : c.size ≤ successes

theorem Counted.serve {n : Nat} (h : Counted c n) (r : Request ε δ) :
    Counted (c.serve r).2 (n + if (c.serve r).1.isDocument then 1 else 0) := by
  obtain ⟨hm, hh, hle⟩ := h
  obtain ⟨hs, ha, -⟩ | ⟨hs, ha, -⟩ | ⟨d, -, -, ha, hs⟩ := serve_cases c r
  · rw [hs, ha]
    exact ⟨hm, hh, hle⟩
  · rw [hs, ha, if_pos rfl]
    refine ⟨hm, ?_, Nat.le_succ_of_le hle⟩
    simp only [toNat_countUp, hh, size] at hle ⊢
    omega
  · have hsize : (c.serve r).2.size = c.size + 1 := by rw [hs]; exact List.length_append
    rw [ha, if_pos rfl]
    refine ⟨?_, ?_, by omega⟩
    · rw [hsize, hs, toNat_countUp, hm]
      omega
    · rw [hsize, hs, hh]
      congr 1
      omega

theorem successes_cons (c : Cache δ) (r : Request ε δ) (rs : List (Request ε δ)) :
    c.successes (r :: rs) = (if (c.serve r).1.isDocument then 1 else 0) + (c.serve r).2.successes rs := by
  rw [successes, trace, List.countP_cons, Nat.add_comm]
  rfl

theorem Counted.after {n : Nat} (h : Counted c n) (rs : List (Request ε δ)) :
    Counted (c.after rs) (n + c.successes rs) := by
  induction rs generalizing c n with
  | nil => exact h
  | cons r rs ih =>
    rw [after_cons, successes_cons, ← Nat.add_assoc]
    exact ih (h.serve r)

theorem counted_fresh : Counted ({} : Cache δ) 0 := ⟨rfl, rfl, Nat.le_refl _⟩

/-- Each document stands under its own key. -/
theorem nodup_keys_serve (h : (c.entries.map Prod.fst).Nodup) (r : Request ε δ) :
    ((c.serve r).2.entries.map Prod.fst).Nodup := by
  obtain ⟨hs, -⟩ | ⟨hs, -⟩ | ⟨d, -, hn, -, hs⟩ := serve_cases c r
  · rwa [hs]
  · rwa [hs]
  · have hnew : ∀ k ∈ c.entries.map Prod.fst, k ≠ r.key := by
      simpa [get?, List.find?_eq_none] using hn
    rw [hs, List.map_append, List.nodup_append]
    exact ⟨h, List.pairwise_singleton _ _, by simpa using hnew⟩

theorem nodup_keys_after (h : (c.entries.map Prod.fst).Nodup) (rs : List (Request ε δ)) :
    ((c.after rs).entries.map Prod.fst).Nodup := by
  induction rs generalizing c with
  | nil => exact h
  | cons r rs ih => exact ih (nodup_keys_serve h r)

/-- What requests to a fresh cache make of it. -/
structure Transparent (rs : List (Request ε δ)) : Prop where
  /-- The document of a key is the output of the first build for it that succeeded. -/
  stored : ∀ key, (after {} rs).get? key = firstBuilt key rs
  /-- A document that is there stays, whatever is requested. -/
  lasts : ∀ key d more, (after {} rs).get? key = some d → (after {} (rs ++ more)).get? key = some d
  /-- A request to look is answered with what is there and changes nothing. -/
  look : ∀ type ns options, (after {} rs).serve (.get type ns options : Request ε δ) =
    (.found (firstBuilt (.of type ns options) rs), after {} rs)
  /-- A document that is there is the answer whatever the build would give, and only a hit is counted. -/
  hit : ∀ type ns options d, firstBuilt (.of type ns options) rs = some d → ∀ build : Unit → Except ε δ,
    (after {} rs).serve (.getOrBuild type ns options build) =
      (.built (.ok d), { after {} rs with hits := countUp (after {} rs).hits })
  /-- Without a document the result of the build is the answer: nothing changes if it fails, and else it is kept. -/
  miss : ∀ type ns options, firstBuilt (.of type ns options) rs = none → ∀ build : Unit → Except ε δ,
    (after {} rs).serve (.getOrBuild type ns options build) =
      (.built (build ()), match build () with
        | .error _ => after {} rs
        | .ok d => { after {} rs with
            entries := (after {} rs).entries ++ [(.of type ns options, d)]
            misses := countUp (after {} rs).misses })
  /-- The requests for a key get the answers that they get without the others. -/
  separate : ∀ key, (trace {} rs).filter (·.1.key = key) = trace {} (rs.filter (·.key = key))
  /-- Each entry has a key of its own. -/
  keys : ((after {} rs).entries.map Prod.fst).Nodup
  /-- There was a miss for each entry and a hit for each other success, up to the greatest count. -/
  counted : Counted (after {} rs) (successes {} rs)
  /-- As long as the counts have not been exceeded, they are exact. -/
  exact : successes {} rs < UInt64.size → (after {} rs).misses.toNat = (after {} rs).size ∧
    (after {} rs).hits.toNat + (after {} rs).misses.toNat = successes {} rs

theorem Counted.exact {n : Nat} (h : Counted c n) (hn : n < UInt64.size) :
    c.misses.toNat = c.size ∧ c.hits.toNat + c.misses.toNat = n := by
  obtain ⟨hm, hh, hle⟩ := h
  omega

/-- Each run of a fresh cache is transparent. -/
theorem transparent (rs : List (Request ε δ)) : Transparent rs where
  stored := get?_after_fresh rs
  lasts key d more h := by rw [after_append, get?_after, h, Option.some_or]
  look type ns options := by rw [← get?_after_fresh]; rfl
  hit type ns options d h build := by
    rw [← get?_after_fresh] at h
    simp only [serve, getOrBuild, h]
  miss type ns options h build := by
    rw [← get?_after_fresh] at h
    simp only [serve, getOrBuild, h]
    cases build () <;> rfl
  separate _ := trace_filter _ rs rfl
  keys := nodup_keys_after (c := {}) List.nodup_nil rs
  counted := by simpa using counted_fresh.after rs
  exact := Counted.exact (by simpa using counted_fresh.after rs)

end Cache

end Avro
