import Avro.Rule.Composite
import Mathlib.Data.List.Basic

/-!
# Symbols of enumerations

The symbols of an enumeration are those that are listed, if all are names (`mem_distinctSymbols`, `distinctSymbols_ok`),
each where it is listed first (`firstOccurrences_of_distinctSymbols`).
-/

namespace Avro

theorem mem_distinctSymbols {x : String} : ∀ {known symbols out : List String},
    Rule.distinctSymbols known symbols = .ok out → (x ∈ out ↔ x ∈ known ∨ x ∈ symbols)
  | known, [], out, h => by
    cases h
    simp
  | known, s :: ss, out, h => by
    unfold Rule.distinctSymbols at h
    split at h
    · cases h
    · rw [mem_distinctSymbols h]
      split <;> grind

/-- Symbols are taken if and only if all are names. -/
theorem distinctSymbols_ok (known : List String) : ∀ {symbols : List String},
    (∃ out, Rule.distinctSymbols known symbols = .ok out) ↔ ∀ s ∈ symbols, Name.check s = .ok ()
  | [] => by simp [Rule.distinctSymbols]
  | s :: ss => by
    unfold Rule.distinctSymbols
    cases hs : Name.check s with
    | error f => simp [hs]
    | ok u => simp [hs, distinctSymbols_ok]

/-- There is a first symbol if and only if there are symbols, and all are names. -/
theorem exists_distinctSymbols_cons {symbols : List String} :
    (∃ x xs, Rule.distinctSymbols [] symbols = .ok (x :: xs)) ↔
      symbols ≠ [] ∧ ∀ s ∈ symbols, Name.check s = .ok () := by
  rw [← distinctSymbols_ok []]
  constructor
  · rintro ⟨x, xs, h⟩
    refine ⟨?_, _, h⟩
    rintro rfl
    cases h
  · rintro ⟨hne, out, h⟩
    obtain ⟨s, ss, rfl⟩ := List.exists_cons_of_ne_nil hne
    have hs : s ∈ out := (mem_distinctSymbols h).mpr (.inr List.mem_cons_self)
    obtain ⟨x, xs, rfl⟩ := List.exists_cons_of_ne_nil (List.ne_nil_of_mem hs)
    exact ⟨x, xs, h⟩

/-! ## The order of symbols -/

/-- The symbols are those that are declared, in the order in which they are declared first. -/
structure FirstOccurrences (declared symbols : List String) : Prop where
  mem : ∀ {s}, s ∈ symbols ↔ s ∈ declared
  order : symbols.Pairwise fun a b => declared.idxOf a < declared.idxOf b

variable {declared symbols : List String}

theorem FirstOccurrences.nodup (h : FirstOccurrences declared symbols) : symbols.Nodup :=
  h.order.imp fun hlt he => absurd (he ▸ hlt) (Nat.lt_irrefl _)

theorem firstOccurrences_nil : FirstOccurrences [] [] := ⟨by simp, .nil⟩

/-- A symbol that is declared once more changes nothing, and a new one comes last. -/
theorem FirstOccurrences.snoc (h : FirstOccurrences declared symbols) (s : String) :
    FirstOccurrences (declared ++ [s]) (if s ∈ symbols then symbols else symbols ++ [s]) := by
  have hidx {a : String} (ha : a ∈ symbols) : (declared ++ [s]).idxOf a = declared.idxOf a :=
    List.idxOf_append_of_mem (h.mem.mp ha)
  have horder : symbols.Pairwise fun a b => (declared ++ [s]).idxOf a < (declared ++ [s]).idxOf b :=
    h.order.imp_of_mem fun ha hb hlt => by rwa [hidx ha, hidx hb]
  split
  · next hs =>
    refine ⟨fun {x} => ?_, horder⟩
    rw [h.mem, List.mem_append, List.mem_singleton, iff_self_or]
    rintro rfl
    exact h.mem.mp hs
  · next hs =>
    refine ⟨fun {x} => by rw [List.mem_append, List.mem_append, h.mem], ?_⟩
    refine List.pairwise_append.mpr ⟨horder, List.pairwise_singleton _ _, fun a ha b hb => ?_⟩
    obtain rfl := List.mem_singleton.mp hb
    rw [hidx ha, List.idxOf_append_of_notMem fun hb => hs (h.mem.mpr hb)]
    exact Nat.lt_of_lt_of_le (List.idxOf_lt_length_iff.mpr (h.mem.mp ha)) (Nat.le_add_right _ _)

/-- What is known of the symbols in front holds of all. -/
theorem FirstOccurrences.append : ∀ {declared known symbols out : List String}, FirstOccurrences declared known →
    Rule.distinctSymbols known symbols = .ok out → FirstOccurrences (declared ++ symbols) out
  | declared, known, [], out, hknown, h => by
    cases h
    rwa [List.append_nil]
  | declared, known, s :: ss, out, hknown, h => by
    unfold Rule.distinctSymbols at h
    split at h
    · cases h
    · have := (hknown.snoc s).append h
      rwa [List.append_assoc] at this

theorem firstOccurrences_of_distinctSymbols (h : Rule.distinctSymbols [] declared = .ok symbols) :
    FirstOccurrences declared symbols := firstOccurrences_nil.append h

end Avro
