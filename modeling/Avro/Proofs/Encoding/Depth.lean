import Avro.Proofs.Encoding.Refines
import Mathlib.Algebra.GroupWithZero.Nat

/-!
# How deep the encoding of a default goes

An encoding that ends at some depth ends with the same outcome at every greater one (`encodeWithin_mono`), and the
depth that `RuleTable.encode` allows is enough for all that end (`encode_of_encodeWithin`). The reason: from a value
the encoding goes down into the value or on to the default of a field, and it cannot come to the same default twice on
one way, since the second time it would be as deep as the first. So the values on one way are parts of the value at
the start and of different defaults, and each of them is met by one union and one other type at most.

That leaves an equation without depths: a type is encoded by its rule, from the encodings of its parts (`encode_eq`).
-/

namespace Avro

/-! ## Sizes of values -/

namespace Value

theorem size_pos (v : Value) : 0 < v.size := by cases v <;> simp only [size] <;> omega

theorem size_le_items {v : Value} : ∀ {items : List Value}, v ∈ items → v.size ≤ sizeItems items
  | _ :: _, h => by
    simp only [sizeItems]
    rcases List.mem_cons.mp h with rfl | h
    · exact Nat.le_add_right _ _
    · exact Nat.le_trans (size_le_items h) (Nat.le_add_left _ _)

theorem size_le_entries {e : String × Value} : ∀ {es : List (String × Value)}, e ∈ es → e.2.size ≤ sizeEntries es
  | (_, _) :: _, h => by
    simp only [sizeEntries]
    rcases List.mem_cons.mp h with rfl | h
    · exact Nat.le_add_right _ _
    · exact Nat.le_trans (size_le_entries h) (Nat.le_add_left _ _)

end Value

namespace TypeGraph

variable {g : TypeGraph}

/-- The fields of all records of the graph. -/
def allFields (g : TypeGraph) : List Field := g.places.toList.flatMap fun d? => (d?.bind Descriptor.fields?).getD []

theorem mem_allFields {id : TypeId} {d : Descriptor} {fs : List Field} {f : Field} (hget : g.get? id = some d)
    (hd : d.shape = .record fs) (hf : f ∈ fs) : f ∈ g.allFields := by
  have hplace : some d ∈ g.places.toList := by
    unfold get? at hget
    rw [Array.mem_toList_iff]
    exact Array.mem_of_getElem? (Option.join_eq_some_iff.mp hget)
  exact List.mem_flatMap.mpr ⟨some d, hplace, by simpa [Descriptor.fields?, hd] using hf⟩

theorem defaultsSize_eq (g : TypeGraph) : g.defaultsSize = (g.allFields.map Field.defaultSize).sum := by
  have hfields : ∀ fs : List Field, fs.foldr (fun f n => f.defaultSize + n) 0 = (fs.map Field.defaultSize).sum := by
    intro fs
    induction fs with
    | nil => rfl
    | cons f fs ih => simp [ih]
  unfold defaultsSize allFields
  induction g.places.toList with
  | nil => rfl
  | cons d? ds ih =>
    rw [List.foldr_cons, ih, List.flatMap_cons, List.map_append, List.sum_append_nat]
    congr 1
    unfold defaultsOf
    cases d?.bind Descriptor.fields? with
    | none => rfl
    | some fs => exact hfields fs

end TypeGraph

/-! ## Greater depths -/

namespace RuleTable

open Encode

variable {t : RuleTable} (ht : t.OfLibrary) {cx : Setting} {id : TypeId} {v : Value} {n m : Nat}
include ht

/-- One type deeper, an encoding refines another if those that it goes on to do. -/
theorem encodeWithin_refines_succ
    (h : ∀ {d id' v'}, cx.graph.get? id = some d → GoesOn cx.graph d v id' v' →
      (t.encodeWithin cx n id' v').Refines (t.encodeWithin cx m id' v')) :
    (t.encodeWithin cx (n + 1) id v).Refines (t.encodeWithin cx (m + 1) id v) := by
  simp only [encodeWithin]
  cases hget : cx.graph.get? id with
  | none => exact .refl _
  | some d =>
    cases hr : t.find cx.graph d with
    | error f => simp only [hr]; exact .refl _
    | ok r =>
      simp only [hr]
      exact encode_refines (ht.of_find hr) fun hgo => h hget hgo

/-- An encoding that ends has the same outcome at every greater depth. -/
theorem encodeWithin_mono (hnm : n ≤ m) :
    (t.encodeWithin cx n id v).Refines (t.encodeWithin cx m id v) := by
  induction n generalizing m id v with
  | zero =>
    intro r hr
    cases hr
  | succ n ih =>
    obtain ⟨m, rfl⟩ : ∃ k, m = k + 1 := ⟨m - 1, by omega⟩
    exact encodeWithin_refines_succ ht fun _ _ => ih (by omega)

end RuleTable

/-! ## Defaults that are settled -/

namespace RuleTable

open Encode

variable {t : RuleTable} {cx : Setting} {f : Field} {v : Value} {n m : Nat}

/-- Whether the encoding of the field's default ends at the depth. -/
def settles (t : RuleTable) (cx : Setting) (n : Nat) (f : Field) : Bool :=
  match f.default with
  | some v => (t.encodeWithin cx n f.type.target v).outcome.isSome
  | none => false

/-- The number of values in the defaults that are settled at the depth. -/
def settledSize (t : RuleTable) (cx : Setting) (n : Nat) : Nat :=
  (cx.graph.allFields.map fun f => if t.settles cx n f then f.defaultSize else 0).sum

theorem settles_mono (ht : t.OfLibrary) (hnm : n ≤ m) (h : t.settles cx n f = true) : t.settles cx m f = true := by
  unfold settles at h ⊢
  split at h
  · obtain ⟨r, hr⟩ := Option.isSome_iff_exists.mp h
    exact Option.isSome_iff_exists.mpr ⟨r, encodeWithin_mono ht hnm r hr⟩
  · cases h

/-- Sums are ordered as their terms, and one of them may be greater by `c`. -/
theorem add_sum_map_le {w w' : Field → Nat} {c : Nat} : ∀ {fs : List Field}, (∀ f ∈ fs, w f ≤ w' f) →
    (c = 0 ∨ ∃ f ∈ fs, c + w f ≤ w' f) → c + (fs.map w).sum ≤ (fs.map w').sum
  | [], _, hc => by
    rcases hc with rfl | ⟨f, hf, -⟩
    · exact Nat.le_refl _
    · cases hf
  | a :: fs, hle, hc => by
    simp only [List.map_cons, List.sum_cons]
    have ha := hle a List.mem_cons_self
    have hfs : ∀ f ∈ fs, w f ≤ w' f := fun f hf => hle f (List.mem_cons_of_mem _ hf)
    have hrest : 0 + (fs.map w).sum ≤ (fs.map w').sum := add_sum_map_le hfs (.inl rfl)
    rcases hc with rfl | ⟨f, hf, hc⟩
    · omega
    · rcases List.mem_cons.mp hf with rfl | hf
      · omega
      · have := add_sum_map_le hfs (.inr ⟨f, hf, hc⟩)
        omega

/-- A default of a field is one of those of the graph. -/
theorem defaultSize_le {g : TypeGraph} (hf : f ∈ g.allFields) : f.defaultSize ≤ g.defaultsSize := by
  have hle : f.defaultSize + (g.allFields.map fun _ => 0).sum ≤ (g.allFields.map Field.defaultSize).sum :=
    add_sum_map_le (fun _ _ => Nat.zero_le _) (.inr ⟨f, hf, Nat.le_refl _⟩)
  rw [← TypeGraph.defaultsSize_eq] at hle
  omega

/-- What is settled stays so, and a default that is settled later adds its size. -/
theorem add_settledSize_le (ht : t.OfLibrary) (hnm : n ≤ m) {c : Nat} (hc : c = 0 ∨
      ∃ f ∈ cx.graph.allFields, t.settles cx n f = false ∧ t.settles cx m f = true ∧ c = f.defaultSize) :
    c + t.settledSize cx n ≤ t.settledSize cx m := by
  apply add_sum_map_le
  · intro f _
    cases hn : t.settles cx n f with
    | false => simp
    | true => simp [settles_mono ht hnm hn]
  · refine hc.imp_right ?_
    rintro ⟨f, hf, hn, hm, rfl⟩
    exact ⟨f, hf, by simp [hn, hm]⟩

theorem settledSize_mono (ht : t.OfLibrary) (hnm : n ≤ m) : t.settledSize cx n ≤ t.settledSize cx m := by
  have hle : 0 + t.settledSize cx n ≤ t.settledSize cx m := add_settledSize_le ht hnm (.inl rfl)
  omega

theorem settledSize_le : t.settledSize cx n ≤ cx.graph.defaultsSize := by
  rw [TypeGraph.defaultsSize_eq]
  have hle : 0 + t.settledSize cx n ≤ (cx.graph.allFields.map Field.defaultSize).sum :=
    add_sum_map_le (fun f _ => by split <;> omega) (.inl rfl)
  omega

/-- A default that is settled is so for a first time. -/
theorem exists_first_settles (h : t.settles cx n f = true) :
    ∃ m < n, t.settles cx m f = false ∧ t.settles cx (m + 1) f = true := by
  induction n with
  | zero =>
    unfold settles at h
    split at h <;> cases h
  | succ n ih =>
    cases hn : t.settles cx n f with
    | false => exact ⟨n, Nat.lt_succ_self n, hn, h⟩
    | true =>
      obtain ⟨m, hm, hfirst⟩ := ih hn
      exact ⟨m, Nat.lt_succ_of_lt hm, hfirst⟩

end RuleTable

/-! ## The depth that is enough -/

namespace RuleTable

open Encode

variable {t : RuleTable} {cx : Setting} {id : TypeId} {v : Value} {n : Nat}

/-- What ends at the depth ends at twice the size of the value and of the defaults that are settled one type before. -/
def Bounded (t : RuleTable) (cx : Setting) (n : Nat) : Prop := ∀ id v,
  (t.encodeWithin cx n id v).Refines (t.encodeWithin cx (2 * (v.size + t.settledSize cx (n - 1))) id v)

/-- The depth is enough for one type less if the type is no union. -/
theorem refines_of_not_union (ht : t.OfLibrary) (ih : ∀ m ≤ n, Bounded t cx m)
    (hu : ∀ {d members}, cx.graph.get? id = some d → d.shape ≠ .union members) :
    (t.encodeWithin cx (n + 1) id v).Refines
      (t.encodeWithin cx (2 * (v.size + t.settledSize cx n) - 1) id v) := by
  have hpos := v.size_pos
  rw [show 2 * (v.size + t.settledSize cx n) - 1 = 2 * (v.size - 1 + t.settledSize cx n) + 1 by omega]
  refine encodeWithin_refines_succ ht fun {d id' v'} hget hgo => ?_
  -- a part of the value is smaller, and has the same defaults to meet
  have hpart : v'.size < v.size → (t.encodeWithin cx n id' v').Refines
      (t.encodeWithin cx (2 * (v.size - 1 + t.settledSize cx n)) id' v') := by
    intro hlt r hr
    have hmono : t.settledSize cx (n - 1) ≤ t.settledSize cx n := settledSize_mono ht (by omega)
    exact encodeWithin_mono ht (by omega) r (ih n (Nat.le_refl n) id' v' r hr)
  cases hgo with
  | member hd => exact absurd hd (hu hget)
  | item _ hmem =>
    have := Value.size_le_items hmem
    exact hpart (by simp only [Value.size]; omega)
  | value _ hmem | entry _ _ hmem =>
    have := Value.size_le_entries hmem
    exact hpart (by simp only [Value.size]; omega)
  | @fallback fs f es v' hd hf hv =>
    intro r hr
    -- the default is settled for the first time at some depth, where it was none of those to meet
    have hsettled : t.settles cx n f = true := by
      unfold settles
      simp [hv, hr]
    obtain ⟨m, hmn, hbefore, hat⟩ := exists_first_settles hsettled
    obtain ⟨r', hr'⟩ : ∃ r', (t.encodeWithin cx (m + 1) f.type.target v').outcome = some r' := by
      unfold settles at hat
      simp only [hv] at hat
      exact Option.isSome_iff_exists.mp hat
    have hsize : v'.size + t.settledSize cx m ≤ t.settledSize cx n := by
      have hadd := add_settledSize_le ht (Nat.le_add_right m 1)
        (.inr ⟨f, TypeGraph.mem_allFields hget hd hf, hbefore, hat, rfl⟩)
      have hmono : t.settledSize cx (m + 1) ≤ t.settledSize cx n := settledSize_mono ht hmn
      simp only [Field.defaultSize, hv] at hadd
      omega
    have hbound : 2 * (v'.size + t.settledSize cx (m + 1 - 1)) ≤ 2 * ((Value.dict es).size - 1 + t.settledSize cx n) := by
      rw [Nat.add_sub_cancel]
      omega
    have hends := encodeWithin_mono ht hbound r' (ih (m + 1) hmn f.type.target v' r' hr')
    rw [encodeWithin_mono ht hmn r' hr'] at hr
    cases hr
    exact hends

theorem bounded (ht : t.OfLibrary) : ∀ n, Bounded t cx n := by
  intro n
  induction n using Nat.strongRecOn with
  | _ n ih =>
    intro id v
    cases n with
    | zero =>
      intro r hr
      cases hr
    | succ n =>
      have hih : ∀ m ≤ n, Bounded t cx m := fun m hm => ih m (Nat.lt_succ_of_le hm)
      by_cases hu : ∀ {d members}, cx.graph.get? id = some d → d.shape ≠ .union members
      · intro r hr
        exact encodeWithin_mono ht (Nat.sub_le _ 1) r (refines_of_not_union ht hih hu r hr)
      · have hpos := v.size_pos
        have hone : 2 * (v.size + t.settledSize cx n) = 2 * (v.size + t.settledSize cx n) - 1 + 1 := by omega
        rw [Nat.add_sub_cancel, hone]
        refine encodeWithin_refines_succ ht fun {d id' v'} hget hgo => ?_
        cases hgo with
        | member hd hflat hm =>
          -- no member is a union, so a member gets along with one level less
          obtain ⟨-, d', hget', hleaf⟩ := TypeGraph.flatMembers_reached hget hd hflat hm
          cases n with
          | zero =>
            intro r hr
            cases hr
          | succ n =>
            intro r hr
            have hmono : t.settledSize cx n ≤ t.settledSize cx (n + 1) := settledSize_mono ht (Nat.le_add_right n 1)
            have hnot : ∀ {d members}, cx.graph.get? id' = some d → d.shape ≠ .union members := by
              intro d members hget'' hd'
              cases hget'.symm.trans hget''
              exact hleaf members hd'
            have hless := refines_of_not_union ht (fun m hm => hih m (by omega)) hnot r hr
            exact encodeWithin_mono ht (by omega) r hless
        | item hd | value hd | entry hd | fallback hd =>
          refine absurd ?_ hu
          intro d' members hget' hd'
          cases hget.symm.trans hget'
          cases hd.symm.trans hd'

/-- The depth that `encode` allows is enough for all encodings that end. -/
theorem encode_of_encodeWithin (ht : t.OfLibrary) (n : Nat) : (t.encodeWithin cx n id v).Refines (t.encode cx id v) := by
  intro r hr
  have hle : t.settledSize cx (n - 1) ≤ cx.graph.defaultsSize := settledSize_le
  exact encodeWithin_mono ht (by unfold encodeBound; omega) r (bounded ht n id v r hr)

theorem encode_iff_encodeWithin (ht : t.OfLibrary) {r : Except Mismatch Json} :
    (t.encode cx id v).outcome = some r ↔ ∃ n, (t.encodeWithin cx n id v).outcome = some r :=
  ⟨fun h => ⟨_, h⟩, fun ⟨n, h⟩ => encode_of_encodeWithin ht n r h⟩

/-! ## Encoding without depths -/

/-- The value that the encoding goes on to is as large as the value or as the defaults of the graph. -/
theorem size_le_of_goesOn {d : Descriptor} {id' : TypeId} {v' : Value} (hget : cx.graph.get? id = some d)
    (hgo : GoesOn cx.graph d v id' v') : v'.size ≤ v.size + cx.graph.defaultsSize := by
  cases hgo with
  | member => exact Nat.le_add_right _ _
  | item _ hmem =>
    have := Value.size_le_items hmem
    simp only [Value.size]
    omega
  | value _ hmem | entry _ _ hmem =>
    have := Value.size_le_entries hmem
    simp only [Value.size]
    omega
  | @fallback fs f es v' hd hf hv =>
    have hsize : f.defaultSize = v'.size := by simp only [Field.defaultSize, hv]
    have hle : f.defaultSize ≤ cx.graph.defaultsSize := defaultSize_le (TypeGraph.mem_allFields hget hd hf)
    omega

theorem encodeWithin_succ {d : Descriptor} {r : Rule} (hget : cx.graph.get? id = some d)
    (hr : cx.graph.ruleFor? d = some r) :
    standard.encodeWithin cx (n + 1) id v = r.encode cx (standard.encodeWithin cx n) d v := by
  simp only [encodeWithin, hget, standard_find_ok.mpr hr]

/-- A type is encoded by its rule, from the encodings of the parts. -/
theorem encode_eq {d : Descriptor} {r : Rule} (hget : cx.graph.get? id = some d) (hr : cx.graph.ruleFor? d = some r) :
    standard.encode cx id v = r.encode cx (standard.encode cx) d v := by
  show (standard.encode cx id v).outcome = (r.encode cx (standard.encode cx) d v).outcome
  apply Option.ext
  intro o
  constructor
  · intro h
    refine encode_refines (library_of_ruleFor? hr) (fun _ => encode_of_encodeWithin ofLibrary_standard
      (2 * (v.size + cx.graph.defaultsSize) + 1)) o ?_
    rw [← encodeWithin_succ hget hr]
    exact h
  · intro h
    refine encode_of_encodeWithin ofLibrary_standard (2 * (v.size + 2 * cx.graph.defaultsSize) + 3) o ?_
    rw [encodeWithin_succ hget hr]
    refine encode_refines (library_of_ruleFor? hr) (fun hgo r' hr' => ?_) o h
    have := size_le_of_goesOn hget hgo
    exact encodeWithin_mono ofLibrary_standard (by unfold encodeBound; omega) r' hr'

/-- What holds of an encoding if it holds of those that it goes on to, holds of all that accept their values. -/
theorem encode_induction {Q : TypeId → Value → Json → Prop}
    (hstep : ∀ {id v j d r} (enc : TypeId → Value → Encode Json), cx.graph.get? id = some d →
      cx.graph.ruleFor? d = some r → (r.encode cx enc d v).outcome = some (.ok j) →
      (∀ {id' v'}, (enc id' v').Refines (standard.encode cx id' v')) →
      (∀ {id' v' j'}, (enc id' v').outcome = some (.ok j') → Q id' v' j') → Q id v j)
    {j : Json} (hok : (standard.encode cx id v).outcome = some (.ok j)) : Q id v j := by
  obtain ⟨n, h⟩ := (encode_iff_encodeWithin ofLibrary_standard).mp hok
  clear hok
  induction n generalizing id v j with
  | zero => cases h
  | succ n ih =>
    simp only [encodeWithin] at h
    split at h
    · cases h
    · rename_i d hget
      split at h
      · cases h
      · rename_i r hr
        exact hstep _ hget (standard_find_ok.mp hr) h (encode_of_encodeWithin ofLibrary_standard n) ih

end RuleTable
end Avro
