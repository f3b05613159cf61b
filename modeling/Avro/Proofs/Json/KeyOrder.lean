import Avro.Proofs.Json.Entries
import Avro.Proofs.Json.Layout

/-!
# The order of keys

A value is `Reordered` into another one if some of its objects, at any depth, list their entries in another order; arrays
keep theirs. Where no object has a key twice (`KeysDistinct`), sorting the keys is such a reordering (`reordered_sorted`),
and it takes two values to one if and only if they are reorderings of each other (`sorted_eq_iff`). What is rendered of a
schema with sorted keys is the sorted form of its document (`Schema.render_sorted`).
-/

namespace Avro.Json

/-! ## Parts of a value -/

/-- A property of values, from the items of each array and the entries of each object to the array or object. -/
theorem parts_induction {motive : Json → Prop} (null : motive null) (bool : ∀ b, motive (bool b))
    (int : ∀ i, motive (int i)) (double : ∀ x, motive (double x)) (str : ∀ s, motive (str s))
    (arr : ∀ vs : List Json, (∀ v ∈ vs, motive v) → motive (arr vs))
    (obj : ∀ es : Entries, (∀ e ∈ es, motive e.2) → motive (obj es)) (v : Json) : motive v := by
  induction hn : sizeOf v using Nat.strong_induction_on generalizing v with
  | _ n ih =>
    subst hn
    cases v with
    | null => exact null
    | bool b => exact bool b
    | int i => exact int i
    | double x => exact double x
    | str s => exact str s
    | arr vs =>
      refine arr vs fun v hv => ih _ ?_ v rfl
      have hlt := List.sizeOf_lt_of_mem hv
      rw [Json.arr.sizeOf_spec]
      omega
    | obj es =>
      refine obj es fun e he => ih _ ?_ e.2 rfl
      have hlt := List.sizeOf_lt_of_mem he
      have hsnd : sizeOf e = 1 + sizeOf e.1 + sizeOf e.2 := rfl
      rw [Json.obj.sizeOf_spec]
      omega

variable {es fs : Entries} {vs ws : List Json} {v w : Json}

theorem sortedItems_eq (vs : List Json) : sortedItems vs = vs.map sorted := by
  induction vs with
  | nil => rfl
  | cons v vs ih => rw [sortedItems, ih, List.map_cons]

theorem sortedEntries_eq (es : Entries) : sortedEntries es = es.map fun e => (e.1, e.2.sorted) := by
  induction es with
  | nil => rfl
  | cons e es ih => rw [sortedEntries, ih, List.map_cons]

theorem distinctItems_eq (vs : List Json) : distinctItems vs = vs.map distinct := by
  induction vs with
  | nil => rfl
  | cons v vs ih => rw [distinctItems, ih, List.map_cons]

theorem distinctEntries_eq (es : Entries) : distinctEntries es = es.map fun e => (e.1, e.2.distinct) := by
  induction es with
  | nil => rfl
  | cons e es ih => rw [distinctEntries, ih, List.map_cons]

/-- What leaves the value of each entry as it is leaves the entries as they are. -/
theorem map_value_eq_self {f : Json → Json} (h : ∀ e ∈ es, f e.2 = e.2) : es.map (fun e => (e.1, f e.2)) = es :=
  map_eq_self_iff.mpr fun e he => Prod.ext rfl (h e he)

/-! ## Objects at any depth -/

/-- The entries of each object of the value have the property, at any depth. -/
inductive EachObject (P : Entries → Prop) : Json → Prop
  | null : EachObject P null
  | bool (b : Bool) : EachObject P (bool b)
  | int (i : Int) : EachObject P (int i)
  | double (x : Binary64) : EachObject P (double x)
  | str (s : String) : EachObject P (str s)
  | arr {vs : List Json} : (∀ v ∈ vs, EachObject P v) → EachObject P (arr vs)
  | obj {es : Entries} : P es → (∀ e ∈ es, EachObject P e.2) → EachObject P (obj es)

/-- No object has a key twice. -/
def KeysDistinct : Json → Prop := EachObject fun es => (es.map Prod.fst).Nodup

/-- Each object lists its keys in increasing order of their code points, and so none of them twice. -/
def KeysIncrease : Json → Prop := EachObject fun es => (es.map Prod.fst).Pairwise (· < ·)

variable {P : Entries → Prop}

theorem eachObject_arr : EachObject P (arr vs) ↔ ∀ v ∈ vs, EachObject P v :=
  ⟨fun h => by cases h; assumption, .arr⟩

theorem eachObject_obj : EachObject P (obj es) ↔ P es ∧ ∀ e ∈ es, EachObject P e.2 :=
  ⟨fun h => by cases h; exact ⟨‹_›, ‹_›⟩, fun h => .obj h.1 h.2⟩

/-! ## Each key once -/

/-- Where keys are repeated, one entry is left for each. -/
theorem keysDistinct_distinct (v : Json) : v.distinct.KeysDistinct := by
  induction v using parts_induction with
  | null | bool | int | double | str => constructor
  | arr vs ih =>
    rw [distinct, distinctItems_eq]
    exact .arr (List.forall_mem_map.mpr ih)
  | obj es ih =>
    rw [distinct, distinctEntries_eq]
    obtain ⟨out, hout, hmem⟩ := mem_ofEntries (es.map fun e => (e.1, e.2.distinct))
    rw [hout]
    refine .obj (nodup_keys_ofEntries hout) fun e he => ?_
    obtain ⟨e', he', rfl⟩ := List.mem_map.mp (hmem e he)
    exact ih e' he'

/-- Where no key is repeated, nothing is left out. -/
theorem distinct_eq_self (h : v.KeysDistinct) : v.distinct = v := by
  induction h with
  | null | bool | int | double | str => rfl
  | arr _ ih => rw [distinct, distinctItems_eq, map_eq_self_iff.mpr ih]
  | obj hes _ ih => rw [distinct, distinctEntries_eq, map_value_eq_self ih, ofEntries_of_nodup hes]

/-! ## Increasing keys -/

theorem orderKeys_perm (es : Entries) : (orderKeys es).Perm es := List.mergeSort_perm es _

theorem pairwise_orderKeys (h : (es.map Prod.fst).Nodup) : (orderKeys es).Pairwise fun a b => a.1 < b.1 := by
  have hle : (orderKeys es).Pairwise fun a b => a.1 ≤ b.1 :=
    (List.pairwise_mergeSort
      (fun a b c hab hbc => by simpa using le_trans (by simpa using hab) (by simpa using hbc))
      (fun a b => by simpa using le_total a.1 b.1) es).imp of_decide_eq_true
  have hne : (orderKeys es).Pairwise fun a b => a.1 ≠ b.1 :=
    List.pairwise_map.mp (((orderKeys_perm es).map Prod.fst).nodup_iff.mpr h)
  exact hle.imp₂ (fun _ _ hle hne => lt_of_le_of_ne hle hne) hne

/-- Entries with increasing keys are in no other order. -/
theorem orderKeys_of_perm (h : (es.map Prod.fst).Nodup) (hp : es.Perm fs) : orderKeys es = orderKeys fs := by
  refine List.Perm.eq_of_pairwise (fun a b _ _ hab hba => absurd (hab.trans hba) (lt_irrefl _)) (pairwise_orderKeys h)
    (pairwise_orderKeys ((hp.map Prod.fst).nodup_iff.mp h)) ?_
  exact (orderKeys_perm es).trans (hp.trans (orderKeys_perm fs).symm)

/-- The keys of a sorted value increase. -/
theorem KeysDistinct.sorted (h : v.KeysDistinct) : v.sorted.KeysIncrease := by
  induction h with
  | null | bool | int | double | str => constructor
  | arr _ ih =>
    rw [Json.sorted, sortedItems_eq]
    exact .arr (List.forall_mem_map.mpr ih)
  | @obj es hes _ ih =>
    rw [Json.sorted, sortedEntries_eq]
    refine .obj (List.pairwise_map.mpr (pairwise_orderKeys ?_)) fun e he => ?_
    · rw [List.map_map]
      exact hes
    · obtain ⟨e', he', rfl⟩ := List.mem_map.mp ((orderKeys_perm _).mem_iff.mp he)
      exact ih e' he'

/-- Where the keys increase, nothing is left to be sorted. -/
theorem KeysIncrease.sorted_eq (h : v.KeysIncrease) : v.sorted = v := by
  induction h with
  | null | bool | int | double | str => rfl
  | arr _ ih => rw [sorted, sortedItems_eq, map_eq_self_iff.mpr ih]
  | @obj es hes _ ih =>
    have hle : es.Pairwise fun a b => decide (a.1 ≤ b.1) = true :=
      (List.pairwise_map.mp hes).imp fun hlt => decide_eq_true (le_of_lt hlt)
    rw [sorted, sortedEntries_eq, map_value_eq_self ih, orderKeys, List.mergeSort_of_pairwise hle]

/-- Increasing keys are distinct. -/
theorem KeysIncrease.keysDistinct (h : v.KeysIncrease) : v.KeysDistinct := by
  induction h with
  | null | bool | int | double | str => constructor
  | arr _ ih => exact .arr ih
  | obj hes _ ih => exact .obj (hes.imp fun hlt => ne_of_lt hlt) ih

/-! ## Reordered objects -/

/-- The second value is the first one with the entries of objects in another order, at any depth. -/
inductive Reordered : Json → Json → Prop
  | refl (v : Json) : Reordered v v
  | keys {es fs : Entries} : es.Perm fs → Reordered (obj es) (obj fs)
  | item {before after : List Json} {v w : Json} :
      Reordered v w → Reordered (arr (before ++ v :: after)) (arr (before ++ w :: after))
  | value {before after : Entries} {key : String} {v w : Json} :
      Reordered v w → Reordered (obj (before ++ (key, v) :: after)) (obj (before ++ (key, w) :: after))
  | trans {u v w : Json} : Reordered u v → Reordered v w → Reordered u w

theorem Reordered.symm (h : Reordered v w) : Reordered w v := by
  induction h with
  | refl v => exact .refl v
  | keys hp => exact .keys hp.symm
  | item _ ih => exact .item ih
  | value _ ih => exact .value ih
  | trans _ _ ih ih' => exact ih'.trans ih

/-- The items of an array are reordered one by one. -/
theorem Reordered.items {f : Json → Json} (before : List Json) (h : ∀ v ∈ vs, Reordered v (f v)) :
    Reordered (arr (before ++ vs)) (arr (before ++ vs.map f)) := by
  induction vs generalizing before with
  | nil => exact .refl _
  | cons v vs ih =>
    obtain ⟨hv, hvs⟩ := List.forall_mem_cons.mp h
    have hrest := ih (before ++ [f v]) hvs
    rw [List.append_assoc, List.append_assoc] at hrest
    exact (Reordered.item hv).trans hrest

/-- So are the values of the entries of an object. -/
theorem Reordered.values {f : Json → Json} (before : Entries) (h : ∀ e ∈ es, Reordered e.2 (f e.2)) :
    Reordered (obj (before ++ es)) (obj (before ++ es.map fun e => (e.1, f e.2))) := by
  induction es generalizing before with
  | nil => exact .refl _
  | cons e es ih =>
    obtain ⟨he, hes⟩ := List.forall_mem_cons.mp h
    have hrest := ih (before ++ [(e.1, f e.2)]) hes
    rw [List.append_assoc, List.append_assoc] at hrest
    exact (Reordered.value he).trans hrest

/-- A sorted value is a reordered one. -/
theorem reordered_sorted (v : Json) : Reordered v v.sorted := by
  induction v using parts_induction with
  | null | bool | int | double | str => exact .refl _
  | arr vs ih =>
    rw [sorted, sortedItems_eq]
    exact .items [] ih
  | obj es ih =>
    rw [sorted, sortedEntries_eq]
    exact (Reordered.values [] ih).trans (.keys (orderKeys_perm _).symm)

/-- Reordered objects have distinct keys, and the same form with sorted keys, if the objects before had them. -/
theorem Reordered.sorted_eq (h : Reordered v w) :
    (v.KeysDistinct ↔ w.KeysDistinct) ∧ (v.KeysDistinct → v.sorted = w.sorted) := by
  induction h with
  | refl v => exact ⟨Iff.rfl, fun _ => rfl⟩
  | keys hp =>
    refine ⟨?_, fun h => ?_⟩
    · unfold KeysDistinct
      rw [eachObject_obj, eachObject_obj, (hp.map Prod.fst).nodup_iff]
      simp only [hp.mem_iff]
    · rw [sorted, sorted, sortedEntries_eq, sortedEntries_eq]
      refine congrArg obj (orderKeys_of_perm ?_ (hp.map _))
      rw [List.map_map]
      exact (eachObject_obj.mp h).1
  | item _ ih =>
    refine ⟨?_, fun h => ?_⟩
    · unfold KeysDistinct at ih ⊢
      simp only [eachObject_arr, List.forall_mem_append, List.forall_mem_cons, ih.1]
    · have hv := (eachObject_arr.mp h) _ (List.mem_append_right _ List.mem_cons_self)
      simp only [sorted, sortedItems_eq, List.map_append, List.map_cons, ih.2 hv]
  | value _ ih =>
    refine ⟨?_, fun h => ?_⟩
    · unfold KeysDistinct at ih ⊢
      simp only [eachObject_obj, List.map_append, List.map_cons, List.forall_mem_append, List.forall_mem_cons, ih.1]
    · have hv := (eachObject_obj.mp h).2 _ (List.mem_append_right _ List.mem_cons_self)
      simp only [sorted, sortedEntries_eq, List.map_append, List.map_cons, ih.2 hv]
  | trans _ _ ih ih' => exact ⟨ih.1.trans ih'.1, fun h => (ih.2 h).trans (ih'.2 (ih.1.mp h))⟩

/-- **Two values have one sorted form if and only if they differ in the order of keys only.** -/
theorem sorted_eq_iff (hv : v.KeysDistinct) : v.sorted = w.sorted ∧ w.KeysDistinct ↔ Reordered v w := by
  constructor
  · rintro ⟨heq, -⟩
    have hw := (reordered_sorted w).symm
    rw [← heq] at hw
    exact (reordered_sorted v).trans hw
  · intro h
    exact ⟨h.sorted_eq.2 hv, h.sorted_eq.1.mp hv⟩

/-! ## Ways into a value -/

/-- The part of the value to which one step leads. -/
def part? : Json → Segment → Option Json
  | arr vs, .index i => vs[i]?
  | obj es, .key k => Entries.get? es k
  | _, _ => none

/-- The part of the value to which the steps lead, one after the other. -/
def partAt? : Json → List Segment → Option Json
  | v, [] => some v
  | v, s :: path => (v.part? s).bind fun w => partAt? w path

/-- Where no key comes twice, the order of the entries does not matter to a key. -/
theorem get?_of_perm (h : (es.map Prod.fst).Nodup) (hp : es.Perm fs) (k : String) : es.get? k = fs.get? k := by
  induction hp with
  | nil => rfl
  | cons e _ ih =>
    obtain ⟨-, hes⟩ := List.nodup_cons.mp h
    unfold Entries.get? at ih ⊢
    rw [List.find?_cons, List.find?_cons]
    split
    · rfl
    · exact ih hes
  | swap e e' es =>
    obtain ⟨hne, -⟩ := List.nodup_cons.mp h
    have hkeys : e'.1 ≠ e.1 := fun heq => hne (heq ▸ List.mem_cons_self)
    unfold Entries.get?
    simp only [List.find?_cons]
    cases hk : e.1 == k with
    | false => rfl
    | true =>
      have hk' : (e'.1 == k) = false := by
        rw [← eq_of_beq hk]
        exact beq_eq_false_iff_ne.mpr hkeys
      rw [hk']
  | trans hp _ ih ih' => exact (ih h).trans (ih' ((hp.map Prod.fst).nodup_iff.mp h))

theorem get?_map_value (f : Json → Json) (es : Entries) (k : String) :
    Entries.get? (es.map fun e => (e.1, f e.2)) k = (es.get? k).map f := by
  unfold Entries.get?
  rw [List.find?_map, Option.map_map, Option.map_map]
  rfl

/-- Each step into a sorted value leads to the sorted form of what was there before. -/
theorem part?_sorted (h : v.KeysDistinct) (s : Segment) : v.sorted.part? s = (v.part? s).map sorted := by
  cases h with
  | null | bool | int | double | str => rfl
  | @arr vs _ =>
    rw [sorted, sortedItems_eq]
    cases s with
    | index i => exact List.getElem?_map
    | key | field => rfl
  | @obj es hes _ =>
    rw [sorted, sortedEntries_eq]
    cases s with
    | key k =>
      have hkeys : ((es.map fun e => (e.1, e.2.sorted)).map Prod.fst).Nodup := by
        rw [List.map_map]
        exact hes
      exact (get?_of_perm hkeys (orderKeys_perm _).symm k).symm.trans (get?_map_value sorted es k)
    | index | field => rfl

theorem KeysDistinct.part (h : v.KeysDistinct) {s : Segment} (hw : v.part? s = some w) : w.KeysDistinct := by
  unfold part? at hw
  split at hw
  · exact eachObject_arr.mp h w (List.mem_of_getElem? hw)
  · obtain ⟨e, he, rfl⟩ := Option.map_eq_some_iff.mp hw
    exact (eachObject_obj.mp h).2 e (List.mem_of_find?_eq_some he)
  · cases hw

/-- **The same ways lead into a value and into its sorted form**, to a part and to the sorted form of the part. -/
theorem partAt?_sorted (h : v.KeysDistinct) (path : List Segment) :
    v.sorted.partAt? path = (v.partAt? path).map sorted := by
  induction path generalizing v with
  | nil => rfl
  | cons s path ih =>
    rw [partAt?, partAt?, part?_sorted h]
    cases hw : v.part? s with
    | none => rfl
    | some w => exact ih (h.part hw)

end Avro.Json

namespace Avro

open Json

/-! ## Schemas with sorted keys -/

/-- **Sorting the keys of a schema is canonical and loses nothing.** From its text with sorted keys a reader takes a value
in which the keys of each object increase. It is the JSON value of the schema, where of entries with one key the last
counts, with no more than its objects reordered: each way into the value, by positions in arrays and by keys, leads to
the sorted form of what it led to before. Sorting it again changes nothing. Schemas whose JSON values are reorderings of
each other have one text with sorted keys, and any two JSON values have one sorted form if and only if they are
reorderings of each other. -/
theorem Schema.render_sorted (s : Schema) {format : OutputFormat} (hsort : format.sortKeys = true) :
    Json.read? (s.render format) = some (s.document format).raw ∧ (s.document format).KeysIncrease ∧
    Reordered s.toJson.distinct (s.document format) ∧
    (∀ path, (s.document format).partAt? path = (s.toJson.distinct.partAt? path).map sorted) ∧
    (s.document format).sorted = s.document format ∧
    (∀ s' : Schema, Reordered s.toJson.distinct s'.toJson.distinct → s'.render format = s.render format) ∧
    ∀ v w : Json, v.KeysDistinct → (v.sorted = w.sorted ∧ w.KeysDistinct ↔ Reordered v w) := by
  have hdocument : ∀ s : Schema, s.document format = s.toJson.distinct.sorted := fun s => if_pos hsort
  have hdistinct := keysDistinct_distinct s.toJson
  have hincrease : (s.document format).KeysIncrease := by
    rw [hdocument]
    exact hdistinct.sorted
  refine ⟨?_, hincrease, ?_, fun path => ?_, hincrease.sorted_eq, fun s' h => ?_, fun v w hv => sorted_eq_iff hv⟩
  · rw [s.read?_render, distinct_eq_self hincrease.keysDistinct]
  · rw [hdocument]
    exact reordered_sorted s.toJson.distinct
  · rw [hdocument]
    exact partAt?_sorted hdistinct path
  · have hsame : s'.document format = s.document format := by
      rw [hdocument, hdocument]
      exact (h.sorted_eq.2 hdistinct).symm
    unfold Schema.render
    rw [hsame]

/-- A decimal type whose scale is given twice, around its precision. -/
def scaledTwice : Schema := .logical .bytes "decimal" [("scale", .int 1), ("precision", .int 4), ("scale", .int 2)]

/-- A point, with its coordinates in either order. -/
def pointXY : Json := .obj [("x", .int 1), ("y", .int 2)]

def pointYX : Json := .obj [("y", .int 2), ("x", .int 1)]

/-- Of the scales, the last one is left. -/
theorem Schema.render_scaledTwice :
    Json.read? (scaledTwice.render { sortKeys := true }) = some (scaledTwice.document { sortKeys := true }).raw ∧
    (scaledTwice.document { sortKeys := true }).partAt? [.key "scale"] = some (.int 2) ∧
    pointXY.KeysDistinct ∧ pointXY.sorted = pointYX.sorted := by
  have hsorted := @Schema.render_sorted scaledTwice { sortKeys := true } rfl
  have hdistinct : pointXY.KeysDistinct := keysDistinct_distinct pointXY
  have hreordered : Reordered pointXY pointYX := .keys (.swap _ _ _)
  obtain ⟨hread, -, -, hpath, -, -, hsame⟩ := hsorted
  exact ⟨hread, hpath [.key "scale"], hdistinct, ((hsame _ _ hdistinct).mpr hreordered).1⟩

end Avro
