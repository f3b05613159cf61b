import Avro.Proofs.Json.Numbers

/-!
# The tokens of a value

`Json.tokens` lists the tokens of a value in the order of its text. The reader takes off them the value, with its numbers
as they are written and each key of an object once (`readValue_tokens`). What it does with the items of an array or the
entries of an object is one statement for the rest of each (`readAfter_items`, `readAfter_entries`).
-/

namespace Avro.Json

/-! ## Values and their tokens -/

mutual

/-- The value with its numbers as they are written. -/
def raw : Json → RawJson
  | null => .null
  | bool b => .bool b
  | int i => .number (writeInt i)
  | double x => .number x.text
  | str s => .str s
  | arr items => .arr (rawItems items)
  | obj es => .obj (rawEntries es)

def rawItems : List Json → List RawJson
  | [] => []
  | v :: vs => raw v :: rawItems vs

def rawEntries : Entries → List (String × RawJson)
  | [] => []
  | (k, v) :: es => (k, raw v) :: rawEntries es

end

mutual

/-- The tokens of the value in the order of its text. -/
def tokens : Json → List Token
  | str s => [.str s]
  | arr items => .openArr :: [.comma].intercalate (itemTokens items) ++ [.closeArr]
  | obj es => .openObj :: [.comma].intercalate (entryTokens es) ++ [.closeObj]
  | v => [.word (writeScalar v)]

def itemTokens : List Json → List (List Token)
  | [] => []
  | v :: vs => tokens v :: itemTokens vs

def entryTokens : Entries → List (List Token)
  | [] => []
  | (k, v) :: es => (.str k :: .colon :: tokens v) :: entryTokens es

end

/-- Lists with a separator between them, as the first list and then each with the separator in front. -/
theorem intercalate_cons {α : Type} (sep x : List α) (xs : List (List α)) :
    sep.intercalate (x :: xs) = x ++ xs.flatMap (sep ++ ·) := by
  induction xs generalizing x with
  | nil => simp
  | cons y xs ih => rw [List.intercalate_cons_cons, ih, List.flatMap_cons, List.append_assoc, List.append_assoc]

/-- The tokens of parts that follow another part, each with a comma in front. -/
def following (parts : List (List Token)) : List Token := parts.flatMap ([.comma] ++ ·)

/-! ## Repeated keys -/

theorem rawEntries_put (es : Entries) (key : String) (v : Json) :
    rawEntries (put es key v) = RawJson.put (rawEntries es) key v.raw := by
  induction es with
  | nil => rfl
  | cons e es ih =>
    obtain ⟨k, w⟩ := e
    simp only [put, rawEntries, RawJson.put]
    split
    · rfl
    · rw [rawEntries, ih]

theorem rawEntries_foldl_put (es acc : Entries) : rawEntries (es.foldl (fun acc e => put acc e.1 e.2) acc) =
    (rawEntries es).foldl (fun acc e => RawJson.put acc e.1 e.2) (rawEntries acc) := by
  induction es generalizing acc with
  | nil => rfl
  | cons e es ih =>
    obtain ⟨k, v⟩ := e
    rw [List.foldl_cons, ih, rawEntries_put, rawEntries, List.foldl_cons]

/-- The entries that a reader takes off an object: of those with one key, the last value at the first place. -/
theorem raw_distinct_obj (es : Entries) : (obj es).distinct.raw =
    .obj ((rawEntries (distinctEntries es)).foldl (fun acc e => RawJson.put acc e.1 e.2) []) := by
  rw [distinct, ofEntries, raw, rawEntries_foldl_put]
  rfl

/-! ## Reading -/

/-- A value that is one word is read off the word. -/
theorem constant?_writeScalar : ∀ {v : Json}, v.tokens = [.word (writeScalar v)] →
    constant? (writeScalar v) = some v.distinct.raw
  | null, _ | bool true, _ | bool false, _ => rfl
  | int i, _ => constant?_of_isNumber (isNumber_writeInt i)
  | double x, _ => constant?_of_isNumber x.isNumber_text

/-- A value behind the start of an array is its first item, since no value begins with the end of an array. -/
theorem readValue_openArr (fs : List Frame) (v : Json) (ts : List Token) :
    readValue fs (.openArr :: (v.tokens ++ ts)) = readValue (.arr [] :: fs) (v.tokens ++ ts) := by
  rw [readValue]
  intro ts' hts
  have hhead : (v.tokens ++ ts).head? ≠ some .closeArr := by cases v <;> simp [tokens]
  exact hhead (by rw [hts]; rfl)

mutual

/-- **The reader takes a value off its tokens**, whatever is around it. -/
theorem readValue_tokens : ∀ (v : Json) (fs : List Frame) (ts : List Token),
    readValue fs (v.tokens ++ ts) = readAfter fs v.distinct.raw ts
  | str s, fs, ts => rfl
  | arr [], fs, ts => rfl
  | obj [], fs, ts => rfl
  | arr (v :: vs), fs, ts => by
    have htokens : (arr (v :: vs)).tokens ++ ts =
        .openArr :: (v.tokens ++ (following (itemTokens vs) ++ .closeArr :: ts)) := by
      simp [tokens, itemTokens, intercalate_cons, following]
    rw [htokens, readValue_openArr, readValue_tokens v, readAfter_items vs]
    rfl
  | obj ((k, v) :: es), fs, ts => by
    have htokens : (obj ((k, v) :: es)).tokens ++ ts = .openObj :: .str k :: .colon ::
        (v.tokens ++ (following (entryTokens es) ++ .closeObj :: ts)) := by
      simp [tokens, entryTokens, intercalate_cons, following]
    rw [htokens, readValue, readValue_tokens v, readAfter_entries es, raw_distinct_obj]
    rfl
  | null, fs, ts | bool b, fs, ts | int i, fs, ts | double x, fs, ts => by
    show readValue fs (.word (writeScalar _) :: ts) = _
    rw [readValue, constant?_writeScalar rfl]

/-- Behind an item, the reader takes the other items up to the end of the array. -/
theorem readAfter_items : ∀ (vs : List Json) (fs : List Frame) (acc : List RawJson) (v : RawJson) (ts : List Token),
    readAfter (.arr acc :: fs) v (following (itemTokens vs) ++ .closeArr :: ts) =
      readAfter fs (.arr (acc ++ v :: rawItems (distinctItems vs))) ts
  | [], fs, acc, v, ts => rfl
  | w :: vs, fs, acc, v, ts => by
    have htokens : following (itemTokens (w :: vs)) ++ .closeArr :: ts =
        .comma :: (w.tokens ++ (following (itemTokens vs) ++ .closeArr :: ts)) := by
      simp [itemTokens, following]
    rw [htokens, readAfter, readValue_tokens w, readAfter_items vs, distinctItems, rawItems, List.append_assoc]
    rfl

/-- Behind the value of an entry, the reader takes the other entries up to the end of the object. -/
theorem readAfter_entries : ∀ (es : Entries) (fs : List Frame) (acc : List (String × RawJson)) (key : String)
    (v : RawJson) (ts : List Token),
    readAfter (.obj acc key :: fs) v (following (entryTokens es) ++ .closeObj :: ts) =
      readAfter fs (.obj ((rawEntries (distinctEntries es)).foldl (fun acc e => RawJson.put acc e.1 e.2)
        (RawJson.put acc key v))) ts
  | [], fs, acc, key, v, ts => rfl
  | (k, w) :: es, fs, acc, key, v, ts => by
    have htokens : following (entryTokens ((k, w) :: es)) ++ .closeObj :: ts =
        .comma :: .str k :: .colon :: (w.tokens ++ (following (entryTokens es) ++ .closeObj :: ts)) := by
      simp [entryTokens, following]
    rw [htokens, readAfter, readValue_tokens w, readAfter_entries es, distinctEntries, rawEntries, List.foldl_cons]

end

end Avro.Json
