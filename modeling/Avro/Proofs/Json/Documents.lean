import Avro.Derivation.Run
import Avro.Proofs.Derivation.Yields
import Avro.Proofs.Json.Bytes
import Avro.Proofs.Json.Tokens

/-!
# Defaults that are documents

A default of a document type is the text of the document, whatever primitive type holds the text (`Rule.encodeDocument`).
For strings that is the value itself. For bytes, a default has one character for each byte, so it stands for the text in
UTF-8 just where no character of it takes more than one byte (`bytesOf?_eq_utf8_iff`). All that a text can have of other
characters comes from the keys and strings of the document (`forall_mem_writeCompact`). So the defaults of
document types stand for their documents if these are strings, or have no other characters than those below 128
(`encode_json_stands`).
-/

namespace Avro

namespace Json

/-! ## The characters of a text -/

mutual

/-- The characters of the keys and strings of a value. -/
def chars : Json → List Char
  | str s => s.toList
  | arr items => itemChars items
  | obj es => entryChars es
  | null | bool _ | int _ | double _ => []

def itemChars : List Json → List Char
  | [] => []
  | v :: vs => chars v ++ itemChars vs

def entryChars : Entries → List Char
  | [] => []
  | (k, v) :: es => k.toList ++ chars v ++ entryChars es

end

/-- What is written for a character below 128 has only such characters. -/
theorem escaped_ascii : ∀ n ≤ 0x7F, (escaped (Char.ofNat n)).all fun a => a.toNat ≤ 0x7F := by decide

/-- Other characters are written as themselves. -/
theorem escaped_of_lt {c : Char} (hc : 0x7F < c.toNat) : escaped c = [c] := by
  have hne : ∀ a : Char, a.toNat ≤ 0x7F → c ≠ a := by
    rintro a ha rfl
    omega
  unfold escaped
  rw [if_neg (hne _ (by decide)), if_neg (hne _ (by decide)), if_neg (hne _ (by decide)), if_neg (hne _ (by decide)),
    if_neg (hne _ (by decide)), if_neg (hne _ (by decide)), if_neg (hne _ (by decide)), if_neg (by omega)]

/-! A property that all characters below 128 have is one of all characters of a text, if those of the keys and strings have
it. -/

variable {P : Char → Prop}

section Ascii

variable (hascii : ∀ c : Char, c.toNat ≤ 0x7F → P c)
include hascii

theorem forall_mem_of_all {cs : List Char} (h : (cs.all fun a => a.toNat ≤ 0x7F) = true) : ∀ c ∈ cs, P c :=
  fun c hc => hascii c (of_decide_eq_true (List.all_eq_true.mp h c hc))

theorem forall_mem_escaped (c : Char) : (∀ a ∈ escaped c, P a) ↔ P c := by
  by_cases hc : c.toNat ≤ 0x7F
  · have hall := escaped_ascii c.toNat hc
    rw [Char.ofNat_toNat] at hall
    exact ⟨fun _ => hascii c hc, fun _ => forall_mem_of_all hascii hall⟩
  · rw [escaped_of_lt (Nat.lt_of_not_le hc), List.forall_mem_singleton]

theorem forall_mem_writeString (s : String) : (∀ c ∈ writeString s, P c) ↔ ∀ c ∈ s.toList, P c := by
  have hquote : P '"' := hascii _ (by decide)
  rw [writeString, List.forall_mem_append, List.forall_mem_cons, List.forall_mem_singleton, and_iff_right hquote,
    and_iff_left hquote]
  simp only [List.mem_flatMap, forall_exists_index, and_imp]
  constructor
  · exact fun h c hc => (forall_mem_escaped hascii c).mp fun a ha => h a c hc ha
  · exact fun h a c hc ha => (forall_mem_escaped hascii c).mpr (h c hc) a ha

/-- Parts with commas between them. -/
theorem forall_mem_intercalate (parts : List (List Char)) :
    (∀ c ∈ [','].intercalate parts, P c) ↔ ∀ part ∈ parts, ∀ c ∈ part, P c := by
  have hcomma : P ',' := hascii _ (by decide)
  cases parts with
  | nil => simp
  | cons part parts =>
    rw [intercalate_cons, List.forall_mem_append, List.forall_mem_cons]
    simp only [List.mem_flatMap, forall_exists_index, and_imp, List.singleton_append]
    refine and_congr_right fun _ => ⟨fun h part hpart c hc => h c part hpart (List.mem_cons_of_mem _ hc), ?_⟩
    intro h c part hpart hc
    rcases List.mem_cons.mp hc with rfl | hc
    · exact hcomma
    · exact h part hpart c hc

end Ascii

mutual

/-- **The characters of a text**: those of the keys and strings, and otherwise only such below 128. -/
theorem forall_mem_writeCompact (hascii : ∀ c : Char, c.toNat ≤ 0x7F → P c) : ∀ v : Json,
    (∀ c ∈ writeCompact v, P c) ↔ ∀ c ∈ v.chars, P c
  | str s => forall_mem_writeString hascii s
  | arr items => by
    have hopen : P '[' := hascii _ (by decide)
    have hclose : P ']' := hascii _ (by decide)
    rw [writeCompact, chars, List.forall_mem_append, List.forall_mem_cons, List.forall_mem_singleton, and_iff_right hopen,
      and_iff_left hclose, forall_mem_intercalate hascii, forall_mem_compactItems hascii items]
  | obj es => by
    have hopen : P '{' := hascii _ (by decide)
    have hclose : P '}' := hascii _ (by decide)
    rw [writeCompact, chars, List.forall_mem_append, List.forall_mem_cons, List.forall_mem_singleton, and_iff_right hopen,
      and_iff_left hclose, forall_mem_intercalate hascii, forall_mem_compactEntries hascii es]
  | null | bool true | bool false => iff_of_true (forall_mem_of_all hascii (by decide)) (List.forall_mem_nil _)
  | int i => by
    have hnumber := (isNumberChar_of_isNumber (isNumber_writeInt i)).2
    exact iff_of_true (fun c hc => hascii c (toNat_of_isNumberChar (hnumber c hc))) (List.forall_mem_nil _)
  | double x => by
    have hnumber := (isNumberChar_of_isNumber x.isNumber_text).2
    exact iff_of_true (fun c hc => hascii c (toNat_of_isNumberChar (hnumber c hc))) (List.forall_mem_nil _)

theorem forall_mem_compactItems (hascii : ∀ c : Char, c.toNat ≤ 0x7F → P c) : ∀ vs : List Json,
    (∀ part ∈ compactItems vs, ∀ c ∈ part, P c) ↔ ∀ c ∈ itemChars vs, P c
  | [] => iff_of_true (List.forall_mem_nil _) (List.forall_mem_nil _)
  | v :: vs => by
    rw [compactItems, itemChars, List.forall_mem_cons, List.forall_mem_append, forall_mem_writeCompact hascii v,
      forall_mem_compactItems hascii vs]

theorem forall_mem_compactEntries (hascii : ∀ c : Char, c.toNat ≤ 0x7F → P c) : ∀ es : Entries,
    (∀ part ∈ compactEntries es, ∀ c ∈ part, P c) ↔ ∀ c ∈ entryChars es, P c
  | [] => iff_of_true (List.forall_mem_nil _) (List.forall_mem_nil _)
  | (k, v) :: es => by
    have hcolon : P ':' := hascii _ (by decide)
    rw [compactEntries, entryChars, List.forall_mem_cons, List.forall_mem_append, List.forall_mem_append,
      List.forall_mem_append, List.forall_mem_cons, forall_mem_writeString hascii, forall_mem_writeCompact hascii v,
      forall_mem_compactEntries hascii es, and_iff_right hcolon]

end

/-! ## Texts as bytes -/

/-- The UTF-8 encoding of a text. -/
def utf8 (s : String) : List UInt8 := s.toUTF8.data.toList

theorem utf8_ofList (cs : List Char) : utf8 (String.ofList cs) = cs.flatMap String.utf8EncodeChar := by
  show (String.ofList cs).toByteArray.data.toList = _
  rw [String.toByteArray_ofList, List.utf8Encode, List.toList_data_toByteArray]

theorem utf8Size_eq_one_iff {c : Char} : c.utf8Size = 1 ↔ c.toNat ≤ 0x7F :=
  Char.utf8Size_eq_one_iff.trans UInt32.le_iff_toNat_le

theorem length_le_utf8 (cs : List Char) : cs.length ≤ (cs.flatMap String.utf8EncodeChar).length := by
  induction cs with
  | nil => exact Nat.le_refl 0
  | cons c cs ih =>
    have hpos := c.utf8Size_pos
    rw [List.length_cons, List.flatMap_cons, List.length_append, String.length_utf8EncodeChar]
    omega

theorem length_of_bytesOf? {cs : List Char} {bs : List UInt8} (h : bytesOf? cs = some bs) : bs.length = cs.length := by
  conv_rhs => rw [eq_map_of_bytesOf? h, List.length_map]

/-- **Characters that stand for bytes stand for their encoding in UTF-8** if and only if they are all below 128: others
take more than one byte. -/
theorem bytesOf?_eq_utf8_iff (cs : List Char) :
    bytesOf? cs = some (cs.flatMap String.utf8EncodeChar) ↔ ∀ c ∈ cs, c.toNat ≤ 0x7F := by
  induction cs with
  | nil => exact iff_of_true rfl (List.forall_mem_nil _)
  | cons c cs ih =>
    rw [List.forall_mem_cons, ← ih, List.flatMap_cons]
    by_cases hc : c.toNat ≤ 0x7F
    · rw [and_iff_right hc, bytesOf?, if_pos (by omega), String.utf8EncodeChar_eq_singleton (utf8Size_eq_one_iff.mpr hc),
        List.singleton_append]
      have hbyte : c.toNat.toUInt8 = c.val.toUInt8 := rfl
      rw [hbyte]
      exact ⟨fun h => by simpa using h, fun h => by rw [h]; rfl⟩
    · refine iff_of_false (fun h => ?_) fun h => hc h.1
      -- so many bytes as there are characters are too few
      have hlength := length_of_bytesOf? h
      have hsize := utf8Size_eq_one_iff.not.mpr hc
      have hpos := c.utf8Size_pos
      have hrest := length_le_utf8 cs
      rw [List.length_append, String.length_utf8EncodeChar, List.length_cons] at hlength
      omega

end Json

/-! ## Documents -/

/-- The default is one of the primitive type for the text: the text itself as a string, its encoding as bytes. -/
def Primitive.Stands : Primitive → Json → String → Prop
  | .string, j, text => j = .str text
  | .bytes, j, text => j.bytes? = some (Json.utf8 text)
  | _, _, _ => False

theorem stands_bytes_iff (doc : Json) :
    Primitive.bytes.Stands (.str doc.compact) doc.compact ↔ ∀ c ∈ doc.chars, c.toNat ≤ 0x7F := by
  rw [← Json.forall_mem_writeCompact (fun _ h => h), ← Json.bytesOf?_eq_utf8_iff, ← Json.utf8_ofList]
  show Json.bytesOf? doc.compact.toList = some (Json.utf8 doc.compact) ↔ _
  rw [Json.compact, String.toList_ofList]

theorem isSome_bytes?_compact (doc : Json) :
    (Json.str doc.compact).bytes?.isSome ↔ ∀ c ∈ doc.chars, c.toNat ≤ 0xFF := by
  rw [← Json.forall_mem_writeCompact (fun _ h => le_trans h (by decide)), ← Json.isSome_bytesOf?, Json.bytes?, Json.compact,
    String.toList_ofList]

variable {cx : Setting} {encode : TypeId → Value → Encode Json} {d : Descriptor} {v : Value} {j : Json}

/-- What is accepted is an array or an object, as the type has it, and its text is the default. -/
theorem encodeDocument_ok_iff {isArray : Bool} : Rule.encodeDocument isArray v = .ok j ↔
    ∃ doc, Rule.document? v = some doc ∧ j = .str doc.compact ∧
      if isArray then ∃ items, doc = .arr items else ∃ es, doc = .obj es := by
  unfold Rule.encodeDocument
  cases Rule.document? v with
  | none => simp [Rule.mustBe]
  | some doc => cases doc <;> cases isArray <;> simp [Rule.mustBe, eq_comm]

/-- **What a default of a document type stands for.** It is the text of the document. As a string, it stands for the
document. As bytes, it stands for the document if and only if no key and no string of the document has a character
above 127, and it stands for any bytes at all if and only if they have none above 255. -/
theorem encode_json_stands (h : (Rule.json.encode cx encode d v).outcome = some (.ok j)) :
    ∃ doc base, Rule.document? v = some doc ∧ j = .str doc.compact ∧
      (∀ parts id s, (Rule.json.schema cx parts id d).Yields s (.refined base "json") s) ∧
      base = (if cx.options.jsonEncoding = .string then .string else .bytes) ∧
      (base.Stands j doc.compact ↔ base = .string ∨ ∀ c ∈ doc.chars, c.toNat ≤ 0x7F) ∧
      (j.bytes?.isSome ↔ ∀ c ∈ doc.chars, c.toNat ≤ 0xFF) := by
  obtain ⟨doc, hdoc, rfl, -⟩ := encodeDocument_ok_iff.mp (Option.some.inj h)
  refine ⟨doc, _, hdoc, rfl, fun _ _ _ => Derive.yields_pure.mpr ⟨rfl, rfl⟩, ?_, ?_, isSome_bytes?_compact doc⟩
  · unfold Rule.documentBase
    cases cx.options.jsonEncoding <;> rfl
  · unfold Rule.documentBase
    cases cx.options.jsonEncoding with
    | bytes => exact (stands_bytes_iff doc).trans (or_iff_right (by decide)).symm
    | string => exact iff_of_true rfl (.inl rfl)

/-- Texts with any values. -/
def labels : Descriptor := { name := "Dict", shape := .map { target := 1 } { target := 2 } }

def labelled : Setting :=
  .of ⟨#[some labels, some { name := "str", shape := .basic .string }, some { name := "Any", shape := .basic .any }]⟩ {} none

/-- The encoding of a default of that type. -/
def encodeLabels (v : Value) : Option (Except Mismatch Json) :=
  (Rule.json.encode labelled (RuleTable.standard.encode labelled) labels v).outcome

theorem encode_labels_stands :
    encodeLabels (.dict [("k", .str "é")]) = some (.ok (.str "\x7b\"k\":\"é\"\x7d")) ∧
    ∃ doc base, Rule.document? (.dict [("k", .str "é")]) = some doc ∧
      Json.str "\x7b\"k\":\"é\"\x7d" = .str doc.compact ∧
      (∀ parts id s, (Rule.json.schema labelled parts id labels).Yields s (.refined base "json") s) ∧ base = .bytes ∧
      (base.Stands (.str "\x7b\"k\":\"é\"\x7d") doc.compact ↔ base = .string ∨ ∀ c ∈ doc.chars, c.toNat ≤ 0x7F) ∧
      ((Json.str "\x7b\"k\":\"é\"\x7d").bytes?.isSome ↔ ∀ c ∈ doc.chars, c.toNat ≤ 0xFF) := by
  have hencode : encodeLabels (.dict [("k", .str "é")]) = some (.ok (.str "\x7b\"k\":\"é\"\x7d")) :=
    congrArg some (encodeDocument_ok_iff.mpr ⟨.obj [("k", .str "é")], rfl, rfl, _, rfl⟩)
  exact ⟨hencode, encode_json_stands hencode⟩

/-- A default of a type whose values are bytes has a character that is no byte. -/
theorem encode_labels_noBytes :
    (Rule.json.schema labelled (RuleTable.standard.parts labelled) 0 labels).Yields {} (.refined .bytes "json") {} ∧
    encodeLabels (.dict [("k", .str "中")]) = some (.ok (.str "\x7b\"k\":\"中\"\x7d")) ∧
    Rule.document? (.dict [("k", .str "中")]) = some (.obj [("k", .str "中")]) ∧
    (Json.str "\x7b\"k\":\"中\"\x7d").bytes? = none ∧
    ¬ Primitive.bytes.Stands (.str "\x7b\"k\":\"中\"\x7d") (Json.obj [("k", .str "中")]).compact := by
  have hbytes : (Json.str "\x7b\"k\":\"中\"\x7d").bytes? = none := by decide
  refine ⟨rfl, ?_, rfl, hbytes, fun h => ?_⟩
  · exact congrArg some (encodeDocument_ok_iff.mpr ⟨.obj [("k", .str "中")], rfl, rfl, _, rfl⟩)
  · cases hbytes.symm.trans h

end Avro
