import Avro.Proofs.Definitions
import Avro.Proofs.Json.Nodes
import Avro.Proofs.Json.Strings
import Avro.Proofs.Json.Tokens
import Avro.Schema.Document

/-!
# Both layouts write one document

A text spells tokens if it is their texts one after the other, with any spaces between them (`Spells`). The tokens can be
cut out of it again (`lex_of_spells`), and without its spaces it is just their texts (`strip_of_spells`). The layout
without blanks writes exactly the texts of the tokens of a value (`text_tokens`), and the one on indented lines spells
them (`spells_writePretty`). So both are one document, from which a reader takes the JSON value that stands for the
schema (`render_document`).
-/

namespace Avro

namespace Json

/-! ## Texts of tokens -/

/-- How a token is written. -/
def Token.text : Token → List Char
  | openArr => ['[']
  | closeArr => [']']
  | openObj => ['{']
  | closeObj => ['}']
  | comma => [',']
  | colon => [':']
  | str s => writeString s
  | word cs => cs

def Token.isWord : Token → Bool
  | word _ => true
  | _ => false

/-- The text is that of the tokens, with spaces before, between and behind them. No word follows a word. -/
inductive Spells : List Token → List Char → Prop
  | nil : Spells [] []
  | space {c : Char} {ts : List Token} {cs : List Char} : isSpace c = true → Spells ts cs → Spells ts (c :: cs)
  | mark {c : Char} {t : Token} {ts : List Token} {cs : List Char} :
      mark? c = some t → Spells ts cs → Spells (t :: ts) (c :: cs)
  | str {s : String} {ts : List Token} {cs : List Char} :
      Spells ts cs → Spells (.str s :: ts) (writeString s ++ cs)
  | word {w : List Char} {ts : List Token} {cs : List Char} :
      w ≠ [] → (∀ c ∈ w, isWordChar c = true) → (∀ t ∈ ts.head?, t.isWord = false) → Spells ts cs →
      Spells (.word w :: ts) (w ++ cs)

variable {ts ts' : List Token} {cs cs' : List Char} {c : Char} {t : Token}

theorem text_of_mark? (h : mark? c = some t) : t.text = [c] ∧ t.isWord = false ∧ isSpace c = false ∧ c ≠ '"' := by
  unfold mark? at h
  split at h <;> cases h <;> decide

theorem of_isWordChar (h : isWordChar c = true) : isSpace c = false ∧ mark? c = none ∧ c ≠ '"' := by
  simpa [isWordChar, and_assoc] using h

/-! ## What is spelled -/

theorem Spells.spaces {sp : List Char} (hsp : ∀ c ∈ sp, isSpace c = true) (h : Spells ts cs) : Spells ts (sp ++ cs) := by
  induction sp with
  | nil => exact h
  | cons c sp ih =>
    obtain ⟨hc, hsp⟩ := List.forall_mem_cons.mp hsp
    exact .space hc (ih hsp)

/-- Texts one after the other spell the tokens one after the other, if the second do not begin with a word. -/
theorem Spells.append (h : Spells ts cs) (hhead : ∀ t ∈ ts'.head?, t.isWord = false) (h' : Spells ts' cs') :
    Spells (ts ++ ts') (cs ++ cs') := by
  induction h with
  | nil => exact h'
  | space hc _ ih => exact .space hc ih
  | mark hc _ ih => exact .mark hc ih
  | str _ ih =>
    rw [List.cons_append, List.append_assoc]
    exact .str ih
  | @word w ts cs hne hw hts _ ih =>
    rw [List.cons_append, List.append_assoc]
    refine .word hne hw ?_ ih
    cases ts with
    | nil => exact hhead
    | cons t ts => exact hts

/-- A text that begins with a character of a word spells tokens that begin with a word. -/
theorem Spells.isWordChar_head (h : Spells ts cs) (hts : ∀ t ∈ ts.head?, t.isWord = false) :
    ∀ c ∈ cs.head?, isWordChar c = false := by
  cases h with
  | nil => simp
  | space hc =>
    rintro c ⟨⟩
    simp [isWordChar, hc]
  | mark hc =>
    rintro c ⟨⟩
    simp [isWordChar, hc]
  | str =>
    rintro c ⟨⟩
    rfl
  | word => cases hts _ rfl

/-- **The tokens that a text spells can be cut out of it.** -/
theorem lex_of_spells (h : Spells ts cs) : lex cs = some ts := by
  induction h with
  | nil => rw [lex]
  | space hc _ ih => rw [lex, if_pos hc, ih]
  | @mark c t ts cs hc _ ih =>
    obtain ⟨-, -, hspace, -⟩ := text_of_mark? hc
    rw [lex, if_neg (by simp [hspace]), hc]
    simp only [ih, Option.map_some]
  | @str s ts cs _ ih =>
    have htext : writeString s ++ cs = '"' :: (s.toList.flatMap escaped ++ '"' :: cs) := by simp [writeString]
    have hread := readString_escaped s.toList cs
    rw [htext, lex, if_neg (by decide)]
    show (if '"' = '"' then _ else _) = _
    rw [if_pos rfl]
    split
    · rename_i s' rest hsome
      cases hread.symm.trans hsome
      rw [ih, String.ofList_toList]
      rfl
    · rename_i hnone
      cases hread.symm.trans hnone
  | @word w ts cs hne hw hts hcs ih =>
    obtain ⟨c, w, rfl⟩ := List.exists_cons_of_ne_nil hne
    obtain ⟨hc, hw⟩ := List.forall_mem_cons.mp hw
    obtain ⟨hspace, hmark, hquote⟩ := of_isWordChar hc
    have hstop := hcs.isWordChar_head hts
    have hspan : cs.takeWhile isWordChar = [] ∧ cs.dropWhile isWordChar = cs := by
      cases cs with
      | nil => exact ⟨rfl, rfl⟩
      | cons c cs => simp [hstop c rfl]
    rw [List.cons_append, lex, if_neg (by simp [hspace]), hmark]
    simp only [if_neg hquote, List.takeWhile_append_of_pos hw, List.dropWhile_append_of_pos hw, hspan, ih,
      Option.map_some, List.append_nil]

/-- **Without its spaces a text is the texts of the tokens that it spells.** -/
theorem strip_of_spells (h : Spells ts cs) : strip cs = ts.flatMap Token.text := by
  induction h with
  | nil => rfl
  | space hc _ ih => rw [strip_space hc, ih]
  | mark hc _ ih =>
    obtain ⟨htext, -, hspace, hquote⟩ := text_of_mark? hc
    rw [strip_other hspace hquote, ih, List.flatMap_cons, htext]
    rfl
  | str _ ih => rw [strip_writeString, ih, List.flatMap_cons, Token.text]
  | @word w ts cs hne hw _ _ ih =>
    have hword : ∀ w : List Char, (∀ c ∈ w, isWordChar c = true) → strip (w ++ cs) = w ++ strip cs := by
      intro w hw
      induction w with
      | nil => rfl
      | cons c w ih =>
        obtain ⟨hc, hw⟩ := List.forall_mem_cons.mp hw
        obtain ⟨hspace, -, hquote⟩ := of_isWordChar hc
        rw [List.cons_append, strip_other hspace hquote, ih hw, List.cons_append]
    rw [hword w hw, ih, List.flatMap_cons, Token.text]

/-- The texts of tokens that are spelled spell them, too. -/
theorem Spells.text (h : Spells ts cs) : Spells ts (ts.flatMap Token.text) := by
  induction h with
  | nil => exact .nil
  | space _ _ ih => exact ih
  | mark hc _ ih =>
    rw [List.flatMap_cons, (text_of_mark? hc).1]
    exact .mark hc ih
  | str _ ih => exact .str ih
  | word hne hw hts _ ih => exact .word hne hw hts ih

/-! ## Without blanks -/

theorem flatMap_intercalate {α β : Type} (f : α → List β) (sep : List α) (xs : List (List α)) :
    (sep.intercalate xs).flatMap f = (sep.flatMap f).intercalate (xs.map (List.flatMap f)) := by
  cases xs with
  | nil => rfl
  | cons x xs =>
    rw [List.map_cons, intercalate_cons, intercalate_cons, List.flatMap_append, List.flatMap_assoc, List.flatMap_map]
    simp only [List.flatMap_append]

mutual

/-- The layout without blanks writes the tokens of a value and nothing else. -/
theorem text_tokens : ∀ v : Json, v.tokens.flatMap Token.text = writeCompact v
  | null | bool _ | int _ | double _ | str _ => by simp [tokens, writeCompact, writeScalar, Token.text]
  | arr items => by
    rw [tokens, writeCompact, List.flatMap_append, List.flatMap_cons, flatMap_intercalate, text_itemTokens items]
    rfl
  | obj es => by
    rw [tokens, writeCompact, List.flatMap_append, List.flatMap_cons, flatMap_intercalate, text_entryTokens es]
    rfl

theorem text_itemTokens : ∀ vs : List Json, (itemTokens vs).map (List.flatMap Token.text) = compactItems vs
  | [] => rfl
  | v :: vs => by rw [itemTokens, compactItems, List.map_cons, text_tokens v, text_itemTokens vs]

theorem text_entryTokens : ∀ es : Entries, (entryTokens es).map (List.flatMap Token.text) = compactEntries es
  | [] => rfl
  | (k, v) :: es => by
    rw [entryTokens, compactEntries, List.map_cons, text_entryTokens es, List.flatMap_cons, List.flatMap_cons,
      text_tokens v]
    rfl

end

/-! ## On indented lines -/

theorem isSpace_newline (level : Nat) : ∀ c ∈ newline level, isSpace c = true := by
  intro c hc
  rcases List.mem_cons.mp hc with rfl | hc
  · rfl
  · rw [List.eq_of_mem_replicate hc]
    rfl

/-- Parts that are spelled are so in a block, between marks for its ends. -/
theorem spells_block {left right : Char} {l r : Token} (hl : mark? left = some l) (hr : mark? right = some r)
    (level : Nat) {tss : List (List Token)} {parts : List (List Char)} (h : List.Forall₂ Spells tss parts) :
    Spells (l :: [.comma].intercalate tss ++ [r]) (block left right level parts) := by
  have hend : Spells [r] (newline level ++ [right]) := .spaces (isSpace_newline level) (.mark hr .nil)
  have hrest : ∀ {tss : List (List Token)} {parts : List (List Char)}, List.Forall₂ Spells tss parts →
      Spells (following tss ++ [r])
        (parts.flatMap ((',' :: newline (level + 1)) ++ ·) ++ (newline level ++ [right])) ∧
      ∀ t ∈ (following tss ++ [r]).head?, t.isWord = false := by
    intro tss parts h
    induction h with
    | nil =>
      refine ⟨hend, ?_⟩
      rintro t ⟨⟩
      exact (text_of_mark? hr).2.1
    | @cons ts part tss parts hpart _ ih =>
      have htokens : following (ts :: tss) ++ [r] = .comma :: (ts ++ (following tss ++ [r])) := by simp [following]
      rw [htokens, List.flatMap_cons, List.append_assoc, List.append_assoc]
      refine ⟨.mark rfl (.spaces (isSpace_newline (level + 1)) (hpart.append ih.2 ih.1)), ?_⟩
      rintro t ⟨⟩
      rfl
  cases h with
  | nil => exact .mark hl (.mark hr .nil)
  | @cons ts part tss parts hpart hparts =>
    obtain ⟨hspells, hhead⟩ := hrest hparts
    have htext : block left right level (part :: parts) = left :: (newline (level + 1) ++ (part ++
        (parts.flatMap ((',' :: newline (level + 1)) ++ ·) ++ (newline level ++ [right])))) := by
      simp [block, intercalate_cons]
    have htokens : l :: [.comma].intercalate (ts :: tss) ++ [r] = l :: (ts ++ (following tss ++ [r])) := by
      simp [intercalate_cons, following]
    rw [htext, htokens]
    exact .mark hl (.spaces (isSpace_newline (level + 1)) (hpart.append hhead hspells))

/-- The words that a value writes are spelled. -/
theorem spells_word {w : List Char} (h : w ≠ [] ∧ ∀ c ∈ w, isWordChar c = true) : Spells [.word w] w := by
  have hspells : Spells [.word w] (w ++ []) := .word h.1 h.2 (by simp) .nil
  rwa [List.append_nil] at hspells

mutual

/-- The layout on indented lines spells the tokens of a value. -/
theorem spells_writePretty : ∀ (v : Json) (level : Nat), Spells v.tokens (writePretty level v)
  | null, _ => show Spells _ ['n', 'u', 'l', 'l'] from spells_word ⟨by decide, List.all_eq_true.mp rfl⟩
  | bool true, _ => show Spells _ ['t', 'r', 'u', 'e'] from spells_word ⟨by decide, List.all_eq_true.mp rfl⟩
  | bool false, _ => show Spells _ ['f', 'a', 'l', 's', 'e'] from spells_word ⟨by decide, List.all_eq_true.mp rfl⟩
  | int i, _ => spells_word (isWordChar_of_isNumber (isNumber_writeInt i))
  | double x, _ => spells_word (isWordChar_of_isNumber x.isNumber_text)
  | str s, level => by
    have hspells : Spells [.str s] (writeString s ++ []) := .str .nil
    rwa [List.append_nil] at hspells
  | arr items, level => spells_block rfl rfl level (spells_prettyItems items (level + 1))
  | obj es, level => spells_block rfl rfl level (spells_prettyEntries es (level + 1))

theorem spells_prettyItems : ∀ (vs : List Json) (level : Nat),
    List.Forall₂ Spells (itemTokens vs) (prettyItems level vs)
  | [], _ => .nil
  | v :: vs, level => .cons (spells_writePretty v level) (spells_prettyItems vs level)

theorem spells_prettyEntries : ∀ (es : Entries) (level : Nat),
    List.Forall₂ Spells (entryTokens es) (prettyEntries level es)
  | [], _ => .nil
  | (_, v) :: es, level =>
    .cons (.str (.mark rfl (.space rfl (spells_writePretty v level)))) (spells_prettyEntries es level)

end

end Json

/-! ## Schemas as texts -/

open Json

/-- The tokens of the document that a layout writes are spelled by the text of the schema, with a new line behind it or
not. -/
theorem Schema.spells_document (s : Schema) (format : OutputFormat) :
    Spells (s.document format).tokens (s.render format).toList := by
  have hpretty : Spells (s.document format).tokens (s.document format).pretty.toList := by
    rw [Json.pretty, String.toList_ofList]
    exact spells_writePretty (s.document format) 0
  have hcompact : Spells (s.document format).tokens (s.document format).compact.toList := by
    rw [Json.compact, String.toList_ofList, ← text_tokens]
    exact hpretty.text
  unfold Schema.render
  simp only
  have hbody : Spells (s.document format).tokens
      (if format.pretty then (s.document format).pretty else (s.document format).compact).toList := by
    cases format.pretty
    · exact hcompact
    · exact hpretty
  cases format.trailingNewline with
  | false => exact hbody
  | true =>
    have hnewline : Spells [] ['\n'] := .space rfl .nil
    have happend := hbody.append (by simp) hnewline
    rw [List.append_nil] at happend
    rw [if_pos rfl, String.toList_append]
    exact happend

/-- From the text of a schema a reader takes the document, with each key of an object once. -/
theorem Schema.read?_render (s : Schema) (format : OutputFormat) :
    Json.read? (s.render format) = some (s.document format).distinct.raw := by
  have htokens := readValue_tokens (s.document format) [] []
  rw [List.append_nil] at htokens
  rw [Json.read?, lex_of_spells (s.spells_document format)]
  exact htokens

/-- Without sorted keys, these are the tokens of the JSON form of the schema. -/
theorem Schema.spells_render (s : Schema) (pretty trailingNewline : Bool) :
    Spells s.toJson.tokens (s.render { pretty, trailingNewline }).toList :=
  s.spells_document { pretty, trailingNewline }

/-- **Both layouts write one document.** Without its spaces outside of strings, the text of a schema on indented lines is
its text without blanks. From each text a reader takes the one JSON value that stands for the schema, with numbers as they
are written and each key of an object once: the last value at the first place. So different JSON values are never written
alike. -/
theorem Schema.render_document (s : Schema) (trailingNewline : Bool) :
    strip (s.render { pretty := true, trailingNewline }).toList = (s.render {}).toList ∧
    (∀ v, s.Written v ↔ v = s.toJson) ∧
    (∀ pretty, Json.read? (s.render { pretty, trailingNewline }) = some s.toJson.distinct.raw) ∧
    ∀ s' pretty pretty' trailingNewline',
      s.render { pretty, trailingNewline } = Schema.render s' { pretty := pretty', trailingNewline := trailingNewline' } →
        s.toJson.distinct.raw = s'.toJson.distinct.raw := by
  have hread (s : Schema) (pretty trailingNewline : Bool) :
      Json.read? (s.render { pretty, trailingNewline }) = some s.toJson.distinct.raw :=
    s.read?_render { pretty, trailingNewline }
  refine ⟨?_, s.written_iff, fun pretty => hread s pretty trailingNewline, fun s' pretty pretty' trailingNewline' h => ?_⟩
  · rw [strip_of_spells (s.spells_render true trailingNewline), text_tokens]
    exact String.toList_ofList.symm
  · have hsame := hread s pretty trailingNewline
    rw [h, hread s' pretty' trailingNewline'] at hsame
    exact (Option.some.inj hsame).symm

/-- A page with a title of some schema, a number, and a list of pages that refer to it. -/
def Schema.pageOf (title : Schema) : Schema :=
  .record ⟨"Page", some "app"⟩ (some "A page\n\"as is\"") [
    ⟨"title", title, some "a \\ in it", some (.str "")⟩,
    ⟨"price", .logical .bytes "decimal" [("precision", .int 4), ("type", .str "money")], none, none⟩,
    ⟨"kind", .enum ⟨"Kind", none⟩ none ["a", "b"] "a", none, some (.str "b")⟩,
    ⟨"links", .array (.union [.reference "app.Page", .primitive .null]), none, some (.arr [])⟩]

/-- The page as an object. An attribute that is called `type` takes the place of the type. -/
def Schema.pageJson : Json :=
  .obj [
    ("type", .str "record"),
    ("name", .str "Page"),
    ("namespace", .str "app"),
    ("doc", .str "A page\n\"as is\""),
    ("fields", .arr [
      .obj [("name", .str "title"), ("type", .str "string"), ("doc", .str "a \\ in it"), ("default", .str "")],
      .obj [("name", .str "price"), ("type", .obj [("type", .str "money"), ("logicalType", .str "decimal"),
        ("precision", .int 4)])],
      .obj [("name", .str "kind"), ("type", .obj [("type", .str "enum"), ("name", .str "Kind"),
        ("symbols", .arr [.str "a", .str "b"]), ("default", .str "a")]), ("default", .str "b")],
      .obj [("name", .str "links"), ("type", .obj [("type", .str "array"),
        ("items", .arr [.str "app.Page", .str "null"])]), ("default", .arr [])]])]

/-- A page whose title is a string is read from its text as the object. Another, whose title is a type that is called
`string`, is written alike, as the same JSON value. -/
theorem Schema.render_document_page :
    (pageOf (.primitive .string)).Written (pageOf (.primitive .string)).toJson ∧
    Json.read? ((pageOf (.primitive .string)).render { pretty := true }) = some pageJson.raw ∧
    (pageOf (.primitive .string)).render { pretty := true } = (pageOf (.reference "string")).render { pretty := true } ∧
    (pageOf (.primitive .string)).toJson.distinct.raw = (pageOf (.reference "string")).toJson.distinct.raw := by
  obtain ⟨-, hwritten, hread, halike⟩ := Schema.render_document (pageOf (.primitive .string)) false
  have hdistinct : (pageOf (.primitive .string)).toJson.distinct = pageJson := by cbv
  have hsame : (pageOf (.primitive .string)).render { pretty := true } =
      (pageOf (.reference "string")).render { pretty := true } := rfl
  exact ⟨(hwritten _).mpr rfl, hdistinct ▸ hread true, hsame, halike _ true true false hsame⟩

end Avro
