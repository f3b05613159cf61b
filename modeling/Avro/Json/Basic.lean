import Avro.Binary64.Basic

/-!
# JSON values

A `Json` value keeps the order of the entries of its objects. `Json.put` is how an entry comes into an object: a key
that is already there keeps its place and takes the new value, so that an object built by `Json.ofEntries` has no key
twice. `Json.same` is equality up to the order of entries.
-/

namespace Avro

/-- A JSON value. An integer and a double are different numbers, whatever their magnitudes. -/
inductive Json where
  | null
  | bool (b : Bool)
  | int (i : Int)
  | double (x : Binary64)
  | str (s : String)
  | arr (items : List Json)
  | obj (entries : List (String × Json))

namespace Json

instance : Inhabited Json := ⟨null⟩

/-- Entries of an object: keys with their values, in the order in which they are written. -/
abbrev Entries := List (String × Json)

/-- The value of the first entry with the key. -/
def Entries.get? (es : Entries) (key : String) : Option Json := (es.find? fun e => e.1 == key).map Prod.snd

/-- Sets the value of a key. A key that is there keeps its place; a new one comes last. -/
def put : Entries → String → Json → Entries
  | [], key, value => [(key, value)]
  | (k, v) :: es, key, value => if k = key then (k, value) :: es else (k, v) :: put es key value

/-- Setting a key changes the value of that key and of no other. -/
theorem get?_put (es : Entries) (key other : String) (value : Json) :
    (put es key value).get? other = if other = key then some value else es.get? other := by
  induction es with
  | nil =>
    by_cases h : other = key
    · simp [put, Entries.get?, h]
    · simp [put, Entries.get?, h, Ne.symm h]
  | cons e es ih =>
    obtain ⟨k, v⟩ := e
    by_cases hk : k = key
    · by_cases h : other = key
      · simp [put, Entries.get?, hk, h]
      · simp [put, Entries.get?, hk, h, Ne.symm h]
    · by_cases h : other = k
      · subst h
        simp [put, Entries.get?, hk]
      · have hne : (k == other) = false := by simpa using Ne.symm h
        simpa [put, Entries.get?, List.find?_cons, hk, hne] using ih

/-- The object of a list of pairs: of the pairs with one key, the first gives the place and the last the value. -/
def ofEntries (es : Entries) : Json := obj (es.foldl (fun acc e => put acc e.1 e.2) [])

mutual

/-- Each object of the value with every key once, at any depth: the last value at the first place. -/
def distinct : Json → Json
  | arr items => arr (distinctItems items)
  | obj es => ofEntries (distinctEntries es)
  | v => v

def distinctItems : List Json → List Json
  | [] => []
  | v :: vs => distinct v :: distinctItems vs

def distinctEntries : Entries → Entries
  | [] => []
  | (k, v) :: es => (k, distinct v) :: distinctEntries es

end

mutual

/-- Equality up to the order in which objects list their keys. Doubles are compared as numbers. -/
def same : Json → Json → Bool
  | null, null => true
  | bool a, bool b => a == b
  | int a, int b => a == b
  | double a, double b => a.sameNumber b
  | str a, str b => a == b
  | arr a, arr b => sameItems a b
  | obj a, obj b => a.length == b.length && sameEntries a b
  | _, _ => false

def sameItems : List Json → List Json → Bool
  | [], [] => true
  | a :: as, b :: bs => same a b && sameItems as bs
  | _, _ => false

/-- Whether the second list gives each key of the first the same value. -/
def sameEntries : Entries → Entries → Bool
  | [], _ => true
  | (k, a) :: es, others =>
    (match others.get? k with
      | some b => same a b
      | none => false) && sameEntries es others

end

end Json
end Avro
