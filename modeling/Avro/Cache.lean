import Avro.Name

/-!
# The cache of documents

A `Cache` keeps the documents of compilations that succeeded, each under the type, the options and the given namespace
of the compilation. The first document of a key stays. The cache counts the requests that it answered itself and those
that it kept the document of.
-/

namespace Avro

/-- What a document depends on, the graph apart. -/
structure CacheKey where
  type : TypeId
  options : Options
  givenNs : Option String
deriving DecidableEq

/-- The key of a compilation. An empty namespace stands for none. -/
def CacheKey.of (type : TypeId) (ns : Option String) (options : Options) : CacheKey :=
  ⟨type, options, Name.nonempty? ns⟩

/-- Documents by their keys, with counts of requests. -/
structure Cache (δ : Type) where
  entries : List (CacheKey × δ) := []
  hits : UInt64 := 0
  misses : UInt64 := 0

namespace Cache

variable {δ : Type}

/-- One more, up to the greatest count. -/
def countUp (n : UInt64) : UInt64 := if n.toNat + 1 < UInt64.size then n + 1 else n

/-- The document of a key. -/
def get? (c : Cache δ) (key : CacheKey) : Option δ := (c.entries.find? fun e => e.1 == key).map Prod.snd

/-- The document of a key, or else the result of the compilation, which is run then and kept if it is a document. -/
def getOrBuild {ε : Type} (c : Cache δ) (key : CacheKey) (build : Unit → Except ε δ) :
    Except ε δ × Cache δ :=
  match c.get? key with
  | some document => (.ok document, { c with hits := countUp c.hits })
  | none =>
    match build () with
    | .ok document => (.ok document, { c with entries := c.entries ++ [(key, document)], misses := countUp c.misses })
    | .error e => (.error e, c)

/-- The number of documents. -/
def size (c : Cache δ) : Nat := c.entries.length

def isEmpty (c : Cache δ) : Bool := c.entries.isEmpty

end Cache
end Avro
