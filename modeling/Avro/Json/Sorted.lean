import Avro.Json.Basic

/-!
# Objects with sorted keys

`Json.sorted` puts the keys of every object in increasing order of their code points, at any depth, and leaves arrays
as they are.
-/

namespace Avro.Json

/-- The entries in increasing order of their keys. -/
def orderKeys (es : Entries) : Entries := es.mergeSort fun a b => decide (a.1 ≤ b.1)

mutual

/-- The value with the keys of each object in increasing order. -/
def sorted : Json → Json
  | arr items => arr (sortedItems items)
  | obj es => obj (orderKeys (sortedEntries es))
  | v => v

def sortedItems : List Json → List Json
  | [] => []
  | v :: vs => sorted v :: sortedItems vs

def sortedEntries : Entries → Entries
  | [] => []
  | (k, v) :: es => (k, sorted v) :: sortedEntries es

end

end Avro.Json
