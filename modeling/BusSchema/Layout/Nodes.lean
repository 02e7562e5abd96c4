import BusSchema.Bindings
import BusSchema.Notice
import BusSchema.Schema.Fault
import BusSchema.Schema.Table

/-!
# Node ids

A definition whose constants are integers serves as a table of node names and node ids.
Constants that are no 32-bit number are left out and reported.
-/

namespace BusSchema

/-- The node id that a constant stands for. -/
def Constant.nodeId? (c : Constant) : Option Nat := c.value.natural?.bind fit32?

/-- The node ids among constants, and the notices about the other constants. -/
def nodesOf (constants : List Constant) : Bindings Nat × List Notice :=
  constants.foldl
    (fun (nodes, notices) c =>
      match c.nodeId? with
      | some id => (nodes.bind c.name id, notices)
      | none => (nodes, notices ++ [.skippedNode c.name c.value.text]))
    ({}, [])

namespace TypeTable

/-- The node ids that a definition lists among the constants of its first section. -/
def nodes (table : TypeTable) (name : String) :
    Except SchemaError (Bindings Nat × List Notice) :=
  match table.get? name with
  | none => .error (.unknownType name)
  | some d => .ok (nodesOf d.request.constants)

end TypeTable

end BusSchema
