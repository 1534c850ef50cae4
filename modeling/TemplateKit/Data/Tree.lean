import TemplateKit.Data.Assign
import TemplateKit.Data.Order

/-!
# What can be done with a data tree

Copying and reading change a tree only by the operations listed here, so they work on every way of
storing one. Nodes themselves are such a way; a tree with an index for each level is another.
-/

namespace TemplateKit

/-- What readers and copying need from a tree, however its levels are stored. -/
class DataTree (τ : Type) where
  empty : τ
  plain : τ → Node
  valueAt? : τ → Address → Bytes → Option Bytes
  assignAt : τ → Address → Bytes → Assignment → τ × Except DataFault Address
  ensureAt : τ → Address → Bytes → τ × Except DataFault Address
  openAt : τ → Address → Bytes → List Attribute → τ × Except DataFault Address
  setAttributeAt : τ → Address → Bytes → Bytes → Option Bytes → τ × Except DataFault Unit
  removeAt : τ → Address → Bytes → τ
  sortWith : τ → Address → (Node → Node → Bool) → τ

instance : DataTree Node where
  empty := .root
  plain := id
  valueAt? := Node.valueAt?
  assignAt := Node.assignAt
  ensureAt := Node.ensureAt
  openAt := Node.openAt
  setAttributeAt := Node.setAttributeAt
  removeAt := Node.removeAt
  sortWith := Node.sortWith

namespace DataTree

variable {τ : Type} [DataTree τ]

/-- Assigns the value that another name has now. -/
def setCopyAt (root : τ) (start : Address) (name : Bytes) (source : Option Bytes) :
    τ × Except DataFault Address :=
  match valueAt? root start (source.getD []) with
  | some value => assignAt root start name { value := some value }
  | none => (root, .error (.missingSource source))

/-- Assigns what a text of the form `name=value` says. -/
def setTextAt (root : τ) (start : Address) (text : Bytes) : τ × Except DataFault Address :=
  match text.cutAt (· == '=') with
  | (name, some value) => assignAt root start name { value := some value }
  | (_, none) => (root, .error (.noEquals text))

end DataTree

namespace Node

def setCopyAt (root : Node) (start : Address) (name : Bytes) (source : Option Bytes) :
    Node × Except DataFault Address :=
  DataTree.setCopyAt root start name source

def setTextAt (root : Node) (start : Address) (text : Bytes) : Node × Except DataFault Address :=
  DataTree.setTextAt root start text

end Node

end TemplateKit
