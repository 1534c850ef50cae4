import TemplateKit.Data.Tree

/-!
# Copying trees

A copy lays one tree over another: every node of the source is assigned under its name, and what the
destination had besides stays. A part of a tree can be laid over another part of the same tree; then
the copy also sees what it has changed before.
-/

namespace TemplateKit

namespace Node

mutual

def size (n : Node) : Nat :=
  match n with
  | ⟨_, _, _, _, children⟩ => sizes children + 1

/-- The number of nodes of trees. -/
def sizes (ns : List Node) : Nat :=
  match ns with
  | [] => 0
  | n :: rest => n.size + sizes rest

end

end Node

namespace DataTree

variable {τ : Type} [DataTree τ]

mutual

def overlay (root : τ) (start : Address) (source : Node) : τ × Except DataFault Unit :=
  match source with
  | ⟨_, _, _, _, children⟩ => overlayAll root start children

/-- Puts trees below a node one after the other, up to the first that is refused. -/
def overlayAll (root : τ) (start : Address) (sources : List Node) : τ × Except DataFault Unit :=
  match sources with
  | [] => (root, .ok ())
  | s :: rest =>
    match assignAt root start s.name ⟨s.value, s.isLink, s.attributes⟩ with
    | (root, .error e) => (root, .error e)
    | (root, .ok address) =>
      match overlay root address s with
      | (root, .error e) => (root, .error e)
      | (root, .ok ()) => overlayAll root start rest

end

/-- Copies what is below another tree's node below the node with a name. -/
def copyAt (root : τ) (start : Address) (name : Bytes) (source : Option Node) :
    τ × Except DataFault Unit :=
  match ensureAt root start name with
  | (root, .error e) => (root, .error e)
  | (root, .ok address) =>
    match source with
    | some s => overlay root address s
    | none => (root, .ok ())

/-- Lays the children of the node at `source`, from the `k`-th on, over those of the node at
`start`. A copy into its own source need not come to an end; `fuel` bounds it. -/
def overlayWithin : (fuel : Nat) → (root : τ) → (start source : Address) → (k : Nat) →
    τ × Except DataFault Unit
  | 0, root, _, _, _ => (root, .ok ())
  | fuel + 1, root, start, source, k =>
    match ((plain root).get? source).bind (·.children[k]?) with
    | none => (root, .ok ())
    | some s =>
      match assignAt root start s.name ⟨s.value, s.isLink, s.attributes⟩ with
      | (root, .error e) => (root, .error e)
      | (root, .ok address) =>
        match overlayWithin fuel root address (source ++ [s.name]) 0 with
        | (root, .error e) => (root, .error e)
        | (root, .ok ()) => overlayWithin fuel root start source (k + 1)

/-- The same within one tree, where the source may grow while it is copied. Whatever is left after
these steps is not copied. -/
def copyWithinAt (root : τ) (start : Address) (name : Bytes) (source : Option Address) :
    τ × Except DataFault Unit :=
  let steps := ((plain root).size + 2) * ((plain root).size + 2)
  match ensureAt root start name with
  | (root, .error e) => (root, .error e)
  | (root, .ok address) =>
    match source with
    | some source => overlayWithin steps root address source 0
    | none => (root, .ok ())

end DataTree

namespace Node

def copyTo (root : Node) (start : Option Address) (name : Option Bytes) (source : Option Node) :
    Node × Except DataFault Unit :=
  orMissing root start name fun start name => DataTree.copyAt root start name source

end Node

end TemplateKit
