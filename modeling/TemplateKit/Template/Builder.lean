import TemplateKit.Template.Item

/-!
# Building templates

Items are added to the innermost open block. A block that divides into branches keeps the finished
ones until it is closed. Every block has an escape mode, which is that of the block around it unless
a command has changed the mode for the next block.
-/

namespace TemplateKit

/-- A command with the items that it governs. -/
structure Branch where
  mark : Mark
  action : Action
  body : List Item

/-- A block that is open. Its items go on top of `outer` when it is closed. -/
structure Frame where
  block : Block
  escape : EscapeMode
  location : Nat
  /-- The latest branch; its body is still being built, unless what stands otherwise is. -/
  latest : Branch
  /-- The branches before it, the nearest first. -/
  earlier : List Branch
  outer : List Item

/-- A template as far as it was read. Items are kept in reverse, the latest first. -/
structure Builder where
  items : List Item
  frames : List Frame
  outermostEscape : EscapeMode
  nextEscape : EscapeMode
  /-- Does the next block take `nextEscape`? -/
  escapeChanged : Bool
  contentTypes : Nat := 0

namespace Builder

/-- A template starts with an item without text. -/
def start (escape : EscapeMode) : Builder :=
  ⟨[⟨{}, .literal none, [], []⟩], [], escape, escape, true, 0⟩

def block (b : Builder) : Block := (b.frames.head?.map (·.block)).getD .outermost

def escape (b : Builder) : EscapeMode := (b.frames.head?.map (·.escape)).getD b.outermostEscape

def changeEscape (b : Builder) (m : EscapeMode) : Builder :=
  { b with nextEscape := m, escapeChanged := true }

def add (b : Builder) (mark : Mark) (action : Action) : Builder :=
  { b with items := ⟨mark, action, [], []⟩ :: b.items }

def addContentType (b : Builder) (mark : Mark) (type : Bytes) (source : Option Bytes) : Builder :=
  { b.add mark (.contentType b.contentTypes type source) with contentTypes := b.contentTypes + 1 }

/-- Opens a block, with the escape mode of the one around it unless that was changed. -/
def push (b : Builder) (block : Block) (location : Nat) (latest : Branch) (earlier : List Branch)
    (outer : List Item) : Builder :=
  let mode := if b.escapeChanged then b.nextEscape else b.escape
  { b with
    items := []
    frames := ⟨block, mode, location, latest, earlier, outer⟩ :: b.frames
    escapeChanged := false }

def openBlock (b : Builder) (block : Block) (location : Nat) (mark : Mark) (action : Action) :
    Builder :=
  b.push block location ⟨mark, action, []⟩ [] b.items

/-- Ends the body of the latest branch and begins another one in the same block. -/
def divide (b : Builder) (mark : Mark) (action : Action) : Builder :=
  match b.frames with
  | [] => b
  | f :: rest =>
    let finished := { f.latest with body := b.items.reverse }
    { b with
      items := []
      frames := { f with latest := ⟨mark, action, []⟩, earlier := finished :: f.earlier } :: rest }

/-- Ends the body of the latest branch; what follows stands for when none of them is taken. -/
def turn (b : Builder) (location : Nat) : Builder :=
  match b.frames with
  | [] => b
  | f :: rest =>
    let finished := { f.latest with body := b.items.reverse }
    { b with frames := rest }.push .otherwise location finished f.earlier f.outer

/-- The item that an open block becomes when `items` end it. -/
def finished (f : Frame) (items : List Item) : Item :=
  let last := items.reverse
  let inner : Item := if f.block = .otherwise then
    ⟨f.latest.mark, f.latest.action, f.latest.body, last⟩
    else ⟨f.latest.mark, f.latest.action, last, []⟩
  f.earlier.foldl (fun inner branch => ⟨branch.mark, branch.action, branch.body, [inner]⟩) inner

/-- Closes the innermost block and puts it behind the items before it. -/
def close (b : Builder) : Builder :=
  match b.frames with
  | [] => b
  | f :: rest => { b with items := finished f b.items :: f.outer, frames := rest }

def template (b : Builder) : List Item :=
  (b.frames.foldl (fun items f => finished f items :: f.outer) b.items).reverse

end Builder

end TemplateKit
