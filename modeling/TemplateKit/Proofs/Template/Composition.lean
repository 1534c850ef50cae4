import TemplateKit.Proofs.Template.Alike
import TemplateKit.Proofs.Template.Outline

/-!
# Texts and blocks

A composition is text with blocks between, which hold compositions again. It can be written down as
the text of a template. The items that stand for it and what it renders to are told here without
reading that text: of the parts of a branch the first one is rendered whose condition is true, and
no condition behind it is looked at.
-/

namespace TemplateKit

open Render Item Command

open Parse (nextCommand? opening closing)

/-- Text in which no command opens or closes. -/
def Enclosed (s : Bytes) : Prop := Bytes.contains opening s = false ∧
    Bytes.contains closing s = false

instance {s : Bytes} : Decidable (Enclosed s) := inferInstanceAs (Decidable (_ ∧ _))

def opener (tag : Bytes) : Bytes := opening ++ (tag ++ [32])

/-- The word of a command with an argument behind it. -/
def Command.asking (c : Command) (arg : Bytes) : Bytes := c.word ++ ':'.toUInt8 :: arg

def Command.alone (c : Command) : Bytes := c.word ++ [32]

def enclose (tag word : Bytes) : Bytes := opener tag ++ (word ++ closing)

/-- Text outside of commands. No command opens in it, also if a command follows. -/
structure Literal (tag : Bytes) where
  text : Bytes
  free : nextCommand? tag (text ++ opener tag) = some (text, [])

/-- What a reader notes with the items of a text, apart from their places in it. -/
structure Notes where
  autoEscape : Bool
  keepsSources : Bool
  logName : Option Bytes

namespace Notes

/-- The mark of commands that do not write. -/
def mark (n : Notes) : Mark := { logName := n.logName }

def writing (n : Notes) (mode : EscapeMode) : Mark :=
  { escape := mode, autoEscape := n.autoEscape, logName := n.logName }

end Notes

/-- An expression in a command, with its text. -/
structure Phrase (fs : List Function) where
  source : Bytes
  expr : Expr
  /-- The places that are used up when the text is read. -/
  ends : List Nat
  read : (Expr.parse fs false source).run.run [] = (.ok expr, ends)
  enclosed : Enclosed source

namespace Phrase

variable {fs : List Function}

def Trimmed (e : Phrase fs) : Prop := e.source.strip = e.source

def argument (n : Notes) (e : Phrase fs) : Argument :=
  ⟨e.expr, if n.keepsSources then some e.source else none⟩

/-- Renders one of two parts, by whether the expression is true. -/
def choose (e : Phrase fs) (yes no : Render Unit) : Render Unit := do
  if ← isTrue (← eval e.expr.eval) then yes else no

end Phrase

/-- The name of a variable that a block binds. -/
structure Bound where
  name : Bytes
  nonempty : name ≠ []
  plain : ∀ b ∈ name, Ascii.isSpace b = false ∧ b ≠ '='
  enclosed : Enclosed name

/-- The numbers that a loop runs through: its end, or its start, end and step. -/
structure Bounds (fs : List Function) where
  exprs : List (Phrase fs)
  nonempty : exprs ≠ []
  atMostThree : exprs.length ≤ 3
  apart : ∀ e ∈ exprs, ','.toUInt8 ∉ e.source
  trimmed : (Bytes.join "," (exprs.map (·.source))).strip = Bytes.join "," (exprs.map (·.source))

namespace Bounds

variable {fs : List Function}

/-- The bounds as they are written. -/
def source (b : Bounds fs) : Bytes := Bytes.join "," (b.exprs.map (·.source))

end Bounds

/-- The command that opens a block other than a branch. -/
inductive Head (fs : List Function) where
  | each (x : Bound) (e : Phrase fs) (trimmed : e.Trimmed)
  | withAs (x : Bound) (e : Phrase fs) (trimmed : e.Trimmed)
  | loop (x : Bound) (b : Bounds fs)
  | alt (e : Phrase fs)
  /-- The word that names the mode may have blanks around it. -/
  | escape (e : Phrase fs) (word : Bytes) (mode : EscapeMode) (expr : e.expr = .text word)
      (named : (EscapeMode.named.find? fun m =>
        Bytes.startsWithNoCase m.1 word.stripRight.stripLeft).map (·.2) = some mode)

namespace Head

variable {fs : List Function}

/-- The command that opens the block. -/
def command : Head fs → Command
  | each _ _ _ => .each
  | withAs _ _ _ => .withAs
  | loop _ _ => .loop
  | alt _ => .alt
  | escape _ _ _ _ _ => .escape

def argument : Head fs → Bytes
  | each x e _ | withAs x e _ => x.name ++ (" = " ++ e.source)
  | loop x b => x.name ++ (" = " ++ b.source)
  | alt e | escape e _ _ _ _ => e.source

def ending : Head fs → Command
  | each _ _ _ => .endEach
  | withAs _ _ _ => .endWith
  | loop _ _ => .endLoop
  | alt _ => .endAlt
  | escape _ _ _ _ _ => .endEscape

/-- The mode in the block, if it is `mode` around it. -/
def mode (outer : EscapeMode) : Head fs → EscapeMode
  | escape _ _ inner _ _ => inner
  | _ => outer

/-- The mark that the reader gives the block. -/
def mark (n : Notes) (outer : EscapeMode) : Head fs → Mark
  | alt _ => n.writing outer
  | _ => n.mark

/-- What the reader makes of the block. -/
def action (n : Notes) : Head fs → Action
  | each x e _ => .each x.name (e.argument n)
  | withAs x e _ => .withAs x.name (e.argument n)
  | loop x b => .loop x.name (b.exprs.map (·.expr))
  | alt e => .alt (e.argument n)
  | escape e word _ _ _ => .escape word.stripRight (e.argument n).source

/-- What a block does with its body. This is what the meaning of a block is taken to be. -/
def render (n : Notes) (outer : EscapeMode) (body : Render Unit) : Head fs → Render Unit
  | each x e _ => do Render.each x.name (← Render.eval e.expr.eval) body
  | withAs x e _ => do Render.withAs x.name (← Render.eval e.expr.eval) body
  | loop x b => do
    let ns ← (b.exprs.map (·.expr)).mapM fun e => do
      return (← eval (← eval e.eval).asNumber).toInt32
    Render.loop x.name ns body
  | alt e => do
    let v ← eval e.expr.eval
    if ← isTrue v then writeArgument (n.writing outer) (e.argument n) v else body
  | escape _ _ _ _ _ => body

end Head

mutual

/-- Texts with blocks between them. -/
inductive Composition (tag : Bytes) (fs : List Function) where
  | text (s : Literal tag)
  | block (s : Literal tag) (head : Head fs) (body rest : Composition tag fs)
  | branch (s : Literal tag) (condition : Phrase fs) (body : Composition tag fs)
      (more : Alternatives tag fs) (rest : Composition tag fs)

/-- The parts of a branch behind its first one. -/
inductive Alternatives (tag : Bytes) (fs : List Function) where
  | closed
  | otherwise (body : Composition tag fs)
  | elif (condition : Phrase fs) (body : Composition tag fs) (more : Alternatives tag fs)

end

variable {tag : Bytes} {fs : List Function}

mutual

/-- The text of a composition. -/
def Composition.print : Composition tag fs → Bytes
  | .text s => s.text
  | .block s head body rest =>
    s.text ++ (enclose tag (head.command.asking head.argument) ++ (body.print ++
      (enclose tag head.ending.alone ++ rest.print)))
  | .branch s condition body more rest =>
    s.text ++ (enclose tag (branch.asking condition.source) ++
      (body.print ++ (more.print ++ rest.print)))

/-- The text of what follows a condition, up to the end of its block. -/
def Alternatives.print : Alternatives tag fs → Bytes
  | .closed => enclose tag endBranch.alone
  | .otherwise body => enclose tag otherwise.alone ++ (body.print ++ enclose tag endBranch.alone)
  | .elif condition body more => enclose tag (elif.asking condition.source) ++
      (body.print ++ more.print)

end

def Literal.item (n : Notes) (s : Literal tag) : Item :=
  ⟨n.writing .undefined, .literal (some s.text), [], []⟩

mutual

/-- The items of a template, which are nested as the blocks are. -/
def Composition.items (n : Notes) (mode : EscapeMode) : Composition tag fs → List Item
  | .text s => [s.item n]
  | .block s head body rest =>
    s.item n :: ⟨head.mark n mode, head.action n, body.items n (head.mode mode), []⟩ ::
    rest.items n mode
  | .branch s condition body more rest =>
    s.item n :: ⟨n.mark, .branch .branch (condition.argument n), body.items n mode,
      more.items n mode⟩ :: rest.items n mode

/-- The items of what follows a condition. -/
def Alternatives.items (n : Notes) (mode : EscapeMode) : Alternatives tag fs → List Item
  | .closed => []
  | .otherwise body => body.items n mode
  | .elif condition body more =>
    [⟨n.mark, .branch .elif (condition.argument n), body.items n mode, more.items n mode⟩]

end

/-- Text is written as it stands. -/
def Literal.render (n : Notes) (s : Literal tag) : Render Unit :=
  writeLiteral (n.writing .undefined) s.text

mutual

/-- The meaning of a composition: its parts, one after the other. -/
def Composition.render (n : Notes) (mode : EscapeMode) : Composition tag fs → Render Unit
  | .text s => s.render n
  | .block s head body rest => do
    s.render n
    head.render n mode (body.render n (head.mode mode))
    rest.render n mode
  | .branch s condition body more rest => do
    s.render n
    condition.choose (body.render n mode) (more.render n mode)
    rest.render n mode

/-- Renders the first part whose condition is true. -/
def Alternatives.render (n : Notes) (mode : EscapeMode) : Alternatives tag fs → Render Unit
  | .closed => pure ()
  | .otherwise body => body.render n mode
  | .elif condition body more => condition.choose (body.render n mode) (more.render n mode)

end

mutual

def Composition.height : Composition tag fs → Nat
  | .text _ => 1
  | .block _ _ body rest => max (body.height + 1) rest.height
  | .branch _ _ body more rest => max (max (body.height + 1) (more.height + 1)) rest.height

def Alternatives.height : Alternatives tag fs → Nat
  | .closed => 0
  | .otherwise body => body.height
  | .elif _ body more => max body.height more.height + 1

end

theorem Composition.height_pos (c : Composition tag fs) : 0 < c.height := by
  cases c with
  | text => exact Nat.one_pos
  | block => exact Nat.lt_of_lt_of_le (Nat.succ_pos _) (Nat.le_max_left _ _)
  | branch =>
    rw [height, Nat.max_assoc]
    exact Nat.lt_of_lt_of_le (Nat.succ_pos _) (Nat.le_max_left _ _)

namespace Item

mutual

/-- An item without the places in the text that its marks tell. -/
def unplaced (i : Item) : Item :=
  match i with
  | ⟨mark, action, body, otherwise⟩ => ⟨mark.unplaced, action, unplacedOf body,
      unplacedOf otherwise⟩

def unplacedOf (is : List Item) : List Item :=
  match is with
  | [] => []
  | i :: rest => i.unplaced :: unplacedOf rest

end

theorem unplacedOf_append (is js : List Item) :
    unplacedOf (is ++ js) = unplacedOf is ++ unplacedOf js := by
  induction is with
  | nil => rfl
  | cons i is ih => rw [List.cons_append, unplacedOf, unplacedOf, ih, List.cons_append]

theorem eq_nil_of_unplacedOf {is} (h : unplacedOf is = []) : is = [] := by
  cases is with
  | nil => rfl
  | cons i is => cases h

/-- The item behind the front of what is left of a list. -/
theorem eq_cons_of_unplacedOf {is js body otherwise mark action}
    (h : unplacedOf is = ⟨mark, action, body, otherwise⟩ :: js) :
    ∃ m bs os rest, is = ⟨m, action, bs, os⟩ :: rest ∧ m.unplaced = mark ∧ unplacedOf bs = body ∧
      unplacedOf os = otherwise ∧ unplacedOf rest = js := by
  cases is with
  | nil => cases h
  | cons i rest =>
    obtain ⟨m, action', bs, os⟩ := i
    cases h
    exact ⟨m, bs, os, rest, rfl, rfl, rfl, rfl, rfl⟩

end Item

section Rendering

variable {n : Notes}

/-- The places that marks tell do not matter to what is rendered. -/
theorem Literal.item_eq {s : Literal tag} {mark : Mark} (h : mark.unplaced = n.writing .undefined)
    (fuel : Nat) :
    Render.item (fuel + 1) ⟨mark, .literal (some s.text), [], []⟩ = s.render n := by
  rw [Literal.render, ← h]
  rfl

theorem Head.item_eq {head : Head fs} {mark : Mark} {outer : EscapeMode}
    (h : mark.unplaced = head.mark n outer) (fuel : Nat) (body : List Item) :
    item (fuel + 1) ⟨mark, head.action n, body, []⟩ = head.render n outer (items fuel body) := by
  cases head with
  | each | withAs | loop => rfl
  | alt e =>
    have hm : n.writing outer = mark.unplaced := h.symm
    rw [Head.render, hm]
    rfl
  | escape => rfl

theorem Phrase.item_eq (e : Phrase fs) (word : Command) (mark : Mark) (body otherwise : List Item)
    (fuel : Nat) :
    item (fuel + 1) ⟨mark, .branch word (e.argument n), body, otherwise⟩ =
      e.choose (items fuel body) (items fuel otherwise) := rfl

theorem Render.items_cons (fuel : Nat) (i : Item) (is : List Item) :
    items fuel (i :: is) = (do item fuel i; items fuel is) := rfl

theorem Composition.items_eq (c : Composition tag fs) :
    ∀ (mode : EscapeMode) (fuel : Nat) (is : List Item),
    c.height ≤ fuel → unplacedOf is = c.items n mode → Render.items fuel is = c.render n mode := by
  refine @Composition.rec tag fs
    (fun c => ∀ (mode : EscapeMode) (fuel : Nat) (is : List Item), c.height ≤ fuel →
      unplacedOf is = c.items n mode → Render.items fuel is = c.render n mode)
    (fun a => ∀ (mode : EscapeMode) (fuel : Nat) (is : List Item), a.height ≤ fuel →
      unplacedOf is = a.items n mode → Render.items fuel is = a.render n mode)
    ?text ?block ?branch ?closed ?otherwise ?elif c
  case text =>
    intro s mode fuel is hf his
    rw [Composition.height] at hf
    obtain _ | fuel := fuel
    · omega
    obtain ⟨m, bs, os, rest, rfl, hm, hbs, hos, hr⟩ := eq_cons_of_unplacedOf his
    rw [eq_nil_of_unplacedOf hbs, eq_nil_of_unplacedOf hos, eq_nil_of_unplacedOf hr, items_cons,
      Literal.item_eq hm]
    exact bind_pure_unit
  case block =>
    intro s head body rest ihbody ihrest mode fuel is hf his
    rw [Composition.height, Nat.max_le] at hf
    obtain _ | fuel := fuel
    · omega
    obtain ⟨m, bs, os, is, rfl, hm, hbs, hos, his⟩ := eq_cons_of_unplacedOf his
    obtain ⟨m', bs', os', is, rfl, hm', hbs', hos', his⟩ := eq_cons_of_unplacedOf his
    rw [eq_nil_of_unplacedOf hbs, eq_nil_of_unplacedOf hos, eq_nil_of_unplacedOf hos', items_cons,
      items_cons, Literal.item_eq hm, Head.item_eq hm', ihbody _ fuel bs' (by omega) hbs',
        ihrest mode _ is hf.2 his]
    rfl
  case branch =>
    intro s condition body more rest ihbody ihmore ihrest mode fuel is hf his
    rw [Composition.height, Nat.max_le] at hf
    obtain _ | fuel := fuel
    · omega
    obtain ⟨m, bs, os, is, rfl, hm, hbs, hos, his⟩ := eq_cons_of_unplacedOf his
    obtain ⟨m', bs', os', is, rfl, -, hbs', hos', his⟩ := eq_cons_of_unplacedOf his
    rw [eq_nil_of_unplacedOf hbs, eq_nil_of_unplacedOf hos, items_cons, items_cons,
      Literal.item_eq hm, Phrase.item_eq, ihbody mode fuel bs' (by omega) hbs',
        ihmore mode fuel os' (by omega) hos',
      ihrest mode _ is hf.2 his]
    rfl
  case closed =>
    intro mode fuel is _ his
    rw [eq_nil_of_unplacedOf his]
    rfl
  case otherwise =>
    intro body ihbody
    exact ihbody
  case elif =>
    intro condition body more ihbody ihmore mode fuel is hf his
    rw [Alternatives.height] at hf
    obtain _ | fuel := fuel
    · omega
    obtain ⟨m, bs, os, is, rfl, -, hbs, hos, his⟩ := eq_cons_of_unplacedOf his
    rw [eq_nil_of_unplacedOf his, items_cons, Phrase.item_eq, ihbody mode fuel bs (by omega) hbs,
      ihmore mode fuel os (by omega) hos]
    exact bind_pure_unit

end Rendering

end TemplateKit
