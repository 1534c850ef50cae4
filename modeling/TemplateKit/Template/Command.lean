import TemplateKit.Bytes.Basic

/-!
# Commands of templates

A command is told by the word at its front. Some commands open a block, and others close or divide
one.
-/

namespace TemplateKit

/-- What is open between a command and the one that ends it. -/
inductive Block where
  | outermost
  | branch
  | otherwise
  | each
  | withAs
  | define
  | loop
  | alt
  | escape
deriving DecidableEq, Repr

/-- The name of the block in messages. -/
def Block.word : Block → Bytes
  | outermost => "GLOBAL"
  | branch => "IF"
  | otherwise => "ELSE"
  | each => "EACH"
  | withAs => "WITH"
  | define => "DEF"
  | loop => "LOOP"
  | alt => "ALT"
  | escape => "ESCAPE"

/-- The commands that a template can have. -/
inductive Command where
  | name
  | var
  | uvar
  | evar
  | lvar
  | branch
  | otherwise
  | elseif
  | elif
  | endBranch
  | each
  | endEach
  | withAs
  | endWith
  | includeNow
  | includeLater
  | define
  | endDefine
  | call
  | set
  | loop
  | endLoop
  | alt
  | endAlt
  | escape
  | endEscape
  | contentType
deriving DecidableEq, Repr

namespace Command

/-- The words of the commands, in the order in which they are tried. -/
def words : List (Command × Bytes) :=
  [(name, "name"), (var, "var"), (uvar, "uvar"), (evar, "evar"),
    (lvar, "lvar"), (branch, "if"), (otherwise, "else"), (elseif, "elseif"),
    (elif, "elif"), (endBranch, "/if"), (each, "each"), (endEach, "/each"),
    (withAs, "with"), (endWith, "/with"), (includeNow, "include"),
    (includeLater, "linclude"), (define, "def"), (endDefine, "/def"),
    (call, "call"), (set, "set"), (loop, "loop"), (endLoop, "/loop"),
    (alt, "alt"), (endAlt, "/alt"), (escape, "escape"), (endEscape, "/escape"),
    (contentType, "content-type")]

def word (c : Command) : Bytes := ((words.find? (·.1 = c)).map (·.2)).getD []

def code (c : Command) : Nat := words.findIdx (·.1 = c) + 1

def takesArgument : Command → Bool
  | otherwise | endBranch | endEach | endWith | endDefine => false
  | _ => true

/-- The blocks that a command needs around it; most commands may stand anywhere. -/
def allowedIn : Command → Block → Bool
  | otherwise, b | elseif, b | elif, b => b = .branch
  | endBranch, b => b = .branch || b = .otherwise
  | endEach, b => b = .each
  | endWith, b => b = .withAs
  | endDefine, b => b = .define
  | endLoop, b => b = .loop
  | endAlt, b => b = .alt
  | endEscape, b => b = .escape
  | _, _ => true

def endsWord (c : Command) : Bytes → Bool
  | [] => true
  | b :: _ => (c.takesArgument && (b == ':' || b == '!')) || b == 32 || b == 13 || b == 10

/-- The command at the front of a text and what follows its word. -/
def read? (s : Bytes) : Option (Command × Bytes) :=
  words.findSome? fun (c, w) =>
    let rest := s.drop w.length
    if Bytes.startsWithNoCase w s && c.endsWord rest then some (c, rest) else none

end Command

end TemplateKit
