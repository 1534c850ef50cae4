import TemplateKit.Bytes.Quoted
import TemplateKit.Data.Tree
import TemplateKit.Storage.Source

/-!
# Reading trees from text

Each line sets, copies or links a name, opens or closes a block, starts a multi-line value, includes
a file or is a comment. What was read before a fault stays in the tree.
-/

namespace TemplateKit

/-- What can be wrong with a line. Lines are counted from one. -/
inductive ReadFault where
  | includeInText (line : Nat)
  | includesTooDeep (line : Nat)
  | trailingGarbage (path : Bytes) (line : Nat) (text : Bytes)
  | noTerminator (path : Bytes) (line : Nat) (text : Bytes)
  | unreadable (path : Bytes) (line : Nat) (text : Bytes)
  | malformedAttributes (text : Bytes)
  | noFile

namespace ReadFault

/-- The kind of failure that a fault is. -/
def kind : ReadFault → Kind
  | includesTooDeep _ => .maxRecursion
  | noFile => .assertion
  | _ => .parse

def place (path : Bytes) (line : Nat) : Bytes := path ++ ":" ++ Numeral.ofNat line

/-- The text of the fault; a line is named where it is known. -/
def message : ReadFault → Bytes
  | includeInText line =>
    "[" ++ Numeral.ofNat line ++ "]: #include not supported in string parse"
  | includesTooDeep line => "[" ++ Numeral.ofNat line ++ "]: Too many recursion levels."
  | trailingGarbage path line text =>
    "[" ++ place path line ++ "] Trailing garbage on line following \x7d: " ++ text
  | noTerminator path line text =>
    "[" ++ place path line ++ "] No multi-assignment terminator given: " ++ text
  | unreadable path line text => "[" ++ place path line ++ "] Unable to parse line " ++ text
  | malformedAttributes text => "Malformed attribute specification: " ++ text
  | noFile => "Can't read NULL file"

def failure (f : ReadFault) : Failure := .raise f.kind f.message

end ReadFault

namespace Attribute

/-- Reads attributes up to the closing bracket, none if they are malformed. -/
def readList : (fuel : Nat) → Bytes → Option (List Attribute × Bytes)
  | 0, _ => none
  | _ + 1, [] => none
  | fuel + 1, b :: s =>
    if b == ']' then some ([], s)
    else
      let s := b :: s
      let key := s.takeWhile Ascii.isAlnum
      let s := s.dropWhile Ascii.isAlnum
      if key.isEmpty || s.isEmpty then none
      else
        match readValue (Bytes.stripLeft s) with
        | none => none
        | some (value, s) =>
          let s := Bytes.stripLeft s
          let s := if s.head? = some ','.toUInt8 then Bytes.stripLeft s.tail else s
          (readList fuel s).map fun (more, rest) => (⟨key, some value⟩ :: more, rest)
where
  /-- The value behind a key, empty when there is none, and what follows it. -/
  readValue (s : Bytes) : Option (Bytes × Bytes) :=
    if s.head? = some '='.toUInt8 then
      let s := Bytes.stripLeft s.tail
      if s.head? = some Quoted.quote then
        (Quoted.decode s.length s.tail).map fun (value, rest) => (Bytes.untilNul value, rest)
      else
        let ends (c : UInt8) := c == 32 || c == ',' || c == ']'
        let value := s.takeWhile (!ends ·)
        let rest := s.dropWhile (!ends ·)
        if rest.isEmpty then none else some (value, rest)
    else some ([], s)

end Attribute

/-- A multi-line value is read in pieces: a line, or what of it fits into the buffer. -/
structure PieceBuffer where
  size : Nat
  capacity : Nat

namespace PieceBuffer

def growth : Nat := 128

def empty : PieceBuffer := ⟨0, growth⟩

def room (b : PieceBuffer) : Nat := b.capacity - b.size - 1

/-- Space for the terminator is kept free. -/
def add (b : PieceBuffer) (piece terminator : Nat) : PieceBuffer :=
  let size := b.size + piece
  ⟨size, if size + terminator + 10 > b.capacity then b.capacity + growth else b.capacity⟩

end PieceBuffer

/-- One line with its end, cut off where the room ends. -/
def takeLine : (room : Nat) → Bytes → Bytes × Bytes
  | 0, s => ([], s)
  | _ + 1, [] => ([], [])
  | room + 1, b :: s =>
    if b == 10 then ([10], s)
    else
      let (line, rest) := takeLine room s
      (b :: line, rest)

/-- A piece that starts with the terminator and then a blank ends a multi-line value. -/
def endsValue (terminator piece : Bytes) : Bool :=
  ((Bytes.dropPrefix? terminator piece).bind List.head?).any Ascii.isSpace

/-- A multi-line value: its text, the number of pieces, and what follows the terminator. -/
def readPieces (terminator : Bytes) : (fuel : Nat) → PieceBuffer → Bytes → Bytes × Nat × Bytes
  | 0, _, s => ([], 0, s)
  | fuel + 1, buffer, s =>
    let (piece, rest) := takeLine buffer.room s
    if piece.isEmpty then ([], 0, s)
    else if endsValue terminator piece then ([], 1, rest)
    else
      let buffer := buffer.add piece.length terminator.length
      let (value, count, rest) := readPieces terminator fuel buffer rest
      (piece ++ value, count + 1, rest)

/-- What a line asks for. `shown` is what is left of the line when it is complained about. -/
inductive DataLine where
  | blank
  | inclusion (path : Bytes)
  | closing
  | garbageAfterClosing (shown : Bytes)
  | malformedAttributes (text : Bytes)
  | assignment (name : Bytes) (attributes : List Attribute) (value : Bytes)
  | copy (name : Bytes) (attributes : List Attribute) (source : Bytes)
  | link (name : Bytes) (attributes : List Attribute) (target : Bytes)
  | opening (name : Bytes) (attributes : List Attribute)
  | multiLine (name : Bytes) (attributes : List Attribute) (terminator : Bytes)
  | noTerminator (shown : Bytes)
  | unreadable (shown : Bytes)

namespace DataLine

def isNameByte (b : UInt8) : Bool := Ascii.isAlnum b || b == '_' || b == dot

def unquoted (path : Bytes) : Bytes :=
  if path.head? = some Quoted.quote && path.getLast? = some Quoted.quote then path.tail.dropLast
  else path

/-- The line by what follows its name and attributes. -/
def ofRest (lead name : Bytes) (attributes : List Attribute) (shown rest : Bytes) : DataLine :=
  match rest with
  | 61 :: value => .assignment name attributes (Bytes.strip value)
  | 58 :: 61 :: source => .copy name attributes (Bytes.strip source)
  | 58 :: target => .link name attributes (Bytes.strip target)
  | 123 :: _ => .opening name attributes
  | 60 :: 60 :: terminator =>
    let terminator := Bytes.strip terminator
    if terminator.isEmpty then .noTerminator (lead ++ name)
    else .multiLine name attributes terminator
  | _ => .unreadable shown

/-- What a line is for, by what follows its name: attributes in brackets, or none, and the purpose.
-/
def ofName (lead name line rest : Bytes) : DataLine :=
  match rest with
  | 91 :: rest =>
    match Attribute.readList (rest.length + 1) rest with
    | none => .malformedAttributes rest
    | some (attributes, rest) => ofRest lead name attributes (lead ++ name) (Bytes.stripLeft rest)
  | rest => ofRest lead name [] line rest

/-- Reads one line; `includes` tells whether an include line counts as one. -/
def read (includes : Bool) (line : Bytes) : DataLine :=
  let s := line.stripLeft
  let lead := line.take (line.length - s.length)
  match s with
  | [] => .blank
  | 35 :: _ =>
    match Bytes.dropPrefix? "#include " s, includes with
    | some path, true => .inclusion (unquoted (Bytes.strip path))
    | _, _ => .blank
  | 125 :: rest =>
    if (Bytes.stripRight rest).isEmpty then .closing
    else .garbageAfterClosing (lead ++ Bytes.stripRight s)
  | s => ofName lead (s.takeWhile isNameByte) line (Bytes.stripLeft (s.dropWhile isNameByte))

end DataLine

/-- How include lines are treated: as an error, as comments, or by reading the file, this many
levels below the first one. -/
inductive Inclusion where
  | forbidden
  | ignored
  | followed (level : Nat)

namespace Inclusion

def counts : Inclusion → Bool
  | ignored => false
  | _ => true

def deepest : Nat := 50

end Inclusion

/-- The state of a reader: the tree so far, the text to come and the number of lines read. -/
structure ReadState (τ : Type) where
  root : τ
  text : Bytes
  line : Nat

/-- Where a reader is: in the text with this path, in a block that may be inside of others. -/
structure ReadPlace where
  path : Bytes
  here : Address
  outer : List Address

namespace ReadPlace

def blocks (p : ReadPlace) : List Address := p.here :: p.outer

/-- A failure passes through every block that is open, `own` says whether through the innermost one
too. -/
def noted (p : ReadPlace) (own line : Nat) (f : Failure) : Failure :=
  (List.replicate (p.outer.length + own) ("In file " ++ ReadFault.place p.path line)).foldl
    Failure.note f

end ReadPlace

/-- What is left to do after a line, or where the reading stopped. -/
inductive LineEnd (τ : Type) where
  | next (blocks : List Address) (st : ReadState τ)
  | fault (root : τ) (f : Failure)

namespace DataTree

variable {τ : Type} [DataTree τ]

/-- Assigns below the innermost block that is open. -/
def assignLine (p : ReadPlace) (name : Bytes) (a : Assignment) (st : ReadState τ) : LineEnd τ :=
  match assignAt st.root p.here name a with
  | (root, .error e) => .fault root (p.noted 1 st.line e.failure)
  | (root, .ok _) => .next p.blocks { st with root }

/-- What a line does. An inclusion reads its file at once, below the block it stands in. -/
def applyLine (includeFile : τ → Address → Bytes → τ × Except Failure Unit) (mode : Inclusion)
    (p : ReadPlace) (line : DataLine) (st : ReadState τ) : LineEnd τ :=
  match line with
  | .blank => .next p.blocks st
  | .inclusion file =>
    match mode with
    | .followed level =>
      if level < Inclusion.deepest then
        match includeFile st.root p.here file with
        | (root, .error f) => .fault root (p.noted 1 st.line f)
        | (root, .ok ()) => .next p.blocks { st with root }
      else .fault st.root (p.noted 0 st.line (ReadFault.includesTooDeep st.line).failure)
    | _ => .fault st.root (p.noted 0 st.line (ReadFault.includeInText st.line).failure)
  | .closing => .next p.outer st
  | .garbageAfterClosing shown =>
    .fault st.root (p.noted 0 st.line (ReadFault.trailingGarbage p.path st.line shown).failure)
  | .malformedAttributes text =>
    .fault st.root (p.noted 1 st.line (ReadFault.malformedAttributes text).failure)
  | .assignment name attributes value => assignLine p name { value := some value, attributes } st
  | .copy name attributes source =>
    assignLine p name { value := some ((valueAt? st.root [] source).getD []), attributes } st
  | .link name attributes target =>
    assignLine p name { value := some target, isLink := true, attributes } st
  | .opening name attributes =>
    match openAt st.root p.here name attributes with
    | (root, .error e) => .fault root (p.noted 1 st.line e.failure)
    | (root, .ok there) => .next (there :: p.blocks) { st with root }
  | .multiLine name attributes terminator =>
    let (value, count, rest) := readPieces terminator (st.text.length + 1) .empty st.text
    assignLine p name { value := some value, attributes }
      { st with text := rest, line := st.line + count }
  | .noTerminator shown =>
    .fault st.root (p.noted 0 st.line (ReadFault.noTerminator p.path st.line shown).failure)
  | .unreadable shown =>
    .fault st.root (p.noted 0 st.line (ReadFault.unreadable p.path st.line shown).failure)

/-- Reads lines into the innermost open block. `blocks` lists the open blocks, the innermost first;
at the closing of the last one reading ends. -/
def readLines (includeFile : τ → Address → Bytes → τ × Except Failure Unit) (mode : Inclusion)
    (path : Bytes) :
    (fuel : Nat) → (blocks : List Address) → ReadState τ → τ × Except Failure Unit
  | 0, _, st => (st.root, .ok ())
  | _, [], st => (st.root, .ok ())
  | fuel + 1, here :: outer, st =>
    if st.text.isEmpty then (st.root, .ok ())
    else
      let (line, rest) := st.text.cutAt (· == 10)
      match applyLine includeFile mode ⟨path, here, outer⟩ (.read mode.counts line)
        ⟨st.root, rest.getD [], st.line + 1⟩ with
      | .next blocks st => readLines includeFile mode path fuel blocks st
      | .fault root f => (root, .error f)

/-- Reads a text; it cannot include files, which is ignored or a fault. -/
def readText (ignoreIncludes : Bool) (root : τ) (start : Address) (text : Bytes) :
    τ × Except Failure Unit :=
  readLines (fun root _ _ => (root, .ok ())) (if ignoreIncludes then .ignored else .forbidden)
    "<string>" (text.length + 1) [start] ⟨root, text, 0⟩

/-- Reads a file into the node at `start`; `levels` more levels of files can be included. -/
def loadFileFrom (source : Source) : (levels : Nat) → τ → Address → Bytes → τ × Except Failure Unit
  | 0, root, _, _ => (root, .ok ())
  | levels + 1, root, start, path =>
    match source.load (plain root) start path with
    | .error f => (root, .error f)
    | .ok (path, text) =>
      readLines (loadFileFrom source levels) (.followed (Inclusion.deepest - levels)) path
        (text.length + 1) [start] ⟨root, text, 0⟩

/-- Reads a file and those that it includes. -/
def loadFile (source : Source) (root : τ) (start : Address) (path : Option Bytes) :
    τ × Except Failure Unit :=
  match path with
  | none => (root, .error ReadFault.noFile.failure)
  | some path => loadFileFrom source (Inclusion.deepest + 1) root start path

end DataTree

namespace Node

def loadFile (source : Source) (root : Node) (start : Address) (path : Option Bytes) :
    Node × Except Failure Unit :=
  DataTree.loadFile source root start path

def readText (ignoreIncludes : Bool) (root : Node) (start : Address) (text : Bytes) :
    Node × Except Failure Unit :=
  DataTree.readText ignoreIncludes root start text

end Node

end TemplateKit
