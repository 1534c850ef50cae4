import TemplateKit.Failure

/-!
# A file system as a value

A directory is a list of named entries. A path that begins with a slash starts at the root, and any
other one at the working directory.
-/

namespace TemplateKit

/-- A file, or a directory with what is in it. -/
inductive Entry where
  | file (content : Bytes)
  | directory (entries : List (Bytes × Entry))

namespace Entry

def entries : Entry → List (Bytes × Entry)
  | file _ => []
  | directory es => es

/-- The entry under a name. -/
def child? (e : Entry) (name : Bytes) : Option Entry :=
  (e.entries.find? (·.1 == name)).map (·.2)

/-- The entry that names lead to, from directory to directory. -/
def get? : Entry → List Bytes → Option Entry
  | e, [] => some e
  | e, name :: rest => (e.child? name).bind (·.get? rest)

/-- Puts an entry under a name, in the place of one that has it or behind the others. -/
def setChild (e : Entry) (name : Bytes) (new : Entry) : Entry :=
  let es := e.entries
  if es.any (·.1 == name) then
    directory (es.map fun p => if p.1 == name then (name, new) else p)
  else directory (es ++ [(name, new)])

/-- Puts an entry where names lead to. Directories that are missing on the way are made. -/
def set : Entry → List Bytes → Entry → Entry
  | _, [], new => new
  | e, name :: rest, new => e.setChild name (((e.child? name).getD (directory [])).set rest new)

/-- Takes out the entry that names lead to. -/
def erase : Entry → List Bytes → Entry
  | e, [] => e
  | e, [name] => directory (e.entries.filter (·.1 != name))
  | e, name :: rest =>
    match e.child? name with
    | some c => e.setChild name (c.erase rest)
    | none => e

end Entry

/-- A file system, as a process sees it. -/
structure FileSystem where
  root : Entry
  /-- The working directory. -/
  home : List Bytes

namespace FileSystem

/-- An empty working directory, with nothing beside it. -/
def empty : FileSystem := ⟨.directory [("work", .directory [])], ["work"]⟩

def longestName : Nat := 255

def longestPath : Nat := 4095

def slash : UInt8 := '/'

/-- Where a path starts. -/
def start (fs : FileSystem) (path : Bytes) : List Bytes :=
  if path.head? = some slash then [] else fs.home

/-- The place that the components of a path lead to; `place` is where they start. -/
def descend (fs : FileSystem) : List Bytes → (place : List Bytes) → Except SystemFault (List Bytes)
  | [], place => .ok place
  | name :: rest, place =>
    match fs.root.get? place with
    | none => .error .noSuchFile
    | some (.file _) => .error .notDirectory
    | some (.directory es) =>
      if name.isEmpty || name == "." then fs.descend rest place
      else if name == ".." then fs.descend rest place.dropLast
      else if name.length > longestName then .error .nameTooLong
      else if es.any (·.1 == name) then fs.descend rest (place ++ [name])
      else .error .noSuchFile

/-- The place that a path leads to. -/
def locate (fs : FileSystem) (path : Bytes) : Except SystemFault (List Bytes) :=
  if path.isEmpty then .error .noSuchFile
  else if path.length > longestPath then .error .nameTooLong
  else fs.descend (path.splitByte slash) (fs.start path)

/-- The directory and the name that an entry is made under by its path. -/
def locateNew (fs : FileSystem) (path : Bytes) : Except SystemFault (List Bytes × Bytes) :=
  let names := (path.splitByte slash).reverse.dropWhile List.isEmpty
  match names with
  | [] => .error .noSuchFile
  | name :: before =>
    if name.length > longestName then .error .nameTooLong
    else do
      let place ← fs.descend before.reverse (fs.start path)
      match fs.root.get? place with
      | some (.directory _) => pure (place, name)
      | _ => .error .notDirectory

/-- What a path leads to. -/
def stat (fs : FileSystem) (path : Bytes) : Except SystemFault Entry := do
  let place ← fs.locate path
  match fs.root.get? place with
  | some e => pure e
  | none => .error .noSuchFile

/-- The content of a file. -/
def load (fs : FileSystem) (path : Bytes) : Except Failure Bytes :=
  match fs.stat path with
  | .error .noSuchFile => .error (.raise .notFound ("File " ++ path ++ " not found"))
  | .error e => .error (.raiseSystem .system ("Unable to stat file " ++ path) e)
  | .ok (.directory _) =>
    .error (.raiseSystem .system ("Unable to read file " ++ path) .isDirectory)
  | .ok (.file content) => .ok content

/-- Writes a file, in the place of an old one or a new one in a directory that exists. -/
def write (fs : FileSystem) (path content : Bytes) : Except SystemFault FileSystem :=
  match fs.locate path with
  | .ok place =>
    match fs.root.get? place with
    | some (.directory _) => .error .isDirectory
    | _ => .ok { fs with root := fs.root.set place (.file content) }
  | .error .noSuchFile => do
    let (place, name) ← fs.locateNew path
    if path.getLast? = some slash then .error .isDirectory
    else pure { fs with root := fs.root.set (place ++ [name]) (.file content) }
  | .error e => .error e

def save (fs : FileSystem) (path content : Bytes) : Except Failure FileSystem :=
  (fs.write path content).mapError (.raiseSystem .io ("Unable to create file " ++ path))

/-- Puts a file where a path leads to, with the directories on the way. -/
def place (fs : FileSystem) (path content : Bytes) : FileSystem :=
  let names := (path.splitByte slash).filter fun n : Bytes => !n.isEmpty && n != "."
  { fs with root := fs.root.set (fs.start path ++ names) (.file content) }

def ofFiles (files : List (Bytes × Bytes)) : FileSystem :=
  files.foldl (fun fs f => fs.place f.1 f.2) empty

/-- Makes a directory in one that exists. -/
def makeDirectory (fs : FileSystem) (path : Bytes) : Except SystemFault FileSystem :=
  match fs.locate path with
  | .ok _ => .error .fileExists
  | .error .noSuchFile => do
    let (place, name) ← fs.locateNew path
    pure { fs with root := fs.root.set (place ++ [name]) (.directory []) }
  | .error e => .error e

/-- The parts of a path that end before a slash, the shortest first. -/
def leadingPaths (path : Bytes) : List Bytes :=
  let path := if path.getLast? = some slash then path else path ++ [slash]
  ((List.range path.length).filter fun k => k > 0 && path[k]? == some slash).map path.take

/-- Makes the directories that are missing on a path. Those made before a failure stay. -/
def makeDirectories (fs : FileSystem) (path : Bytes) (mode : Nat) :
    FileSystem × Except Failure Unit :=
  go fs (leadingPaths path)
where
  go (fs : FileSystem) : List Bytes → FileSystem × Except Failure Unit
    | [] => (fs, .ok ())
    | p :: more =>
      match fs.makeDirectory p with
      | .ok fs => go fs more
      | .error .fileExists => go fs more
      | .error e =>
        (fs, .error (.raiseSystem .system ("ne_mkdirs: mkdir(" ++ p ++ ", " ++
          Numeral.ofNatHex mode ++ ") failed") e))

/-- The names in a directory, in order. -/
def list (fs : FileSystem) (path : Bytes) : Except Failure (List Bytes) :=
  match fs.stat path with
  | .ok (.directory es) => .ok ((es.map (·.1)).mergeSort Bytes.le)
  | .ok (.file _) => .error (.raiseSystem .io ("Unable to opendir " ++ path) .notDirectory)
  | .error e => .error (.raiseSystem .io ("Unable to opendir " ++ path) e)

/-- Gives a file a new path. -/
def rename (fs : FileSystem) (path new : Bytes) : Except SystemFault FileSystem := do
  let place ← fs.locate path
  match fs.root.get? place with
  | some (.file content) => write { fs with root := fs.root.erase place } new content
  | _ => .error .noSuchFile

/-- Removes a directory with all that is in it; one that does not exist is no failure. -/
def removeDirectory (fs : FileSystem) (path : Bytes) : FileSystem × Except Failure Unit :=
  match fs.locate path with
  | .error .noSuchFile => (fs, .ok ())
  | .error e => (fs, .error (.raiseSystem .system ("Unable to stat file " ++ path) e))
  | .ok place =>
    match fs.root.get? place with
    | some (.directory _) =>
      let last := ((path.splitByte slash).reverse.dropWhile List.isEmpty).head?.getD []
      let refused (e : SystemFault) :=
        ({ fs with root := fs.root.set place (.directory []) },
          .error (Failure.raiseSystem .system ("Unable to rmdir " ++ path) e))
      if last == "." then refused .invalidArgument
      else if last == ".." then refused .notEmpty
      else ({ fs with root := fs.root.erase place }, .ok ())
    | _ => (fs, .error (.raise .assertion ("Path " ++ path ++ " is not a directory")))

end FileSystem

end TemplateKit
