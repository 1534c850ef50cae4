import TemplateKit.Data.Lookup
import TemplateKit.Storage.FileSystem

/-!
# Where texts are loaded from

Texts come from a file system, where relative paths are first tried below each of the load paths
that the data tree lists under `hdf.loadpaths`, or from a table of named texts.
-/

namespace TemplateKit

/-- Where files come from: the file system, or texts that stand for files. -/
inductive Source where
  | disk (files : FileSystem)
  | table (texts : List (Bytes × Bytes))

namespace Source

def pathRoom : Nat := 512

/-- The directories that files are looked for in, as the data have them. -/
def loadPaths (root : Node) (start : Address) : List (Option Bytes) :=
  match root.locate? start "hdf.loadpaths" with
  | some there => there.node.children.map root.valueOf
  | none => []

/-- The first path that leads to something. Faults other than a missing file stop the search. -/
def firstExisting (files : FileSystem) : List Bytes → Except Failure (Option Bytes)
  | [] => .ok none
  | path :: more =>
    match files.stat path with
    | .ok _ => .ok (some path)
    | .error .noSuchFile => firstExisting files more
    | .error e => .error (.raiseSystem .system ("Stat of " ++ path ++ " failed") e)

/-- Finds a path in a file system, with `room` bytes for it. -/
def search (files : FileSystem) (root : Node) (start : Option Address) (path : Bytes) (room : Nat) :
    Except Failure Bytes := do
  let below := match start with
    | some start => loadPaths root start
    | none => []
  let candidates := below.map (fun d => orNull d ++ FileSystem.slash :: path) ++ [path]
  match ← firstExisting files (candidates.map (·.take (room - 1))) with
  | some found => pure found
  | none => .error (.raise .notFound ("Path " ++ path ++ " not found"))

/-- The path under which a text is known once it is found, and its content up to a zero byte. -/
def load (source : Source) (root : Node) (start : Address) (path : Bytes) :
    Except Failure (Bytes × Bytes) :=
  match source with
  | table texts =>
    match texts.find? (·.1 == path) with
    | some (_, text) => .ok (path, text.untilNul)
    | none => .error (.raise .notFound ("Virtual file " ++ path ++ " not found"))
  | disk files => do
    let path ← if path.head? = some FileSystem.slash then pure path
      else search files root (some start) path pathRoom
    let text ← files.load path
    pure (path, Bytes.untilNul text)

end Source

end TemplateKit
