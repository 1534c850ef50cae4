import TemplateKit.Data.File
import TemplateKit.Data.Overlay
import TemplateKit.Data.Reader

/-!
# Files that keep their versions

Each version of a file is a file of its own: the number of the version follows the path, behind a
comma. A log beside them, which is a data tree, tells for each version who made it, when and why.
Whoever changes the log holds a lock file.
-/

namespace TemplateKit

/-- The files of the versions, and the generator that the logs are written with. -/
structure VersionStore where
  files : FileSystem
  random : Random

namespace VersionStore

/-- Steps that use the store; a failure keeps what was done before. -/
abbrev Action := ExceptT Failure (StateM VersionStore)

/-- A path with something behind it, as far as there is room. -/
def beside (path : Bytes) (tail : Bytes) : Bytes := (path ++ "," ++ tail).take (Source.pathRoom - 1)

def logPath (path : Bytes) : Bytes := beside path "log"

def versionPath (path : Bytes) (version : Int) : Bytes := beside path (Numeral.ofInt version)

def lockMode : Nat := 0o777

/-- The directory of a path, if one is named in it. -/
def parent? (path : Bytes) : Option Bytes :=
  match path.reverse.dropWhile (· != FileSystem.slash) with
  | [] => none
  | _ :: before => some before.reverse

/-- Makes sure that the lock file of a path can be opened; its directory is made if it is
missing. -/
def lock (path : Bytes) : Action Unit := do
  let file := beside path "lock"
  let refused (e : SystemFault) : Action Unit :=
    throw (.raiseSystem .io ("Unable to open lock file " ++ file) e)
  let create : Action Unit := do
    let s ← get
    match s.files.write file [] with
    | .ok files => set { s with files }
    | .error e => refused e
  let s ← get
  match s.files.stat file with
  | .ok (.file _) => return
  | .ok (.directory _) => refused .isDirectory
  | .error .noSuchFile =>
    match (s.files.locateNew file), parent? file with
    | .error .noSuchFile, some directory =>
      let (files, made) := s.files.makeDirectories directory lockMode
      set { s with files }
      match made with
      | .ok () => create
      | .error f => throw f
    | _, _ => create
  | .error e => refused e

/-- The log of a path. -/
def readLog (path : Bytes) : Action Node := do
  match Node.root.loadFile (.disk (← get).files) [] (some (logPath path)) with
  | (log, .ok ()) => return log
  | (_, .error f) => throw f

/-- Replaces the log at once: it is written beside its place and then renamed. -/
def writeLog (path : Bytes) (log : Node) : Action Unit := do
  let temporary := beside path "log.tmp"
  let s ← get
  match log.writeFile s.files temporary s.random with
  | (.error f, random) =>
    set { s with random }
    throw f
  | (.ok files, random) =>
    match files.rename temporary (logPath path) with
    | .ok files => set { s with files, random }
    | .error e =>
      set { s with files, random }
      throw (.raiseSystem .io ("Unable to rename file " ++ temporary) e)

/-- The highest number of a version in a log, or a number to begin with. -/
def latest (log : Node) (start : Int) : Int :=
  ((log.find? "Versions").map (·.children)).getD [] |>.foldl
    (fun highest version => max highest (Numeral.toInt32 version.name).toInt) start

/-- Writes over the beginning of a file; what an older file had behind it stays. -/
def overwrite (files : FileSystem) (path text : Bytes) : Except SystemFault FileSystem :=
  match files.stat path with
  | .ok (.file old) => files.write path (text ++ old.drop text.length)
  | _ => files.write path text

/-- The log with what is to be known about a version. Refused names are not entered. -/
def note (log : Node) (version : Int) (user reason : Option Bytes) (time : Int) : Node :=
  let about (name : String) := "Versions." ++ Numeral.ofInt version ++ "." ++ ascii name
  let log := (log.set (about "Log") reason).1
  let log := (log.set (about "User") user).1
  (log.set (about "Date") (some (Numeral.ofInt time))).1

/-- The log of a path, an empty one if there is none yet. -/
def currentLog (path : Bytes) : Action Node := do
  match (readLog path).run (← get) with
  | (.ok log, _) => return log
  | (.error f, _) => if f.isA .notFound then return Node.root else throw f

/-- Saves a text as the next version and notes who saved it, why and when. -/
def save (path text : Bytes) (user reason : Option Bytes) (time : Int) : Action Unit := do
  lock path
  let log ← currentLog path
  let s ← get
  let version := latest log 0 + 1
  match overwrite s.files (versionPath path version) text with
  | .error e => throw (.raiseSystem .io ("Unable to create file " ++ versionPath path version) e)
  | .ok files =>
    set { s with files }
    writeLog path (note log version user reason time)

/-- A version of a file, the latest one for `-1`. -/
def load (path : Bytes) (version : Int) : Action Bytes := do
  let version ← if version = -1 then pure (latest (← readLog path) (-1)) else pure version
  match (← get).files.load (versionPath path version) with
  | .ok text => return Bytes.untilNul text
  | .error f => throw f

/-- Stores data about all versions in the log, which must be there. -/
def saveAbout (path : Bytes) (about : Node) : Action Unit := do
  lock path
  let log ← readLog path
  match log.copyTo (some []) (some "Meta") (some about) with
  | (log, .ok ()) => writeLog path log
  | (_, .error e) => throw e.failure

/-- The paths below a directory that have a log. -/
def list (path : Bytes) : Action (List Bytes) := do
  match (← get).files.stat path with
  | .ok (.directory es) =>
    let logs := (es.map (·.1)).filterMap fun name =>
      Bytes.dropPrefix? (ascii ",log").reverse name.reverse
    return ((logs.filter (!·.isEmpty)).map List.reverse).mergeSort Bytes.le
  | .ok (.file _) =>
    throw (.raiseSystem .io ("Unable to open directory " ++ path) .notDirectory)
  | .error .noSuchFile => throw (.raise .notFound ("Directory " ++ path ++ " doesn't exist"))
  | .error e => throw (.raiseSystem .io ("Unable to open directory " ++ path) e)

end VersionStore

end TemplateKit
