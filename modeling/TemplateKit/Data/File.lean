import TemplateKit.Data.Writer
import TemplateKit.Storage.FileSystem

/-!
# Writing trees to files
-/

namespace TemplateKit.Node

/-- Writes a tree to a file. Where the file is refused no random number is used up. -/
def writeFile (n : Node) (files : FileSystem) (path : Bytes) (r : Random) :
    Except Failure FileSystem × Random :=
  let refused (e : SystemFault) :=
    (.error (.raiseSystem .io ("Unable to open " ++ path ++ " for writing") e), r)
  let (text, after) := n.write .pretty (some []) r
  match files.write path text with
  | .error e => refused e
  | .ok files => (.ok files, after)

end TemplateKit.Node
