import Wireform.Settings.Document
import Wireform.Folder
import Wireform.Roster

/-!
Settings from files. A settings file may name another file that lists types; its path is taken as
seen from the folder of the settings file.
-/

namespace Wireform.Settings

/-- The text of a file, which has to be there. -/
def readFile (folder : Folder) (path : String) : Except Failure String :=
  match folder.read? path with
  | some text => .ok text
  | none => .error (Fault.unreadable path)

def ofFile (folder : Folder) (path : String) : Except Failure Settings := do
  let s ← ofText (← readFile folder path)
  return { s with manifest := s.manifest.map (Path.join (Path.parent path)) }

/-- The types that are wanted: those of the settings, then those of the file that they name. -/
def roster (folder : Folder) (s : Settings) : Except Failure Roster := do
  let own := Roster.ofList s.types
  match s.manifest with
  | none => return own
  | some path => return own.extend (Roster.parse (← readFile folder path))

end Wireform.Settings
