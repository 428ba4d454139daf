import Wireform.Text.Chunk

/-!
A folder with files in it, as far as reading by path goes. Paths are texts with slashes between
their parts; a part is the name of a folder or a file, a dot for the same folder or two dots for
the one above. What lies outside the folder cannot be read.
-/

namespace Wireform

namespace Path

def isAbsolute (path : String) : Bool := path.startsWith "/"

def join (folder path : String) : String :=
  if isAbsolute path then path
  else if folder.isEmpty || folder.endsWith "/" then folder ++ path
  else folder ++ "/" ++ path

/-- Parts that lead nowhere at the end of a path, given backwards. -/
def dropIdle (parts : List String) : List String := parts.dropWhile fun p => p = "" || p = "."

def parent (path : String) : String :=
  let parts := dropIdle (dropIdle (path.splitOn "/").reverse).tail
  "/".intercalate parts.reverse

end Path

structure Folder where
  /-- The path of the folder itself. -/
  root : String
  /-- Files by their paths inside the folder, given in parts. -/
  files : List (List String × List UInt8)

namespace Folder

/-- A folder with files given by their paths inside it. -/
def ofFiles (root : String) (files : List (String × List UInt8)) : Folder where
  root
  files := files.map fun (path, content) =>
    ((path.splitOn "/").filter fun p => p ≠ "" && p ≠ ".", content)

def isFolder (f : Folder) (place : List String) : Bool :=
  place.isEmpty || f.files.any fun (path, _) => place.isPrefixOf path && place.length < path.length

/-- The file that is reached from a folder by the parts of a path. -/
def find? (f : Folder) : (place : List String) → (parts : List String) → Option (List UInt8)
  | _, [] => none
  | place, part :: rest =>
    if part = "" ∨ part = "." then find? f place rest
    else if part = ".." then if place.isEmpty then none else find? f place.dropLast rest
    else
      let place := place ++ [part]
      if f.isFolder place then find? f place rest
      else if rest.isEmpty then f.files.lookup place
      else none

def read? (f : Folder) (path : String) : Option String := do
  match path.toList.drop f.root.length with
  | '/' :: rest =>
    if path.startsWith f.root then
      Text.ofBytes? (← f.find? [] ((String.ofList rest).splitOn "/"))
    else none
  | _ => none

end Folder

end Wireform
