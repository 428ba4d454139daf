import Wireform.Text.Blank

/-!
A roster lists the names of the types that a conversation is to know, each once, in the order in
which they were first named. As text it has one name on a line; from a number sign on a line is a
comment, and white space around a name does not count.
-/

namespace Wireform

structure Roster where
  names : List String := []
  deriving DecidableEq, Repr

namespace Roster

def push (r : Roster) (name : String) : Roster :=
  if name ∈ r.names then r else ⟨r.names ++ [name]⟩

def ofList (names : List String) : Roster := names.foldl push {}

def extend (r other : Roster) : Roster := other.names.foldl push r

def size (r : Roster) : Nat := r.names.length

/-- The lines of a text, without the line feeds that end them. -/
def lines : List Char → List (List Char)
  | [] => []
  | c :: cs =>
    if c = '\n' then [] :: lines cs
    else match lines cs with
      | [] => [[c]]
      | line :: rest => (c :: line) :: rest

/-- What a line names, once its comment and the white space around the rest are gone. -/
def nameOf (line : List Char) : List Char :=
  Text.trim (line.takeWhile (· ≠ '#'))

def parse (text : String) : Roster :=
  let names := ((lines text.toList).map nameOf).filter (! ·.isEmpty)
  ofList (names.map String.ofList)

end Roster

end Wireform
