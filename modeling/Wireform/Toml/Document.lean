import Wireform.Toml.Token

/-!
Flat TOML documents: keys with values, one on a line, no key twice. A value is a text, a whole
number of 64 bits, a truth value or a list of texts. The rest of the language, such as tables,
fractions and dates, is refused, and nothing is lost by that where no other value has a use.
-/

namespace Wireform.Toml

inductive Item where
  | text (s : String)
  | number (n : Int)
  | truth (b : Bool)
  | texts (list : List String)
  deriving DecidableEq, Repr

abbrev Document := List (String × Item)

/-- The rest of a list of texts. A comma may stand after the last one. -/
def listRest (cs : List Char) : Option (List String × List Char) := do
  match ← gap false cs with
  | ']' :: rest => return ([], rest)
  | rest =>
    let (s, rest) ← text rest
    match ← gap false rest with
    | ']' :: rest => return ([s], rest)
    | ',' :: rest =>
      if _h : rest.length < cs.length then
        let (list, rest) ← listRest rest
        return (s :: list, rest)
      else none
    | _ => none
termination_by cs.length

def isWordChar (c : Char) : Bool := isKeyChar c || c = '+'

def wordItem? (word : List Char) : Option Item :=
  if word = ['t', 'r', 'u', 'e'] then some (.truth true)
  else if word = ['f', 'a', 'l', 's', 'e'] then some (.truth false)
  else do
    let n ← number? word
    if Int64.minValue.toInt ≤ n ∧ n ≤ Int64.maxValue.toInt then return .number n else none

def item : Scan Item := fun cs =>
  match cs with
  | '[' :: cs => (listRest cs).map fun (list, rest) => (.texts list, rest)
  | '"' :: _ | '\'' :: _ => (text cs).map fun (s, rest) => (.text s, rest)
  | _ => (wordItem? (cs.takeWhile isWordChar)).map (·, cs.dropWhile isWordChar)

/-- A key and its value, with all up to the end of the line. -/
def entry (cs : List Char) : Option ((String × Item) × List Char) := do
  let (k, rest) ← key cs
  match skipSpaces rest with
  | '=' :: rest =>
    let (v, rest) ← item (skipSpaces rest)
    return ((k, v), ← lineEnd rest)
  | _ => none

/-- The entries of a text. Lines without an entry hold at most a comment. -/
def entries (cs : List Char) : Option Document :=
  match skipSpaces cs with
  | [] => some []
  | start =>
    match lineEnd start with
    | some rest => if _h : rest.length < cs.length then entries rest else none
    | none => do
      let (e, rest) ← entry start
      if _h : rest.length < cs.length then return e :: (← entries rest) else none
termination_by cs.length

/-- The document that a text spells. A byte order mark in front does not count. -/
def parse (s : String) : Option Document := do
  let document ← entries (match s.toList with
    | '\ufeff' :: cs => cs
    | cs => cs)
  if (document.map (·.1)).Nodup then return document else none

end Wireform.Toml
