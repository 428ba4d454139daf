/-!
The words of TOML, as far as settings use them: keys, texts and whole numbers, with the blanks and
comments between them. A scanner takes what it recognises from the front of the characters and
returns it with the rest; where it recognises nothing it fails.
-/

namespace Wireform.Toml

abbrev Scan (α : Type) := List Char → Option (α × List Char)

/-! ### Blanks and comments -/

/-- White space inside a line. -/
def isSpace (c : Char) : Bool := c = ' ' || c = '\t'

/-- Characters that stand for themselves in texts and comments: no controls but the tab. -/
def isPlain (c : Char) : Bool := c = '\t' || (0x20 ≤ c.toNat && c.toNat ≠ 0x7F)

def skipSpaces (cs : List Char) : List Char := cs.dropWhile isSpace

/-- What follows a comment, if there is one, and else all. -/
def skipComment : List Char → List Char
  | '#' :: cs => cs.dropWhile isPlain
  | cs => cs

/-- Goes on to the next line, past a comment; nothing else may stand before the end. -/
def lineEnd (cs : List Char) : Option (List Char) :=
  match skipComment (skipSpaces cs) with
  | [] => some []
  | '\n' :: cs => some cs
  | '\r' :: '\n' :: cs => some cs
  | _ => none

/-- Skips blanks, line ends and comments between the items of a list. -/
def gap : (inComment : Bool) → List Char → Option (List Char)
  | _, [] => some []
  | _, '\n' :: cs => gap false cs
  | _, '\r' :: '\n' :: cs => gap false cs
  | true, c :: cs => if isPlain c then gap true cs else none
  | false, c :: cs =>
    if c = '#' then gap true cs
    else if isSpace c then gap false cs
    else some (c :: cs)

/-! ### Texts -/

def hexValue? (c : Char) : Option Nat :=
  if '0' ≤ c ∧ c ≤ '9' then some (c.toNat - '0'.toNat)
  else if 'a' ≤ c ∧ c ≤ 'f' then some (c.toNat - 'a'.toNat + 10)
  else if 'A' ≤ c ∧ c ≤ 'F' then some (c.toNat - 'A'.toNat + 10)
  else none

def charOfHex? (digits : List Char) : Option Char := do
  let n ← digits.foldlM (fun n c => (n * 16 + ·) <$> hexValue? c) 0
  if n.isValidChar then return Char.ofNat n else none

/-- The character that a letter after a backslash stands for. -/
def shorthand? : Char → Option Char
  | 'b' => some '\x08'
  | 't' => some '\t'
  | 'n' => some '\n'
  | 'f' => some '\x0c'
  | 'r' => some '\r'
  | '"' => some '"'
  | '\\' => some '\\'
  | _ => none

def prepend (c : Char) : Option (List Char × List Char) → Option (List Char × List Char)
  | some (text, rest) => some (c :: text, rest)
  | none => none

/-- The rest of a text in double quotation marks. -/
def quotedText : Scan (List Char)
  | [] => none
  | '"' :: cs => some ([], cs)
  | '\\' :: 'u' :: a :: b :: c :: d :: cs => do
    prepend (← charOfHex? [a, b, c, d]) (quotedText cs)
  | '\\' :: 'U' :: a :: b :: c :: d :: e :: f :: g :: h :: cs => do
    prepend (← charOfHex? [a, b, c, d, e, f, g, h]) (quotedText cs)
  | '\\' :: c :: cs => do prepend (← shorthand? c) (quotedText cs)
  | c :: cs => if isPlain c && c ≠ '\\' then prepend c (quotedText cs) else none

/-- The rest of a text in single quotation marks, where a backslash is a character like others. -/
def rawText : Scan (List Char)
  | [] => none
  | '\'' :: cs => some ([], cs)
  | c :: cs => if isPlain c then prepend c (rawText cs) else none

/-- Where in a text of several lines a scanner is. -/
inductive Place where
  | text
  /-- Between a backslash and the end of its line. -/
  | lineTail
  /-- At the white space after a line that a backslash ended, which is left out. -/
  | margin
  deriving DecidableEq

/-- The rest of a text in three double quotation marks. Up to two such marks may stand anywhere in
it, also right before the end. -/
def longQuotedText : Place → Scan (List Char)
  | _, [] => none
  | .lineTail, '\n' :: cs => longQuotedText .margin cs
  | .lineTail, '\r' :: '\n' :: cs => longQuotedText .margin cs
  | .lineTail, c :: cs => if isSpace c then longQuotedText .lineTail cs else none
  | .margin, '\n' :: cs => longQuotedText .margin cs
  | .margin, '\r' :: '\n' :: cs => longQuotedText .margin cs
  | .margin, ' ' :: cs => longQuotedText .margin cs
  | .margin, '\t' :: cs => longQuotedText .margin cs
  | _, '"' :: '"' :: '"' :: '"' :: '"' :: cs => some (['"', '"'], cs)
  | _, '"' :: '"' :: '"' :: '"' :: cs => some (['"'], cs)
  | _, '"' :: '"' :: '"' :: cs => some ([], cs)
  | _, '\\' :: 'u' :: a :: b :: c :: d :: cs => do
    prepend (← charOfHex? [a, b, c, d]) (longQuotedText .text cs)
  | _, '\\' :: 'U' :: a :: b :: c :: d :: e :: f :: g :: h :: cs => do
    prepend (← charOfHex? [a, b, c, d, e, f, g, h]) (longQuotedText .text cs)
  | _, '\\' :: '\n' :: cs => longQuotedText .margin cs
  | _, '\\' :: '\r' :: '\n' :: cs => longQuotedText .margin cs
  | _, '\\' :: c :: cs =>
    if isSpace c then longQuotedText .lineTail cs
    else do prepend (← shorthand? c) (longQuotedText .text cs)
  | _, '\r' :: '\n' :: cs => prepend '\n' (longQuotedText .text cs)
  | _, c :: cs =>
    if c = '\n' || (isPlain c && c ≠ '\\') then prepend c (longQuotedText .text cs) else none

def longRawText : Scan (List Char)
  | [] => none
  | '\'' :: '\'' :: '\'' :: '\'' :: '\'' :: cs => some (['\'', '\''], cs)
  | '\'' :: '\'' :: '\'' :: '\'' :: cs => some (['\''], cs)
  | '\'' :: '\'' :: '\'' :: cs => some ([], cs)
  | '\r' :: '\n' :: cs => prepend '\n' (longRawText cs)
  | c :: cs => if c = '\n' || isPlain c then prepend c (longRawText cs) else none

/-- A line end right after the opening marks of a long text is left out. -/
def skipNewline : List Char → List Char
  | '\n' :: cs => cs
  | '\r' :: '\n' :: cs => cs
  | cs => cs

/-- A text in any of the four kinds of quotation marks. -/
def text : Scan String := fun cs => do
  let (s, rest) ← match cs with
    | '"' :: '"' :: '"' :: cs => longQuotedText .text (skipNewline cs)
    | '\'' :: '\'' :: '\'' :: cs => longRawText (skipNewline cs)
    | '"' :: cs => quotedText cs
    | '\'' :: cs => rawText cs
    | _ => none
  return (String.ofList s, rest)

/-! ### Keys and numbers -/

def isKeyChar (c : Char) : Bool := c.isAlphanum || c = '_' || c = '-'

def key : Scan String := fun cs =>
  match cs with
  | '"' :: cs => (quotedText cs).map fun (s, rest) => (String.ofList s, rest)
  | '\'' :: cs => (rawText cs).map fun (s, rest) => (String.ofList s, rest)
  | _ =>
    let s := cs.takeWhile isKeyChar
    if s.isEmpty then none else some (String.ofList s, cs.dropWhile isKeyChar)

/-- The number that digits of a base spell. Between two digits there may be one underscore. -/
def digits? (base : Nat) : (afterDigit : Bool) → (n : Nat) → List Char → Option Nat
  | true, n, [] => some n
  | false, _, [] => none
  | afterDigit, n, c :: cs =>
    if c = '_' then if afterDigit then digits? base false n cs else none
    else match hexValue? c with
      | some d => if d < base then digits? base true (n * base + d) cs else none
      | none => none

/-- The size of a number without its sign. In base ten a zero stands alone. -/
def magnitude? : List Char → Option Nat
  | ['0'] => some 0
  | '0' :: _ => none
  | cs => digits? 10 false 0 cs

/-- The number that a word spells: in base ten with an optional sign, or in base sixteen, eight or
two without one. -/
def number? : List Char → Option Int
  | '0' :: 'x' :: cs => Int.ofNat <$> digits? 16 false 0 cs
  | '0' :: 'o' :: cs => Int.ofNat <$> digits? 8 false 0 cs
  | '0' :: 'b' :: cs => Int.ofNat <$> digits? 2 false 0 cs
  | '+' :: cs => Int.ofNat <$> magnitude? cs
  | '-' :: cs => (fun n => -Int.ofNat n) <$> magnitude? cs
  | cs => Int.ofNat <$> magnitude? cs

end Wireform.Toml
