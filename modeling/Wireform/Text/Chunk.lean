/-!
Text as bytes, and its division into chunks for the wire. A chunk never ends inside a character,
and it is as long as the limit on its bytes allows.
-/

namespace Wireform.Text

def bytesOf (cs : List Char) : List UInt8 := cs.flatMap String.utf8EncodeChar

def bytes (s : String) : List UInt8 := bytesOf s.toList

def ofBytes? (b : List UInt8) : Option String := String.fromUTF8? b.toByteArray

theorem toByteArray_bytes (s : String) : (bytes s).toByteArray = s.toByteArray :=
  String.utf8Encode_toList

theorem ofBytes?_bytes (s : String) : ofBytes? (bytes s) = some s := by
  rw [ofBytes?, toByteArray_bytes, String.fromUTF8?, dif_pos s.isValidUTF8]
  rfl

/-- Bytes that are a text are the form of that text and of no other. -/
theorem bytes_of_ofBytes? {b : List UInt8} {s : String} (h : ofBytes? b = some s) :
    bytes s = b := by
  rw [ofBytes?, String.fromUTF8?] at h
  split at h
  · have array : s.toByteArray = b.toByteArray := by rw [← Option.some.inj h]; rfl
    rw [← toByteArray_bytes] at array
    simpa using congrArg (·.data.toList) array
  · cases h

def chunkLimit : Nat := 16384

/-- The longest first part that takes at most `room` bytes, and the rest. -/
def cut (room : Nat) : List Char → List Char × List Char
  | [] => ([], [])
  | c :: cs =>
    if c.utf8Size ≤ room then
      let (first, rest) := cut (room - c.utf8Size) cs
      (c :: first, rest)
    else ([], c :: cs)

theorem cut_append (room : Nat) (cs : List Char) : (cut room cs).1 ++ (cut room cs).2 = cs := by
  induction cs generalizing room with
  | nil => rfl
  | cons c cs ih =>
    unfold cut
    split
    · simp [ih]
    · rfl

/-- Any chunk takes in at least one character. -/
theorem length_cut_cons (c : Char) (cs : List Char) :
    (cut chunkLimit (c :: cs)).2.length < (c :: cs).length := by
  have hc : c.utf8Size ≤ chunkLimit := Nat.le_trans c.utf8Size_le_four (by decide)
  have := congrArg List.length (cut_append (chunkLimit - c.utf8Size) cs)
  simp only [List.length_append] at this
  simp only [cut, hc, if_true, List.length_cons]
  omega

/-- A text in chunks; the empty text has none. -/
def chunks : List Char → List (List Char)
  | [] => []
  | c :: cs =>
    (cut chunkLimit (c :: cs)).1 :: chunks (cut chunkLimit (c :: cs)).2
termination_by cs => cs.length
decreasing_by exact length_cut_cons c cs

end Wireform.Text
