import Wireform.Bits
import Wireform.Buffer.Basic

/-!
Lists of truth values in chunks of one, two or four bytes. A chunk starts with the bits that tell
its shape, then says how many values it carries, then carries them from high bits to low; its last
bit says whether another chunk follows. The absent list and the empty one are the same byte.

Bits left unused are zero. A chunk is chosen so that what remains ends up in as few bytes as
possible: up to three values in one byte, up to ten in two, up to twenty-five in four.
-/

namespace Wireform.Compact.Flags

inductive Shape where
  | single
  | double
  | quad
  deriving DecidableEq, Repr

namespace Shape

def width : Shape → Nat
  | single => 1
  | double => 2
  | quad => 4

/-- The bits that tell the shape. -/
def mark : Shape → List Bool
  | single => [false, true]
  | double => [true, false]
  | quad => [true, true]

/-- The number of bits of the count, which follows the mark. -/
def countBits : Shape → Nat
  | single => 2
  | double => 3
  | quad => 4

/-- The least number of values; a count of one stands for it. -/
def least : Shape → Nat
  | single => 1
  | double => 4
  | quad => 11

/-- The greatest number of values, for each of which there is a bit. -/
def most : Shape → Nat
  | single => 3
  | double => 10
  | quad => 25

def select (n : Nat) : Shape := if n ≤ 3 then single else if n ≤ 14 then double else quad

theorem most_pos (s : Shape) : 0 < s.most := by cases s <;> decide

end Shape

/-- The byte of a list that has no values. -/
def nothing : UInt8 := 0x40

/-- A chunk as bits: its mark, its count, its values, the bits left unused, and whether more values
follow. -/
def chunkBits (s : Shape) (values : List Bool) (more : Bool) : List Bool :=
  s.mark ++ Bits.ofNat s.countBits (values.length + 1 - s.least) ++ values ++
    List.replicate (s.most - values.length) false ++ [more]

def encodedLength (n : Nat) : Nat :=
  if n = 0 then 1
  else
    let s := Shape.select n
    if n ≤ s.most then s.width else s.width + encodedLength (n - s.most)
termination_by n
decreasing_by
  have := (Shape.select n).most_pos
  omega

def chunks (values : List Bool) : List (List UInt8) :=
  if _h : values.length = 0 then []
  else
    let s := Shape.select values.length
    let rest := values.drop s.most
    Bits.toBytes (chunkBits s (values.take s.most) (!rest.isEmpty)) :: chunks rest
termination_by values.length
decreasing_by
  have := (Shape.select values.length).most_pos
  simp only [List.length_drop]
  omega

/-- Writes each chunk on its own, so that a buffer too small for all keeps the first ones. -/
def writeChunks : List (List UInt8) → Action Buffer Unit
  | [] => return ()
  | chunk :: rest => do
    Buffer.writeBytes chunk
    writeChunks rest

/-- The absent list is written like the empty one. -/
def write (values : Option (List Bool)) : Action Buffer Unit :=
  match values.getD [] with
  | [] => Buffer.writeOctet nothing
  | values => writeChunks (chunks values)

/-- What the first byte of a chunk announces. -/
inductive Header where
  | nothing
  | chunk (shape : Shape)
  | illegal
  deriving DecidableEq, Repr

/-- The two highest bits tell the shape. The one-byte shape without a count and without values is
the absent list. -/
def Header.ofBits : List Bool → Header
  | true :: true :: _ => .chunk .quad
  | true :: false :: _ => .chunk .double
  | false :: true :: rest => if rest.dropLast.contains true then .chunk .single else .nothing
  | _ => .illegal

/-- What the bits of a chunk say: its values, and whether it is followed by another. -/
def chunkContent (s : Shape) (bits : List Bool) : List Bool × Bool :=
  let bits := bits.drop s.mark.length
  let count := Bits.toNat (bits.take s.countBits) + s.least - 1
  let slots := bits.drop s.countBits
  (slots.take count, (slots.drop s.most).contains true)

/-- Reads chunks after the values already read. Each takes at least one byte, so there are no more
of them than `fuel`, the number of bytes at hand. -/
def readChunks : (fuel : Nat) → (before : List Bool) → Action Buffer (Option (List Bool))
  | 0, _ => fun b => (.error (b.underflow "peek_byte" 1), b)
  | fuel + 1, before => do
    let header ← Buffer.peekOctet
    match Header.ofBits (Bits.ofBytes [header]) with
    | .illegal =>
      Action.fail
        (Fault.malformed "bit set"
          s!"illegal chunk header {Text.binaryNumeral 8 header.toNat}")
    | .nothing =>
      if before.isEmpty then
        let _ ← Buffer.readOctet
        return none
      else Action.fail (Fault.malformed "bit set" "null chunk after a continuation flag")
    | .chunk s =>
      let (values, more) := chunkContent s (Bits.ofBytes (← Buffer.readBytes s.width))
      let values := before ++ values
      if more then readChunks fuel values else return some values

def read : Action Buffer (Option (List Bool)) := do
  readChunks ((← Action.get).readableBytes + 1) []

end Wireform.Compact.Flags
