import Wireform.Action
import Wireform.BigEndian
import Wireform.Text.Numeral

/-!
A byte buffer with two cursors over a storage that it may share with others. Bytes are appended at
the writer, consumed at the reader, and the storage grows as writing needs it, up to a limit that
is never passed: a write that would pass it fails and changes nothing.

The storage is present until it is given up. A counter says how often it was locked and not
released again; the release that finds it at zero gives the storage up, for everyone that shares
it and for ever.
-/

namespace Wireform

/-- Storage with its lock counter. The counter falls below zero when the storage is given up. -/
structure Region where
  storage : Option (Array UInt8)
  locks : Int := 0
  deriving DecidableEq, Repr, Inhabited

/-- A region as one user sees it: its own cursors and its own limit. -/
structure Buffer where
  region : Region
  reader : Nat
  writer : Nat
  limit : Nat
  deriving DecidableEq, Repr, Inhabited

/-- Lays `data` over the bytes from `start` on. -/
def overwrite (bytes : Array UInt8) (start : Nat) : List UInt8 → Array UInt8
  | [] => bytes
  | b :: data => overwrite (bytes.setIfInBounds start b) (start + 1) data

@[simp] theorem size_overwrite (bytes : Array UInt8) (start : Nat) (data : List UInt8) :
    (overwrite bytes start data).size = bytes.size := by
  induction data generalizing bytes start with
  | nil => rfl
  | cons b data ih => simp [overwrite, ih]

namespace Region

def zeroed (size : Nat) : Region := { storage := some (Array.replicate size 0) }

def ofBytes (bytes : List UInt8) : Region := { storage := some bytes.toArray }

/-- The size of the storage, none of which is left once it is given up. -/
def capacity (r : Region) : Nat := (r.storage.map Array.size).getD 0

/-- The next release gives the storage up. -/
def releasable (r : Region) : Bool := r.locks == 0

def released (r : Region) : Bool := r.locks < 0

end Region

namespace Buffer

/-- No buffer grows beyond what a length word can say. -/
def maxLimit : Nat := 2147483647

/-- The least size that growth aims at. -/
def minGrowth : Nat := 64

def create (initial limit : Nat) : Buffer :=
  let limit := min limit maxLimit
  ⟨Region.zeroed (min initial limit), 0, 0, limit⟩

def ofBytes (bytes : List UInt8) : Buffer :=
  ⟨Region.ofBytes bytes, 0, bytes.length, max maxLimit bytes.length⟩

def capacity (b : Buffer) : Nat := b.region.capacity

def readable (b : Buffer) : Bool := b.reader < b.writer

def writable (b : Buffer) : Bool := b.writer < b.limit

def readableBytes (b : Buffer) : Nat := b.writer - b.reader

def writableBytes (b : Buffer) : Nat := b.limit - b.writer

def clear (b : Buffer) : Buffer := { b with reader := 0, writer := 0 }

def describe (b : Buffer) : String :=
  s!"MemoryBuffer \x7b reader_index: {b.reader}, writer_index: {b.writer}, " ++
    s!"capacity: {b.capacity}, max_capacity: {b.limit}, lock_count: {b.region.locks} \x7d"

/-- What a write needs of the storage: at least `required` bytes, at least doubled, at most
`limit`. A storage that is large enough stays as it is. -/
def grown (bytes : Array UInt8) (required limit : Nat) : Array UInt8 :=
  if required ≤ bytes.size then bytes
  else
    let size := min (max required (max (bytes.size * 2) minGrowth)) limit
    bytes ++ Array.replicate (size - bytes.size) 0

def slice (bytes : Array UInt8) (start stop : Nat) : Except Failure (List UInt8) :=
  if start ≤ stop ∧ stop ≤ bytes.size then .ok (bytes.extract start stop).toList
  else .error (Fault.stray stop bytes.size)

/-- The complaint that `requested` bytes cannot be read. -/
def underflow (b : Buffer) (operation : String) (requested : Nat) : Fault :=
  .outOfBounds operation b.reader requested b.readableBytes

def storage : Action Buffer (Array UInt8) := fun b =>
  match b.region.storage with
  | some bytes => (.ok bytes, b)
  | none => (.error Fault.released, b)

/-- Appends bytes at the writer. -/
def put (operation : String) (data : List UInt8) : Action Buffer Unit
  | ⟨⟨some bytes, locks⟩, reader, writer, limit⟩ =>
    if limit < writer + data.length then
      (.error (Fault.outOfBounds operation writer data.length (limit - writer)),
        ⟨⟨some bytes, locks⟩, reader, writer, limit⟩)
    else
      (.ok (),
        ⟨⟨some (overwrite (grown bytes (writer + data.length) limit) writer data), locks⟩,
          reader, writer + data.length, limit⟩)
  | b => (.error Fault.released, b)

/-- Consumes `n` bytes at the reader. -/
def take (operation : String) (n : Nat) : Action Buffer (List UInt8) := fun b =>
  if b.readableBytes < n then (.error (b.underflow operation n), b)
  else match b.region.storage with
    | none => (.error Fault.released, b)
    | some bytes =>
      match slice bytes b.reader (b.reader + n) with
      | .ok data => (.ok data, { b with reader := b.reader + n })
      | .error e => (.error e, b)

/-- Asks for memory for `n` bytes that are to be read. -/
def reserve (n : Nat) : Action Buffer Unit := fun b =>
  if b.readableBytes < n then (.error (Fault.excess n b.readableBytes), b) else (.ok (), b)

def setReader (index : Nat) : Action Buffer Unit := fun b =>
  if b.writer < index then
    (.error (Fault.invalidIndex "set_reader_index" index 0 b.writer), b)
  else (.ok (), { b with reader := index })

def setWriter (index : Nat) : Action Buffer Unit := do
  let capacity := (← storage).size
  fun b =>
    if index < b.reader ∨ capacity < index then
      (.error (Fault.invalidIndex "set_writer_index" index b.reader capacity), b)
    else (.ok (), { b with writer := index })

/-- Asks for one more release before the storage is given up. -/
def lock : Action Buffer Unit := fun b =>
  if b.region.locks < 0 then (.error Fault.released, b)
  else (.ok (), { b with region := { b.region with locks := b.region.locks + 1 } })

/-- Takes back one lock, or gives the storage up if there is none. -/
def release : Action Buffer Unit := fun b =>
  if b.region.locks < 0 then (.error Fault.released, b)
  else
    let locks := b.region.locks - 1
    (.ok (), { b with region := ⟨if locks < 0 then none else b.region.storage, locks⟩ })

def toBytes : Action Buffer (List UInt8) := fun b =>
  match b.region.storage with
  | none => (.error Fault.released, b)
  | some bytes => (slice bytes b.reader b.writer, b)

/-! ### Numbers of fixed width

Numbers are written most significant byte first. Signed numbers are two's complement, and floats
stand for themselves by their bits. -/

def putNumber (operation : String) (width n : Nat) : Action Buffer Unit :=
  put operation (BigEndian.encode width n)

def takeNumber (operation : String) (width : Nat) : Action Buffer Nat :=
  BigEndian.decode <$> take operation width

def writeBool (v : Bool) : Action Buffer Unit := putNumber "write_bool" 1 v.toNat

/-- Only 0 and 1 are truth values; another byte is consumed and refused. -/
def readBool : Action Buffer Bool := do
  match ← takeNumber "read_bool" 1 with
  | 0 => return false
  | 1 => return true
  | n => Action.fail (Fault.malformed "boolean" s!"expected 0 or 1, found {Text.hexNumeral 2 n}")

def writeByte (v : Int8) : Action Buffer Unit := putNumber "write_byte" 1 v.toUInt8.toNat

def readByte : Action Buffer Int8 :=
  (fun n => (UInt8.ofNat n).toInt8) <$> takeNumber "read_byte" 1

def writeOctet (v : UInt8) : Action Buffer Unit := putNumber "write_unsigned_byte" 1 v.toNat

def readOctet : Action Buffer UInt8 := UInt8.ofNat <$> takeNumber "read_unsigned_byte" 1

def peekOctet : Action Buffer UInt8 := fun b =>
  if b.readable then
    match b.region.storage with
    | none => (.error Fault.released, b)
    | some bytes =>
      match bytes[b.reader]? with
      | some v => (.ok v, b)
      | none => (.error (Fault.stray (b.reader + 1) bytes.size), b)
  else (.error (b.underflow "peek_byte" 1), b)

def writeShort (v : Int16) : Action Buffer Unit := putNumber "write_short" 2 v.toUInt16.toNat

def readShort : Action Buffer Int16 :=
  (fun n => (UInt16.ofNat n).toInt16) <$> takeNumber "read_short" 2

def writeUnit (v : UInt16) : Action Buffer Unit := putNumber "write_char" 2 v.toNat

def readUnit : Action Buffer UInt16 := UInt16.ofNat <$> takeNumber "read_char" 2

def writeInt (v : Int32) : Action Buffer Unit := putNumber "write_int" 4 v.toUInt32.toNat

def readInt : Action Buffer Int32 :=
  (fun n => (UInt32.ofNat n).toInt32) <$> takeNumber "read_int" 4

def writeLong (v : Int64) : Action Buffer Unit := putNumber "write_long" 8 v.toUInt64.toNat

def readLong : Action Buffer Int64 :=
  (fun n => (UInt64.ofNat n).toInt64) <$> takeNumber "read_long" 8

def writeFloat (bits : UInt32) : Action Buffer Unit := putNumber "write_float" 4 bits.toNat

def readFloat : Action Buffer UInt32 := UInt32.ofNat <$> takeNumber "read_float" 4

def writeDouble (bits : UInt64) : Action Buffer Unit := putNumber "write_double" 8 bits.toNat

def readDouble : Action Buffer UInt64 := UInt64.ofNat <$> takeNumber "read_double" 8

/-! ### Runs of bytes -/

def writeBytes (data : List UInt8) : Action Buffer Unit := put "write_bytes" data

def readBytes (n : Nat) : Action Buffer (List UInt8) := take "read_bytes" n

/-- Reads what a window of `room` bytes can hold, which may be less than is there. -/
def readInto (room : Nat) : Action Buffer (List UInt8) := fun b =>
  let n := min b.readableBytes room
  match b.region.storage with
  | none => (.error Fault.released, b)
  | some bytes =>
    match slice bytes b.reader (b.reader + n) with
    | .ok data => (.ok data, { b with reader := b.reader + n })
    | .error e => (.error e, b)

/-- Appends the first `remaining` bytes of a source that comes in chunks, chunk by chunk, and
returns what is left of the source. -/
def writeChunks : (chunks : List (List UInt8)) → (remaining : Nat) →
    Action Buffer (List (List UInt8))
  | [], _ => return []
  | chunk :: chunks, remaining =>
    if remaining = 0 then return chunk :: chunks
    else if chunk.isEmpty then writeChunks chunks remaining
    else do
      let n := min chunk.length remaining
      put "write_from" (chunk.take n)
      if n < chunk.length then return chunk.drop n :: chunks
      else writeChunks chunks (remaining - n)

/-- Appends as much of a chunked source as there is room for: how many bytes that was, and what is
left of the source. -/
def writeFrom (chunks : List (List UInt8)) : Action Buffer (Nat × List (List UInt8)) := do
  let b ← Action.get
  let n := min chunks.flatten.length b.writableBytes
  return (n, ← writeChunks chunks n)

/-! ### Transfers between buffers -/

/-- Moves `count` bytes from the second buffer to the first, one at a time. -/
def pump : (count : Nat) → Action (Buffer × Buffer) Unit
  | 0 => return ()
  | count + 1 => fun (target, source) =>
    match readOctet source with
    | (.error e, source) => (.error e, (target, source))
    | (.ok byte, source) =>
      match writeOctet byte target with
      | (.error e, target) => (.error e, (target, source))
      | (.ok _, target) => pump count (target, source)

def transferable (target source : Buffer) : Nat := min source.readableBytes target.writableBytes

/-- Moves as many bytes as there are and as fit between buffers of different regions. -/
def transfer : Action (Buffer × Buffer) Nat := fun (target, source) =>
  let n := transferable target source
  match pump n (target, source) with
  | (.ok _, s) => (.ok n, s)
  | (.error e, s) => (.error e, s)

/-- Copies `count` bytes at `source` to the writer of a buffer over the same storage. The bytes are
those that stood at `source` before, also where the two ranges overlap. -/
def copyWithin (source count : Nat) : Action Buffer Unit
  | ⟨⟨some bytes, locks⟩, reader, writer, limit⟩ =>
    if limit < writer + count then
      (.error (Fault.outOfBounds "write_buffer" writer count (limit - writer)),
        ⟨⟨some bytes, locks⟩, reader, writer, limit⟩)
    else
      let bytes := grown bytes (writer + count) limit
      match slice bytes source (source + count) with
      | .ok data =>
        (.ok (), ⟨⟨some (overwrite bytes writer data), locks⟩, reader, writer + count, limit⟩)
      | .error e => (.error e, ⟨⟨some bytes, locks⟩, reader, writer, limit⟩)
  | b => (.error Fault.released, b)

end Buffer

end Wireform
