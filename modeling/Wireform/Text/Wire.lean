import Wireform.Buffer.Basic
import Wireform.Text.Chunk

/-!
Text on the wire: its number of bytes, the same number again as a check, then chunks, each with
its own length in front. A reader takes any chunks that are neither empty nor too long and that
add up to the declared length. It moves each chunk through a scratch area in pieces of that area's
size, and decodes the bytes when all are there, so a chunk may end inside a character.
-/

namespace Wireform.Text

def maxLength : Nat := 2147483647

def writeChunks : List (List Char) → Action Buffer Unit
  | [] => return ()
  | chunk :: rest => do
    let data := bytesOf chunk
    Buffer.writeShort (Int16.ofNat data.length)
    Buffer.writeBytes data
    writeChunks rest

def write (s : String) : Action Buffer Unit := do
  let length := (bytes s).length
  if maxLength < length then Action.fail (Fault.longText length)
  Buffer.writeInt (Int32.ofNat length)
  Buffer.writeInt (Int32.ofNat length)
  writeChunks (chunks s.toList)

def onBuffer {α : Type} (act : Action Buffer α) : Action (Buffer × List UInt8) α :=
  fun (b, scratch) =>
    let (r, b) := act b
    (r, (b, scratch))

/-- Lays a piece over the front of the scratch area and copies it from there. -/
def stage (piece : List UInt8) : Action (Buffer × List UInt8) (List UInt8) := fun (b, scratch) =>
  let scratch := piece ++ scratch.drop piece.length
  (.ok (scratch.take piece.length), (b, scratch))

/-- Reads `n` bytes through the front of the scratch area. -/
def readPiece (n : Nat) : Action (Buffer × List UInt8) (List UInt8) := do
  let (_, scratch) ← Action.get
  if scratch.length < n then Action.fail (Fault.stray n scratch.length)
  stage (← onBuffer (Buffer.readBytes n))

def readPieces (scratchSize n : Nat) : Action (Buffer × List UInt8) (List UInt8) :=
  if _h : n = 0 then return []
  else do
    let step := min n (max 1 scratchSize)
    let piece ← readPiece step
    return piece ++ (← readPieces scratchSize (n - step))
termination_by n
decreasing_by omega

/-- Reads chunks until `length` bytes are there, of which `offset` have been read before. -/
def readChunks (scratchSize length offset : Nat) :
    Action (Buffer × List UInt8) (List UInt8) :=
  if offset < length then do
    let chunk := (← onBuffer Buffer.readShort).toUInt16.toNat
    if _h : chunk = 0 ∨ chunkLimit < chunk ∨ length < offset + chunk then
      Action.fail (Fault.illegalChunk chunk offset length)
    else
      let data ← readPieces scratchSize chunk
      return data ++ (← readChunks scratchSize length (offset + chunk))
  else return []
termination_by length - offset

/-- Reads a text, through the scratch area that stands beside the buffer. -/
def read : Action (Buffer × List UInt8) String := do
  let length := (← onBuffer Buffer.readInt).toInt
  let copy := (← onBuffer Buffer.readInt).toInt
  if length ≠ copy then Action.fail (Fault.lengthCopy length copy)
  if length < 0 then Action.fail (Fault.negativeText length)
  let (b, scratch) ← Action.get
  if b.readableBytes < length.toNat then
    Action.fail (Fault.shortText length b.readableBytes)
  onBuffer (Buffer.reserve length.toNat)
  let data ← readChunks scratch.length length.toNat 0
  match ofBytes? data with
  | some s => return s
  | none => Action.fail Fault.invalidText

end Wireform.Text
