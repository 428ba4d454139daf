import Wireform.Compact.Int32
import Wireform.Compact.Int64
import Wireform.Compact.Flags

/-!
Everything that can be done to one buffer, as data: an access says what is asked for, its answer
type what comes back, and `run` carries it out. Statements about whole runs of a buffer speak of
lists of accesses.
-/

namespace Wireform

inductive Access where
  | writeBool (v : Bool)
  | writeByte (v : Int8)
  | writeOctet (v : UInt8)
  | writeShort (v : Int16)
  | writeUnit (v : UInt16)
  | writeInt (v : Int32)
  | writeLong (v : Int64)
  | writeFloat (bits : UInt32)
  | writeDouble (bits : UInt64)
  | writeBytes (data : List UInt8)
  | writeCompactInt (v : Int32)
  | writeCompactLong (v : Int64)
  | writeFlags (values : Option (List Bool))
  | writeFrom (chunks : List (List UInt8))
  | readBool
  | readByte
  | readOctet
  | peekOctet
  | readShort
  | readUnit
  | readInt
  | readLong
  | readFloat
  | readDouble
  | readBytes (n : Nat)
  | readCompactInt
  | readCompactLong
  | readFlags
  | readInto (room : Nat)
  | toBytes
  | setReader (index : Nat)
  | setWriter (index : Nat)
  | clear
  | lock
  | release
  deriving DecidableEq, Repr

namespace Access

/-- What an access answers when it succeeds. -/
def Answer : Access → Type
  | writeFrom _ => Nat × List (List UInt8)
  | readBool => Bool
  | readByte => Int8
  | readOctet | peekOctet => UInt8
  | readShort => Int16
  | readUnit => UInt16
  | readInt | readCompactInt => Int32
  | readLong | readCompactLong => Int64
  | readFloat => UInt32
  | readDouble => UInt64
  | readBytes _ | readInto _ | toBytes => List UInt8
  | readFlags => Option (List Bool)
  | _ => Unit

def run : (a : Access) → Action Buffer a.Answer
  | writeBool v => Buffer.writeBool v
  | writeByte v => Buffer.writeByte v
  | writeOctet v => Buffer.writeOctet v
  | writeShort v => Buffer.writeShort v
  | writeUnit v => Buffer.writeUnit v
  | writeInt v => Buffer.writeInt v
  | writeLong v => Buffer.writeLong v
  | writeFloat bits => Buffer.writeFloat bits
  | writeDouble bits => Buffer.writeDouble bits
  | writeBytes data => Buffer.writeBytes data
  | writeCompactInt v => Compact.Int32.write v
  | writeCompactLong v => Compact.Int64.write v
  | writeFlags values => Compact.Flags.write values
  | writeFrom chunks => Buffer.writeFrom chunks
  | readBool => Buffer.readBool
  | readByte => Buffer.readByte
  | readOctet => Buffer.readOctet
  | peekOctet => Buffer.peekOctet
  | readShort => Buffer.readShort
  | readUnit => Buffer.readUnit
  | readInt => Buffer.readInt
  | readLong => Buffer.readLong
  | readFloat => Buffer.readFloat
  | readDouble => Buffer.readDouble
  | readBytes n => Buffer.readBytes n
  | readCompactInt => Compact.Int32.read
  | readCompactLong => Compact.Int64.read
  | readFlags => Compact.Flags.read
  | readInto room => Buffer.readInto room
  | toBytes => Buffer.toBytes
  | setReader index => Buffer.setReader index
  | setWriter index => Buffer.setWriter index
  | clear => Action.modify Buffer.clear
  | lock => Buffer.lock
  | release => Buffer.release

end Access

end Wireform
