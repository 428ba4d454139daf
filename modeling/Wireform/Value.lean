import Wireform.Failure
import Wireform.Identifier

/-!
The values that travel. Some kinds of value belong to the library; a record is a value of an
application's own type, known here by the name of its class and its fields. Floats stand for
themselves by their bits, and a packet keeps its entries in the order of their keys, each key
once.
-/

namespace Wireform

/-- What a value is an instance of. -/
inductive Class where
  | byte
  | short
  | char
  | int
  | float
  | long
  | double
  | text
  | bytes
  | bool
  | octet
  | word
  | flags
  | identifier
  | message
  | packet
  | record (name : String)
  deriving DecidableEq, Repr

namespace Class

def name : Class → String
  | byte => "i8"
  | short => "i16"
  | char => "char"
  | int => "i32"
  | float => "f32"
  | long => "i64"
  | double => "f64"
  | text => "alloc::string::String"
  | bytes => "alloc::vec::Vec<u8>"
  | bool => "bool"
  | octet => "u8"
  | word => "u64"
  | flags => "alloc::vec::Vec<bool>"
  | identifier => "courier_codecs::model::Identifier"
  | message => "courier_codecs::model::Message"
  | packet => "courier_codecs::model::GenericPacket"
  | record name => name

end Class

inductive Value where
  | byte (v : Int8)
  | short (v : Int16)
  | char (v : Char)
  | int (v : Int32)
  | float (bits : UInt32)
  | long (v : Int64)
  | double (bits : UInt64)
  | text (v : String)
  | bytes (v : List UInt8)
  | bool (v : Bool)
  | octet (v : UInt8)
  | word (v : UInt64)
  | flags (v : List Bool)
  | identifier (v : Identifier)
  | message (id : Identifier) (body : Value)
  | packet (name : String) (entries : List (String × Value))
  | record (type : String) (fields : List (String × Value))
  deriving Repr, Inhabited

namespace Value

def classOf : Value → Class
  | byte _ => .byte
  | short _ => .short
  | char _ => .char
  | int _ => .int
  | float _ => .float
  | long _ => .long
  | double _ => .double
  | text _ => .text
  | bytes _ => .bytes
  | bool _ => .bool
  | octet _ => .octet
  | word _ => .word
  | flags _ => .flags
  | identifier _ => .identifier
  | message .. => .message
  | packet .. => .packet
  | record type _ => .record type

/-- The value itself, if it is of the class that is wanted. -/
def expect (c : Class) (v : Value) : Except Failure Value :=
  if v.classOf = c then .ok v else .error (Fault.mismatch c.name v.classOf.name)

def mismatch (c : Class) (v : Value) : Failure := Fault.mismatch c.name v.classOf.name

end Value

/-! ### Entries of a packet -/

/-- Entries in ascending order of keys. -/
abbrev Entries := List (String × Value)

namespace Entries

def find? (key : String) : Entries → Option Value
  | [] => none
  | (k, v) :: rest => if k = key then some v else find? key rest

/-- Puts an entry in its place, instead of one that has the same key. -/
def insert (key : String) (value : Value) : Entries → Entries
  | [] => [(key, value)]
  | (k, v) :: rest =>
    if key < k then (key, value) :: (k, v) :: rest
    else if k = key then (key, value) :: rest
    else (k, v) :: insert key value rest

def erase (key : String) : Entries → Entries
  | [] => []
  | (k, v) :: rest => if k = key then rest else (k, v) :: erase key rest

def keys (e : Entries) : List String := e.map (·.1)

def insertAll (e : Entries) : List (String × Value) → Entries
  | [] => e
  | (k, v) :: rest => insertAll (e.insert k v) rest

/-- Entries given in any order; of two with one key the later counts. -/
def ofList (list : List (String × Value)) : Entries := insertAll [] list

/-- The keys ascend, so that no key is there twice. -/
def Sorted (e : Entries) : Prop := e.keys.Pairwise (· < ·)

instance (e : Entries) : Decidable e.Sorted :=
  inferInstanceAs (Decidable (e.keys.Pairwise (· < ·)))

end Entries

end Wireform
