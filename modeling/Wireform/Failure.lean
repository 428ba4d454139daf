/-!
What can go wrong, said once for the whole library. A `Code` is the stable word by which callers
tell failures apart, a `Fault` is the cause with the data that explains it, and a `Failure` is a
fault on its way to the caller: with the text of an outer cause, if there is one, and with the path
of nested objects inside which it arose. All wording lives in `Fault.message`.
-/

namespace Wireform

/-- The classes of failure that a caller can react to. -/
inductive Code where
  | outOfBounds
  | released
  | unknownType
  | unsuitable
  | mismatch
  | malformed
  | malformedText
  | missingTypeId
  | duplicateTypeId
  | reservedTypeId
  | unknownTypeName
  | invalidSetting
  | unparsable
  | unreadable
  /-- The program has broken off, so there is nobody left to be told. -/
  | aborted
  deriving DecidableEq, Repr

namespace Code

/-- Every code that is reported, in the order of their numbers. -/
def all : List Code :=
  [outOfBounds, released, unknownType, unsuitable, mismatch, malformed, malformedText,
    missingTypeId, duplicateTypeId, reservedTypeId, unknownTypeName, invalidSetting, unparsable,
    unreadable]

def text : Code → String
  | outOfBounds => "buffer.out_of_bounds"
  | released => "buffer.released"
  | unknownType => "serialization.unknown_type"
  | unsuitable => "serialization.unsuitable_marshaller"
  | mismatch => "serialization.type_mismatch"
  | malformed => "protocol.malformed"
  | malformedText => "protocol.malformed_text"
  | missingTypeId => "config.missing_type_id"
  | duplicateTypeId => "config.duplicate_type_id"
  | reservedTypeId => "config.reserved_type_id"
  | unknownTypeName => "config.unknown_type_name"
  | invalidSetting => "config.invalid"
  | unparsable => "config.parse"
  | unreadable => "config.io"
  | aborted => "aborted"

end Code

inductive Fault where
  /-- Fewer bytes are available than an access to a buffer needs. -/
  | outOfBounds (operation : String) (index requested available : Nat)
  /-- A cursor was to leave its range. -/
  | invalidIndex (operation : String) (index low high : Nat)
  /-- The storage behind a buffer has been given up. -/
  | released
  /-- Bytes that are no value of the named format. -/
  | malformed (format detail : String)
  /-- A declared length exceeds what is left to read. -/
  | shortBlock (requested readable : Nat)
  /-- Bytes whose number has no length word. -/
  | longBlock (length : Nat)
  | negativeBlock (length : Int)
  /-- Objects lie inside each other deeper than allowed. -/
  | nestingLimit (limit : Nat)
  /-- A character that needs two code units has no place on the wire. -/
  | outsidePlane (shown : String)
  | loneSurrogate (shown : String)
  | longText (length : Nat)
  | lengthCopy (length copy : Int)
  | negativeText (length : Int)
  | shortText (length : Int) (readable : Nat)
  | illegalChunk (chunk offset length : Nat)
  | invalidText
  | manyEntries (packet : String)
  | negativeEntries (size : Int) (packet : String)
  | mismatch (expected found : String)
  | unsuitable (type : String)
  | unknownFormat (id : Int)
  | unknownTypeId (id : Int)
  | withoutTypeId (type : String)
  | unregistered (type : String)
  /-- A value's type is registered, but not as the format wants it. -/
  | wrongKind (type expected : String)
  /-- A type read from the wire is not of the kind that the format wants. -/
  | notOfKind (name shownId expected : String)
  | unknownConstant (enumeration name : String)
  | undeclared (name : String)
  | missingTypeId (name : String)
  | reservedTypeId (name : String) (id : Int)
  | sharedTypeId (id : Int) (first second : String)
  | registeredTwice (name : String)
  | formatWithoutId
  | sharedFormatId (id : Int)
  | invalidSetting (field detail : String)
  | unparsable
  | unreadable (path : String)
  /-- A slice leaves what it is a slice of. The program breaks off there. -/
  | stray (stop size : Nat)
  /-- Memory is asked for beyond what is there to be read into it. The program breaks off there. -/
  | excess (requested readable : Nat)
  /-- A failure of an application's own making. -/
  | custom (code : Code) (message : String)
  deriving DecidableEq, Repr

namespace Fault

def code : Fault → Code
  | outOfBounds .. | invalidIndex .. | shortBlock .. | longBlock .. => .outOfBounds
  | released => .released
  | malformed .. | negativeBlock .. | nestingLimit .. | loneSurrogate .. | manyEntries ..
  | negativeEntries .. => .malformed
  | longText .. | lengthCopy .. | negativeText .. | shortText .. | illegalChunk .. | invalidText =>
    .malformedText
  | outsidePlane .. | mismatch .. => .mismatch
  | unsuitable .. | wrongKind .. => .unsuitable
  | unknownFormat .. | unknownTypeId .. | withoutTypeId .. | unregistered .. | notOfKind ..
  | unknownConstant .. => .unknownType
  | undeclared .. => .unknownTypeName
  | missingTypeId .. | formatWithoutId => .missingTypeId
  | reservedTypeId .. => .reservedTypeId
  | sharedTypeId .. | registeredTwice .. | sharedFormatId .. => .duplicateTypeId
  | invalidSetting .. => .invalidSetting
  | unparsable => .unparsable
  | unreadable .. => .unreadable
  | stray .. | excess .. => .aborted
  | custom code _ => code

def message : Fault → String
  | outOfBounds operation index requested available =>
    s!"{operation} needs {requested} byte(s) at index {index}, only {available} available"
  | invalidIndex operation index low high =>
    s!"{operation} index {index} outside of {low}..={high}"
  | released => "memory buffer region was already released"
  | malformed format detail => s!"malformed {format}: {detail}"
  | shortBlock requested readable =>
    s!"requested {requested} bytes but only {readable} are readable"
  | longBlock length => s!"byte array of {length} bytes exceeds the int32 length prefix"
  | negativeBlock length => s!"negative byte array length {length}"
  | nestingLimit limit => s!"object nesting exceeds the limit of {limit}"
  | outsidePlane shown => s!"char {shown} lies outside the basic multilingual plane"
  | loneSurrogate shown => s!"code unit {shown} is a lone surrogate"
  | longText length => s!"string of {length} bytes exceeds the int32 length prefix"
  | lengthCopy length copy => s!"string length {length} does not match its check copy {copy}"
  | negativeText length => s!"negative string length {length}"
  | shortText length readable =>
    s!"string length {length} exceeds the {readable} readable bytes"
  | illegalChunk chunk offset length =>
    s!"illegal chunk length {chunk} at offset {offset} of {length}"
  | invalidText => "string is not valid UTF-8"
  | manyEntries packet => s!"packet `{packet}` holds too many values"
  | negativeEntries size packet => s!"negative value count {size} in packet `{packet}`"
  | mismatch expected found => s!"expected a value of type `{expected}`, found `{found}`"
  | unsuitable type => s!"no suitable marshaller found for type `{type}`"
  | unknownFormat id => s!"no marshaller registered under id {id}"
  | unknownTypeId id => s!"no type registered under type id {id}"
  | withoutTypeId type => s!"type `{type}` has no registered type id"
  | unregistered type => s!"type `{type}` is not registered"
  | wrongKind type expected => s!"type `{type}` is not {expected}"
  | notOfKind name shownId expected => s!"type `{name}` (id {shownId}) is not {expected}"
  | unknownConstant enumeration name =>
    s!"enumeration `{enumeration}` has no constant named `{name}`"
  | undeclared name => s!"type `{name}` is listed in the manifest but was never declared"
  | missingTypeId name => s!"type `{name}` does not declare a type id"
  | reservedTypeId name id => s!"type `{name}` uses reserved type id {id}"
  | sharedTypeId id first second => s!"type id {id} is claimed by both `{first}` and `{second}`"
  | registeredTwice name => s!"type `{name}` is registered twice"
  | formatWithoutId => "custom marshaller does not declare a marshaller id"
  | sharedFormatId id => s!"marshaller id {id} is already registered"
  | invalidSetting field detail => s!"invalid value for `{field}`: {detail}"
  | unparsable => "failed to parse serialization config"
  | unreadable path => s!"failed to read `{path}`"
  | stray stop size => s!"range end index {stop} out of range for slice of length {size}"
  | excess requested readable => s!"allocation of {requested} bytes for {readable} readable bytes"
  | custom _ message => message

/-- The text of the cause behind a fault, for the faults that pass on one of another layer. -/
def outerCause : Fault → Option String
  | invalidText => some "invalid utf-8 sequence"
  | f@(invalidSetting ..) | f@unparsable | f@(unreadable ..) => some f.message
  | _ => none

end Fault

/-- A fault on its way to the caller. -/
structure Failure where
  fault : Fault
  cause : Option String := none
  /-- The objects inside which the fault arose, innermost first. -/
  frames : List String := []
  deriving DecidableEq, Repr

def Fault.failure (f : Fault) : Failure := { fault := f, cause := f.outerCause }

instance : Coe Fault Failure := ⟨Fault.failure⟩

namespace Failure

def code (f : Failure) : Code := f.fault.code

def message (f : Failure) : String := f.fault.message

/-- Whether the program has broken off. Such a failure cannot be taken notice of and passed over. -/
def fatal (f : Failure) : Bool :=
  match f.fault with
  | .stray .. | .excess .. => true
  | _ => false

/-- The last cause given is the one that is kept. -/
def withCause (f : Failure) (cause : String) : Failure := { f with cause := some cause }

/-- Frames are set once: a failure that has some keeps them. -/
def withFrames (f : Failure) (frames : List String) : Failure :=
  if f.frames.isEmpty then { f with frames } else f

/-- The failure as text: code, message, and a line for each frame. -/
def render (f : Failure) : String :=
  f.frames.foldl (fun text frame => text ++ "\n    at " ++ frame)
    ("[" ++ f.code.text ++ "] " ++ f.message)

@[simp] theorem fault_withFrames (f : Failure) (frames : List String) :
    (f.withFrames frames).fault = f.fault := by
  unfold withFrames; split <;> rfl

@[simp] theorem code_withFrames (f : Failure) (frames : List String) :
    (f.withFrames frames).code = f.code := by
  unfold withFrames code; split <;> rfl

@[simp] theorem message_withFrames (f : Failure) (frames : List String) :
    (f.withFrames frames).message = f.message := by
  unfold withFrames message; split <;> rfl

@[simp] theorem cause_withFrames (f : Failure) (frames : List String) :
    (f.withFrames frames).cause = f.cause := by
  unfold withFrames; split <;> rfl

end Failure

end Wireform
