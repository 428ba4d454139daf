import Wireform.Sample.Types
import Wireform.Dialect

/-!
Formats and selectors of the sample application, which are added to a dialect beside the formats
that it has anyway.
-/

namespace Wireform.Sample

/-- Writes the number of the value's type and then a temperature. A reader takes any registered
type in that place. -/
def celsiusFormat (id : Option TypeId) : Format where
  id
  write _ _ v := do
    Script.put (.typeId v)
    let v ← Plan.lift (v.expect (classOf "Celsius"))
    match field? "v" v with
    | some (.float bits) => Script.put (.float bits)
    | _ => .refuse (v.mismatch (classOf "Celsius"))
  read _ := do
    let _ ← Reading.typeId
    let bits ← Reading.float
    return make "Celsius" [("v", .float bits)]

/-- Words travel as signed numbers of the same bits. -/
def wordFormat (id : TypeId) : Format where
  id := some id
  write
    | _, _, .word v => Script.put (.long v.toInt64)
    | _, _, v => .refuse (v.mismatch .word)
  read _ := (fun v => Value.word v.toUInt64) <$> Reading.long
  describe _ := return some Class.word.name

/-- A built-in format under another number. -/
def aliasFormat (b : Builtin) (id : TypeId) : Format := { b.format with id := some id }

/-- The bits of thirty degrees and of infinity; the positive numbers between them are ordered as
their bits are. -/
def isHot (bits : UInt32) : Bool := 0x41F00000 < bits && bits ≤ 0x7F800000

def classSelector (c : Class) (verdict : Verdict) : Selector := fun v =>
  if v.classOf = c then verdict else .pass

def hotSelector (verdict : Verdict) : Selector := fun v =>
  match (if v.classOf = classOf "Celsius" then field? "v" v else none) with
  | some (.float bits) => if isHot bits then verdict else .pass
  | _ => .pass

def anySelector (verdict : Verdict) : Selector := fun _ => verdict

end Wireform.Sample
