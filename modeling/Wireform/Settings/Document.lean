import Wireform.Settings
import Wireform.Toml.Document

/-!
Settings as text: a flat TOML document with a key for each setting that is not to have its default.
Unknown keys are refused, and so are values of the wrong kind.
-/

namespace Wireform.Settings

def assign (s : Settings) (key : String) (item : Toml.Item) : Option Settings :=
  match item with
  | .texts types => if key = "types" then some { s with types } else none
  | .text path => if key = "manifest" then some { s with manifest := some path } else none
  | .truth debug => if key = "debug" then some { s with debug } else none
  | .number n =>
    if n < 0 then none
    else match key with
      | "codec_pool_capacity" => some { s with poolCapacity := n.toNat }
      | "utf8_buffer_size" => some { s with scratchSize := n.toNat }
      | "initial_buffer_capacity" => some { s with initialCapacity := n.toNat }
      | "max_buffer_capacity" => some { s with maxCapacity := n.toNat }
      | "max_object_depth" => some { s with maxDepth := n.toNat }
      | _ => none

/-- The settings that a document gives, the defaults where it gives none. -/
def ofDocument (document : Toml.Document) : Option Settings :=
  document.foldlM (fun s (key, item) => s.assign key item) {}

def ofText (text : String) : Except Failure Settings :=
  match (Toml.parse text).bind ofDocument with
  | none => .error Fault.unparsable
  | some s => do
    s.validate
    return s

end Wireform.Settings
