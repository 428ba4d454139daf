import Wireform.Failure
import Wireform.Buffer.Basic

/-!
The settings of an endpoint, and the checks that they must pass before anything is built from them.
-/

namespace Wireform

structure Settings where
  /-- The names of the types that are wanted. -/
  types : List String := []
  /-- The path of a file that lists more of them. -/
  manifest : Option String := none
  /-- How many workspaces are kept ready. -/
  poolCapacity : Nat := 100
  /-- The size of the scratch area for text. -/
  scratchSize : Nat := 1024
  /-- Whether failures are marked with the path of objects inside which they arose. -/
  debug : Bool := false
  initialCapacity : Nat := 256
  maxCapacity : Nat := Buffer.maxLimit
  /-- How deep objects may lie inside each other. -/
  maxDepth : Nat := 128
  deriving DecidableEq, Repr

namespace Settings

def isPowerOfTwo (n : Nat) : Bool := n ≠ 0 && 1 <<< n.log2 = n

def fault? (s : Settings) : Option Fault :=
  if s.scratchSize < 8 || ! isPowerOfTwo s.scratchSize then
    some (.invalidSetting "utf8_buffer_size"
      s!"must be a power of two and at least 8, was {s.scratchSize}")
  else if s.poolCapacity = 0 then
    some (.invalidSetting "codec_pool_capacity" "must be greater than zero")
  else if s.maxDepth = 0 then
    some (.invalidSetting "max_object_depth" "must be greater than zero")
  else if Buffer.maxLimit < s.maxCapacity then
    some (.invalidSetting "max_buffer_capacity" s!"must not exceed {Buffer.maxLimit}")
  else if s.maxCapacity < s.initialCapacity then
    some (.invalidSetting "initial_buffer_capacity"
      s!"{s.initialCapacity} exceeds max_buffer_capacity {s.maxCapacity}")
  else none

def validate (s : Settings) : Except Failure Unit :=
  match s.fault? with
  | some fault => .error fault
  | none => .ok ()

end Settings

end Wireform
