import Wireform.Pool

/-!
Objects to try a pool with. A part has a number, counts how often it was lent and given back, and
can be spoiled; a spoiled part is not lent again by a handler that looks.
-/

namespace Wireform.Sample

structure Part where
  serial : Nat
  activations : Nat := 0
  passivations : Nat := 0
  spoiled : Bool := false
  deriving DecidableEq, Repr

namespace Part

/-- Parts are numbered in the order in which they are made. -/
def make (next : Nat) : Part × Nat := ({ serial := next }, next + 1)

/-- Counts what happens to parts, and refuses spoiled ones. -/
def counting : Handler Nat Part where
  create := make
  activate p n := ({ p with activations := p.activations + 1 }, n)
  passivate p n := ({ p with passivations := p.passivations + 1 }, n)
  validate p n := (!p.spoiled, n)

/-- Only makes parts, and takes no notice of them afterwards. -/
def indifferent : Handler Nat Part where
  create := make

def spoil (p : Part) : Part := { p with spoiled := true }

end Part

end Wireform.Sample
