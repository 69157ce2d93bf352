import TwoPass.Text.Basic

/-!
Machine words, and their written form: eight digits in base four, the most significant first.
-/
namespace TwoPass

abbrev Word := UInt16

namespace Base4

def digit (n : Nat) : UInt8 :=
  .ofNat (48 + n % 4)

def encode (w : Word) : Text :=
  [16384, 4096, 1024, 256, 64, 16, 4, 1].map fun weight => digit (w.toNat / weight)

end Base4

end TwoPass
