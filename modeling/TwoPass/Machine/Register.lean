import TwoPass.Text.Basic

/-!
The eight registers.
-/
namespace TwoPass

abbrev Register := Fin 8

/-- A register is written `r0` to `r7`, or with a capital letter. -/
def Register.parse? : Text → Option Register
  | [letter, digit] =>
    if letter = 'r'.toUInt8 ∨ letter = 'R'.toUInt8 then
      if h : 48 ≤ digit.toNat ∧ digit.toNat < 56 then some ⟨digit.toNat - 48, by omega⟩ else none
    else none
  | _ => none

end TwoPass
