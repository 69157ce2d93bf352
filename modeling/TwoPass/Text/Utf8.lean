import TwoPass.Text.Basic

/-!
UTF-8 decoding. Overlong forms, surrogates and numbers above U+10FFFF are invalid, and a byte that
starts no character stands for itself alone.
-/
namespace TwoPass.Text

def isTail (b : UInt8) : Bool :=
  0x80 ≤ b && b ≤ 0xBF

/-- The low six bits of a continuation byte. -/
def tailBits (b : UInt8) : Nat :=
  b.toNat - 0x80

/-- The character numbered `n`, if it needs at least as many bytes as were spent on it. -/
def scalar? (least n : Nat) : Option Char :=
  if h : least ≤ n ∧ n.isValidChar then some ⟨.ofNatLT n (by
    rcases h.2 with h | h <;> simp [UInt32.size] <;> omega), by
    simpa [UInt32.isValidChar, Nat.isValidChar] using h.2⟩
  else none

/-- The character at the front of a text, with the number of its continuation bytes. -/
def firstChar? : Text → Option (Char × Nat)
  | [] => none
  | a :: t =>
    if a < 0x80 then some (Char.ofUInt8 a, 0)
    else if 0xC0 ≤ a && a ≤ 0xDF then
      match t with
      | b :: _ =>
        if isTail b then (scalar? 0x80 ((a.toNat - 0xC0) * 64 + tailBits b)).map (·, 1) else none
      | _ => none
    else if 0xE0 ≤ a && a ≤ 0xEF then
      match t with
      | b :: c :: _ =>
        if isTail b && isTail c then
          (scalar? 0x800 ((a.toNat - 0xE0) * 4096 + tailBits b * 64 + tailBits c)).map (·, 2)
        else none
      | _ => none
    else if 0xF0 ≤ a && a ≤ 0xF7 then
      match t with
      | b :: c :: d :: _ =>
        if isTail b && isTail c && isTail d then
          (scalar? 0x10000 ((a.toNat - 0xF0) * 262144 + tailBits b * 4096 + tailBits c * 64
            + tailBits d)).map (·, 3)
        else none
      | _ => none
    else none

/-- Passes over `skip` bytes and decodes the rest onto `done`, which holds what came before in
reverse. -/
def decodeOnto (done : List (Option Char)) (skip : Nat) : Text → List (Option Char)
  | [] => done.reverse
  | a :: t =>
    match skip with
    | n + 1 => decodeOnto done n t
    | 0 =>
      match firstChar? (a :: t) with
      | some (c, n) => decodeOnto (some c :: done) n t
      | none => decodeOnto (none :: done) 0 t

/-- The characters of a text, with `none` for each byte that starts no character. -/
def decode (t : Text) : List (Option Char) :=
  decodeOnto [] 0 t

/-- The characters of a text that is valid UTF-8. -/
def chars? (t : Text) : Option (List Char) :=
  (decode t).mapM id

/-- The characters of a text, with U+FFFD for each byte that starts no character. -/
def charsLossy (t : Text) : List Char :=
  (decode t).map (·.getD '\uFFFD')

end TwoPass.Text
