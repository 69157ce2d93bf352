import TwoPass.Text.Basic

/-!
Filling placeholders. A placeholder is a parameter name between two percent signs; the text is read
once from left to right, and what was put in is not read again.
-/
namespace TwoPass.Macro

/-- What each parameter stands for in a call. Parameters without an argument stand for nothing. -/
def bind : (params : List Text) → (args : List Text) → List (Text × Text)
  | [], _ => []
  | p :: params, [] => (p, []) :: bind params []
  | p :: params, arg :: args => (p, arg) :: bind params args

/-- Fills the placeholders of a text that was cut at its percent signs. The first piece is plain
text, and a piece with percent signs on both sides is a placeholder if it is bound. -/
def fillOnto (bindings : List (Text × Text)) (done : Array Text) : List Text → Text
  | [] => done.toList.flatten
  | [plain] => (done.push plain).toList.flatten
  | plain :: name :: rest =>
    match rest, bindings.lookup name with
    | _ :: _, some value => fillOnto bindings (done.push plain |>.push value) rest
    | _, _ => fillOnto bindings (done.push plain |>.push [('%').toUInt8]) (name :: rest)

def substitute (bindings : List (Text × Text)) (t : Text) : Text :=
  fillOnto bindings #[] (t.splitOn ('%').toUInt8)

end TwoPass.Macro
