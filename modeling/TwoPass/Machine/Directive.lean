import TwoPass.Text.Letters

/-!
The directives: three place words in the data segment, two concern names.
-/
namespace TwoPass

inductive Directive where
  | data | string | mat | entry | external
  deriving DecidableEq, Repr

namespace Directive

def all : List Directive :=
  [.data, .string, .mat, .entry, .external]

/-- The name that follows the dot. -/
def name : Directive → Text
  | .data => Text.of "data"
  | .string => Text.of "string"
  | .mat => Text.of "mat"
  | .entry => Text.of "entry"
  | .external => Text.of "extern"

/-- The directive a name stands for, in upper or lower case. -/
def parse? (t : Text) : Option Directive :=
  all.find? fun d => t.lowersTo d.name

/-- Data directives place words in the data segment. -/
def isData : Directive → Bool
  | .data | .string | .mat => true
  | .entry | .external => false

end Directive

end TwoPass
