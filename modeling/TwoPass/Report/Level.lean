import TwoPass.Text.Basic

/-!
Log levels. Each level prints what the levels before it print, and more.
-/
namespace TwoPass

/-- Nothing; errors and the summary; warnings too; progress too. -/
inductive LogLevel where
  | silent | error | warning | verbose
  deriving DecidableEq, Repr

namespace LogLevel

def all : List LogLevel :=
  [.silent, .error, .warning, .verbose]

def rank : LogLevel → Nat
  | .silent => 0
  | .error => 1
  | .warning => 2
  | .verbose => 3

/-- The level of a number. Numbers outside of the range count as the nearest level. -/
def ofInt (n : Int) : LogLevel :=
  if n ≤ 0 then .silent else if n = 1 then .error else if n = 2 then .warning else .verbose

def name : LogLevel → Text
  | .silent => Text.of "silent"
  | .error => Text.of "error"
  | .warning => Text.of "warning"
  | .verbose => Text.of "verbose"

def parse? (t : Text) : Option LogLevel :=
  all.find? (·.name = t)

/-- Whether a level prints what is meant for another level. -/
def covers (l needed : LogLevel) : Bool :=
  needed.rank ≤ l.rank

/-- The message about a name that is no level. -/
def unknownMessage (t : Text) : Text :=
  Text.of "unknown log level '" ++ t ++ Text.of "', want one of [" ++
    Text.joinWith (Text.of " ") (all.map name) ++ Text.of "]"

end LogLevel

end TwoPass
