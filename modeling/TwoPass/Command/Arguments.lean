import TwoPass.Report.Level

/-!
The command line: flags such as `-e` or `--expand`, settings such as `-o=dir` or `--out=dir`, and
one path.
-/
namespace TwoPass.Command

inductive Flag where
  | expand | symbols | debug | help
  deriving DecidableEq, Repr

/-- The flags with their long and short names. -/
def Flag.names : List (Flag × Text × Text) :=
  [(.expand, Text.of "expand", Text.of "e"),
    (.symbols, Text.of "symbols", Text.of "s"),
    (.debug, Text.of "debug", Text.of "d"),
    (.help, Text.of "help", Text.of "h")]

inductive Key where
  | logLevel | out | config
  deriving DecidableEq, Repr

/-- The keys of settings with their long and short names. -/
def Key.names : List (Key × Text × Text) :=
  [(.logLevel, Text.of "loglevel", Text.of "ll"),
    (.out, Text.of "out", Text.of "o"),
    (.config, Text.of "config", Text.of "c")]

/-- What the arguments say so far. -/
structure Arguments where
  flags : List Flag := []
  values : List (Key × Text) := []
  path : Text := []
  deriving DecidableEq, Repr

namespace Arguments

/-- The entry of a long or short name in a table of names. -/
def named? (names : List (α × Text × Text)) (long : Bool) (name : Text) : Option (α × Text) :=
  (names.find? fun (_, l, s) => (if long then l else s) = name).map fun (a, l, _) => (a, l)

inductive Fault where
  | unknownFlag (long : Bool) (name : Text)
  | unknownKey (long : Bool) (name : Text)
  | repeatedFlag (name : Text)
  | repeatedKey (name : Text)
  | badLevel (value : Text)
  | secondPath
  | missingPath
  deriving DecidableEq, Repr

/-- What stands between a noun and a name that is not known. -/
def lookupNote (long : Bool) : Text :=
  if long then Text.of ": `" else Text.of " by short name: `"

def Fault.message : Fault → Text
  | unknownFlag long name => Text.of "unknown flag" ++ lookupNote long ++ name ++ Text.of "`"
  | unknownKey long name => Text.of "unknown argument" ++ lookupNote long ++ name ++ Text.of "`"
  | repeatedFlag name => Text.of "flag `" ++ name ++ Text.of "` set multiple times"
  | repeatedKey name => Text.of "argument `" ++ name ++ Text.of "` set multiple times"
  | badLevel value =>
    Text.of "`" ++ value ++ Text.of "` is not a valid value for argument [loglevel]"
  | secondPath => Text.of "multiple primary arguments specified for command `qasm`"
  | missingPath => Text.of "missing required primary argument `qasm` for subcommand `path`"

def addFlag (args : Arguments) (long : Bool) (name : Text) : Except Fault Arguments :=
  match named? Flag.names long name with
  | none => .error (.unknownFlag long name)
  | some (flag, full) =>
    if args.flags.contains flag then .error (.repeatedFlag full)
    else .ok { args with flags := flag :: args.flags }

def addValue (args : Arguments) (long : Bool) (name value : Text) : Except Fault Arguments :=
  match named? Key.names long name with
  | none => .error (.unknownKey long name)
  | some (key, full) =>
    if (args.values.lookup key).isSome then .error (.repeatedKey full)
    else if key = .logLevel ∧ (LogLevel.parse? value).isNone then .error (.badLevel value)
    else .ok { args with values := (key, value) :: args.values }

/-- Takes one argument. A dash in front makes it a flag, or a setting if a value follows an equals
sign, and two dashes stand before long names. -/
def add (args : Arguments) (arg : Text) : Except Fault Arguments :=
  let dash := '-'.toUInt8
  if arg.head? = some dash then
    let long := (arg.drop 1).head? = some dash
    let (name, value) := (arg.cut? '='.toUInt8).getD (arg, [])
    let name := name.dropWhile (· = dash)
    if value.isEmpty then args.addFlag long name else args.addValue long name value
  else if args.path.isEmpty then .ok { args with path := arg }
  else .error .secondPath

/-- Reads the arguments from left to right, up to the first fault. -/
def ofList (args : List Text) : Except Fault Arguments := do
  let args ← args.foldlM add {}
  if args.path.isEmpty then throw .missingPath else return args

end Arguments

end TwoPass.Command
