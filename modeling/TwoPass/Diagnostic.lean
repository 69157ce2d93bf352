import TwoPass.Source.Line

/-!
What can be wrong with a source file: the cause of each error and warning, its kind, its place and
its wording.
-/
namespace TwoPass

inductive Diagnostic.Kind where
  | syntactic | semantic | structural | consistency
  deriving DecidableEq, Repr

def Diagnostic.Kind.name : Kind → Text
  | .syntactic => Text.of "Syntax"
  | .semantic => Text.of "Semantic"
  | .structural => Text.of "Structural"
  | .consistency => Text.of "Consistency"

inductive Diagnostic where
  | ignoredLabel (position : Span) (label : Text)
  | invalidLabel (position : Span) (label : Text)
  | reservedLabel (position : Span) (label : Text)
  | redeclaredLabel (position : Span) (label : Text)
  | unknownLabel (position : Span) (label : Text)
  | externalEntry (position : Span) (label : Text)
  | missingDirective (position : Span)
  | unknownDirective (position : Span) (name : Text)
  | unknownInstruction (position : Span) (name : Text)
  | missingOperand (position : Span)
  | invalidString (position : Span)
  | invalidMatrix (position : Span)
  | invalidRegister (position : Span)
  | invalidLiteral (position : Span)
  | oversizedLiteral (position : Span) (want found : Text)
  | argumentCount (position : Span) (want found : Int)
  | excessInitializer (position : Span) (limit found : Int)
  | wordCountMismatch (position : Span) (want found : Int)
  | oversizedImage (limit found : Int)
  | relocation (step reason : Text)
  | tooManyMacros (position : Span) (limit : Int)
  | macroHeader (position : Span) (reason : Text)
  | missingEndm (position : Span) (name : Text)
  | lineTooLong
  | note (text : Text)
  | context (text : Text) (cause : Diagnostic)
  deriving DecidableEq, Repr, Inhabited

namespace Diagnostic

def kind : Diagnostic → Kind
  | invalidLabel .. | reservedLabel .. | missingDirective .. | unknownDirective ..
  | missingOperand .. | invalidString .. | invalidMatrix .. | invalidRegister ..
  | invalidLiteral .. => .syntactic
  | tooManyMacros .. | macroHeader .. | missingEndm .. => .structural
  | wordCountMismatch .. | relocation .. => .consistency
  | context _ cause => cause.kind
  | _ => .semantic

/-- The place a diagnostic points at. A diagnostic put in a context has none. -/
def position? : Diagnostic → Option Span
  | ignoredLabel p _ | invalidLabel p _ | reservedLabel p _ | redeclaredLabel p _
  | unknownLabel p _ | externalEntry p _ | missingDirective p | unknownDirective p _
  | unknownInstruction p _ | missingOperand p | invalidString p | invalidMatrix p
  | invalidRegister p | invalidLiteral p | oversizedLiteral p _ _ | argumentCount p _ _
  | excessInitializer p _ _ | wordCountMismatch p _ _ | tooManyMacros p _ | macroHeader p _
  | missingEndm p _ => some p
  | oversizedImage .. | relocation .. | lineTooLong | note _ | context .. => none

/-- The wording without the place. -/
def wording : Diagnostic → Text
  | ignoredLabel _ l => Text.of "Label '" ++ l ++ Text.of "' has no statement and is ignored"
  | invalidLabel _ l => Text.of "Invalid label '" ++ l ++
      Text.of "'\n\twant:letter followed by up to 30 letters, digits or '_'"
  | reservedLabel _ l => Text.of "Label '" ++ l ++ Text.of "' is a reserved word"
  | redeclaredLabel _ l => Text.of "Redeclaration of label '" ++ l ++ Text.of "'"
  | unknownLabel _ l => Text.of "Unknown label '" ++ l ++ Text.of "'"
  | externalEntry _ l => Text.of "Cannot mark external '" ++ l ++ Text.of "' as entry"
  | missingDirective _ => Text.of "Missing directive name after '.'"
  | unknownDirective _ n => Text.of "Unknown directive '" ++ n ++ Text.of "'"
  | unknownInstruction _ n => Text.of "Unknown instruction '" ++ n ++ Text.of "'"
  | missingOperand _ => Text.of "Missing operand"
  | invalidString _ => Text.of "Invalid string literal"
  | invalidMatrix _ => Text.of "Invalid matrix dimensions\n\twant:[rows][cols]"
  | invalidRegister _ => Text.of "Invalid register identifier"
  | invalidLiteral _ => Text.of "Invalid numeric literal"
  | oversizedLiteral _ w h => Text.of "Literal exceeds allowed size\n\twant:" ++ w ++
      Text.of "\n\thave:" ++ h
  | argumentCount _ w h => Text.of "Invalid number of arguments\n\twant:" ++ Text.ofInt w ++
      Text.of "\n\thave:" ++ Text.ofInt h
  | excessInitializer _ l h => Text.of "Too many matrix values\n\twant:<=" ++ Text.ofInt l ++
      Text.of "\n\thave:" ++ Text.ofInt h
  | wordCountMismatch _ w h => Text.of "Encoded size differs from reserved size\n\twant:" ++
      Text.ofInt w ++ Text.of "\n\thave:" ++ Text.ofInt h
  | oversizedImage l h => Text.of "Binary exceeds allowed size\n\twant:<=" ++ Text.ofInt l ++
      Text.of "\n\thave:" ++ Text.ofInt h
  | relocation step reason => Text.of "Cannot " ++ step ++ Text.of ": " ++ reason
  | tooManyMacros _ l => Text.of "Too many macro definitions\n\twant:<=" ++ Text.ofInt l
  | macroHeader _ reason => Text.of "Invalid macro header: " ++ reason
  | missingEndm _ n => Text.of "Missing ENDM for macro '" ++ n ++ Text.of "'"
  | lineTooLong => Text.of "bufio.Scanner: token too long"
  | note t => t
  | context t cause => t ++
      match cause.position? with
      | some p => p.place ++ Text.of ": " ++ cause.wording
      | none => cause.wording

def message (d : Diagnostic) : Text :=
  match d.position? with
  | some p => p.place ++ Text.of ": " ++ d.wording
  | none => d.wording

end Diagnostic

end TwoPass
