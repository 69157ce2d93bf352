import TwoPass.Diagnostic
import TwoPass.Path.Basic

/-!
How a diagnostic is shown: a banner with its kind and file, its message, and the source line it
points at with the span marked below.
-/
namespace TwoPass.Report

/-- Tabs are shown as four spaces, so that marks stay below what they mark. -/
def expandTabs (t : Text) : Text :=
  t.flatMap fun b => if b = '\t'.toUInt8 then Text.spaces 4 else [b]

/-- A banner takes half of the terminal, but at most 50 columns. Two dashes always stand in it. -/
def dashCount (width : Int) (title fileName : Text) : Nat :=
  let banner := min (width.tdiv 2) 50
  (max 2 (banner - fileName.length - title.length - 1)).toNat

def banner (width : Int) (title path : Text) : Text :=
  let fileName := Path.fileName path
  Text.of "\n-- " ++ title ++ Text.of " " ++
    List.replicate (dashCount width title fileName) '-'.toUInt8 ++ Text.of " " ++ fileName ++
    Text.of "\n"

/-- The lines of a source file as they were read, with those marked whose text a macro expansion has
changed. -/
structure Listing where
  lines : Array Text
  changed : Array Bool

namespace Listing

/-- The place of a line number, counted from one. -/
def index? (n : Int) : Option Nat :=
  if 1 ≤ n then some (n - 1).toNat else none

/-- Marks a line if a different text stands under its number. -/
def mark (lines : Array Text) (changed : Array Bool) (l : Line) : Array Bool :=
  match index? l.number with
  | none => changed
  | some i =>
    match lines[i]? with
    | none => changed
    | some text => if l.text = text then changed else changed.setIfInBounds i true

/-- The lines of a file, given what they became by macro expansion. -/
def ofLines (raw expanded : List Line) : Listing :=
  let lines := (raw.map (·.text)).toArray
  { lines, changed := expanded.foldl (mark lines) (Array.replicate lines.size false) }

def line? (l : Listing) (n : Int) : Option Text :=
  (index? n).bind (l.lines[·]?)

def isChanged (l : Listing) (n : Int) : Bool :=
  ((index? n).bind (l.changed[·]?)).getD false

end Listing

/-- A span marked below its line. A column outside of the line counts as its end. -/
def underline (text : Text) (p : Span) : Text :=
  let column := p.column - 1
  let before := if 0 ≤ column ∧ column ≤ text.length then text.take column.toNat else text
  Text.spaces (expandTabs before).length ++ Text.of "^" ++
    List.replicate (p.size - 1).toNat '~'.toUInt8

/-- The source line that a span stands in, with its number in front, and a second line below. Lines
of an expansion cannot be marked, as columns count in the text of the body. -/
def excerpt (listing : Listing) (p : Span) : Text :=
  match listing.line? p.line with
  | none => []
  | some text =>
    let number := Text.ofInt p.line
    let below :=
      if listing.isChanged p.line then Text.of "(in macro expansion)" else underline text p
    Text.of "\n " ++ number ++ Text.of " |  " ++ expandTabs text ++ Text.of "\n" ++
      Text.spaces (number.length + 1) ++ Text.of " |  " ++ below ++ Text.of "\n"

def errorTitle (d : Diagnostic) : Text :=
  d.kind.name ++ Text.of " Error"

def warningTitle : Text := Text.of "Warning"

/-- A diagnostic under a title. -/
def display (width : Int) (path : Text) (listing : Listing) (title : Text) (d : Diagnostic) :
    Text :=
  banner width title path ++ d.message ++ Text.of "\n" ++
    match d.position? with
    | some p => excerpt listing p
    | none => []

end TwoPass.Report
