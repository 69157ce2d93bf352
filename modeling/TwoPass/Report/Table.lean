import TwoPass.Text.Basic
import TwoPass.Text.Utf8

/-!
Tables of text in plain columns.
-/
namespace TwoPass.Report

/-- The width of a cell in characters. -/
def cellWidth (t : Text) : Nat :=
  t.decode.length

def padTo (width : Nat) (t : Text) : Text :=
  t ++ Text.spaces (width - cellWidth t)

/-- The width of each column: that of its widest cell. -/
def columnWidths (header : List Text) (rows : List (List Text)) : List Nat :=
  rows.foldl (fun widths row => List.zipWith max widths (row.map cellWidth)) (header.map cellWidth)

/-- Rows of cells, each column padded to its width. -/
def renderTable (header : List Text) (rows : List (List Text)) : Text :=
  let widths := columnWidths header rows
  Text.joinWith (Text.of "\n") <|
    (header :: rows).map fun row =>
      Text.joinWith (Text.of " | ") (List.zipWith padTo widths row)

end TwoPass.Report
