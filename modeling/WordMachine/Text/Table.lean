/-!
# Tables of two columns

A table has a row of titles, a line, its rows and a line. Each column is as wide as its longest cell.
-/

namespace WordMachine

/-- Two titles and rows of two cells. -/
structure Table where
  titles : String × String
  rows : List (String × String)
  /-- whether the first column is aligned to the right -/
  firstToRight : Bool

namespace Table

/-- The length of the longest of some texts. -/
def width (texts : List String) : Nat := (texts.map String.length).foldl max 0

def padding (width : Nat) (text : String) : String :=
  String.ofList (List.replicate (width - text.length) ' ')

/-- A cell, filled up to the width of its column. -/
def cell (toRight : Bool) (width : Nat) (text : String) : String :=
  if toRight then padding width text ++ text else text ++ padding width text

/-- A horizontal line that meets the line between the columns in `crossing`. -/
def rule (crossing : String) (first second : Nat) : String :=
  let dashes (width : Nat) := String.ofList (List.replicate (width + 2) '─')
  " " ++ dashes first ++ crossing ++ dashes second ++ " "

def lines (t : Table) : List String :=
  let all := t.titles :: t.rows
  let first := width (all.map (·.1))
  let second := width (all.map (·.2))
  let row (cells : String × String) :=
    "  " ++ cell t.firstToRight first cells.1 ++ " │ " ++ cell false second cells.2 ++ "  "
  [row t.titles, rule "┼" first second] ++ t.rows.map row ++ [rule "┴" first second]

/-- Two lists of lines side by side. The shorter one is filled up with blank lines. -/
def beside : List String → List String → List (String × String)
  | a :: as, b :: bs => (a, b) :: beside as bs
  | as, [] => as.map fun a => (a, "")
  | [], bs => bs.map fun b => ("", b)

end Table

end WordMachine
