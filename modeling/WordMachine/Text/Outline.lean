/-!
# Outlines

An outline is a heading with outlines below it. It is drawn with one line for each heading, and
branches that lead from a heading to those below it.
-/

namespace WordMachine

/-- Draws a tree behind a text for its first line and another for the lines below. -/
abbrev Draw := String → String → String

/-- What is drawn below a heading, with the branch that leads to each tree. -/
def drawBelow (stem : String) : List Draw → String
  | [] => ""
  | [draw] => "\n" ++ draw (stem ++ "└── ") (stem ++ "    ")
  | draw :: draws => "\n" ++ draw (stem ++ "├── ") (stem ++ "│   ") ++ drawBelow stem draws

/-- A heading and what stands below it. -/
inductive Outline
  | node (heading : String) (below : List Outline)

namespace Outline

mutual

/-- The lines of an outline whose first line and other lines begin with these texts. -/
def lines (first rest : String) : Outline → List String
  | node heading below => (first ++ heading) :: linesBelow rest below

/-- The lines of outlines below a heading. The branch to the last one ends the stem. -/
def linesBelow (stem : String) : List Outline → List String
  | [] => []
  | [o] => o.lines (stem ++ "└── ") (stem ++ "    ")
  | o :: os => o.lines (stem ++ "├── ") (stem ++ "│   ") ++ linesBelow stem os

end

/-- The text of an outline, without a line feed at its end. -/
def text (o : Outline) : String := "\n".intercalate (o.lines "" "")

end Outline

end WordMachine
