import WordMachine.Source.Tree
import WordMachine.Text.Outline

/-!
# Drawings of programs

The drawing of an expression, a statement or a function shows its tree. Blocks of statements have
headings of their own. The outline says what is drawn and not where the branches are.
-/

namespace WordMachine.Source

/-! ### Drawings -/

mutual

def Expr.draw : Expr → Draw
  | .int value, first, _ => first ++ "Int<" ++ value.text ++ ">"
  | .name text, first, _ => first ++ "Name<" ++ text ++ ">"
  | .unary op operand, first, rest =>
    first ++ "Unary<" ++ String.singleton op.symbol ++ ">" ++ drawBelow rest [operand.draw]
  | .binary op left right, first, rest =>
    first ++ "Binary<" ++ String.singleton op.symbol ++ ">" ++ drawBelow rest [left.draw, right.draw]
  | .call callee arguments, first, rest =>
    first ++ "Call<" ++ (Signature.mk callee arguments.length).text ++ ">" ++
      drawBelow rest (Expr.draws arguments)

def Expr.draws : List Expr → List Draw
  | [] => []
  | e :: es => e.draw :: Expr.draws es

end

/-- A block of statements on lines of its own. -/
def drawBlock (label : String) (body : List Draw) (first rest : String) : String :=
  "\n" ++ first ++ label ++ drawBelow rest body

mutual

/-- Blocks hang below the expressions of their statement. -/
def Stmt.draw : Stmt → Draw
  | .ifElse condition body otherwise, first, rest =>
    first ++ "If" ++ "\n" ++ condition.draw (rest ++ "├── ") (rest ++ "│   ") ++
      if otherwise.isEmpty then
        drawBlock "Then" (Stmt.draws body) (rest ++ "└── ") (rest ++ "    ")
      else
        drawBlock "Then" (Stmt.draws body) (rest ++ "├── ") (rest ++ "│   ") ++
          drawBlock "Else" (Stmt.draws otherwise) (rest ++ "└── ") (rest ++ "    ")
  | .whileDo condition body, first, rest =>
    first ++ "While" ++ "\n" ++ condition.draw (rest ++ "├── ") (rest ++ "│   ") ++
      drawBlock "Do" (Stmt.draws body) (rest ++ "└── ") (rest ++ "    ")
  | .forDo counter start condition step body, first, rest =>
    first ++ "For" ++
      String.join ([counter, start, condition, step].map fun e =>
        "\n" ++ e.draw (rest ++ "├── ") (rest ++ "│   ")) ++
      drawBlock "Do" (Stmt.draws body) (rest ++ "└── ") (rest ++ "    ")
  | .ret none, first, _ => first ++ "Return"
  | .ret (some value), first, rest =>
    first ++ "Return" ++ "\n" ++ value.draw (rest ++ "└── ") (rest ++ "    ")
  | .breakLoop, first, _ => first ++ "Break"
  | .continueLoop, first, _ => first ++ "Continue"
  | .assign target value, first, rest =>
    first ++ "Assign" ++ "\n" ++ target.draw (rest ++ "├── ") (rest ++ "│   ") ++
      "\n" ++ value.draw (rest ++ "└── ") (rest ++ "    ")
  | .exec expression, first, rest =>
    first ++ "Exec" ++ "\n" ++ expression.draw (rest ++ "└── ") (rest ++ "    ")

def Stmt.draws : List Stmt → List Draw
  | [] => []
  | s :: ss => s.draw :: Stmt.draws ss

end

/-- The drawing of a function. Its statements are directly below it. -/
def Function.draw (f : Function) : String :=
  "Function<" ++ f.name ++ "(" ++ ", ".intercalate f.parameters ++ ")>" ++
    drawBelow "" (Stmt.draws f.body)

/-! ### Outlines -/

mutual

def Expr.outline : Expr → Outline
  | .int value => .node ("Int<" ++ value.text ++ ">") []
  | .name text => .node ("Name<" ++ text ++ ">") []
  | .unary op operand => .node ("Unary<" ++ String.singleton op.symbol ++ ">") [operand.outline]
  | .binary op left right =>
    .node ("Binary<" ++ String.singleton op.symbol ++ ">") [left.outline, right.outline]
  | .call callee arguments =>
    .node ("Call<" ++ (Signature.mk callee arguments.length).text ++ ">") (Expr.outlines arguments)

def Expr.outlines : List Expr → List Outline
  | [] => []
  | e :: es => e.outline :: Expr.outlines es

end

mutual

def Stmt.outline : Stmt → Outline
  | .ifElse condition body otherwise =>
    let rest := if otherwise.isEmpty then [] else [.node "Else" (Stmt.outlines otherwise)]
    .node "If" (condition.outline :: .node "Then" (Stmt.outlines body) :: rest)
  | .whileDo condition body => .node "While" [condition.outline, .node "Do" (Stmt.outlines body)]
  | .forDo counter start condition step body =>
    .node "For" [counter.outline, start.outline, condition.outline, step.outline,
      .node "Do" (Stmt.outlines body)]
  | .ret value => .node "Return" (value.map Expr.outline).toList
  | .breakLoop => .node "Break" []
  | .continueLoop => .node "Continue" []
  | .assign target value => .node "Assign" [target.outline, value.outline]
  | .exec expression => .node "Exec" [expression.outline]

def Stmt.outlines : List Stmt → List Outline
  | [] => []
  | s :: ss => s.outline :: Stmt.outlines ss

end

def Function.outline (f : Function) : Outline :=
  .node ("Function<" ++ f.name ++ "(" ++ ", ".intercalate f.parameters ++ ")>")
    (Stmt.outlines f.body)

end WordMachine.Source
