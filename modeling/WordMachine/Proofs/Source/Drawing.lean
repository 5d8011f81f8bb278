import WordMachine.Source.Drawing
import WordMachine.Proofs.Outlines
import WordMachine.Proofs.Source.Rendering

/-!
# What drawings show

A drawing of a function has one line for the function, for each statement and expression in it and for
the heading of each block. Functions whose drawings are alike have the same bodies if they have the same
name and parameters.
-/

namespace WordMachine.Source

/-! ### Outlines show trees -/

theorem Expr.outlines_eq (es : List Expr) : Expr.outlines es = es.map Expr.outline := by
  induction es with
  | nil => rfl
  | cons e es ih => rw [Expr.outlines, ih, List.map_cons]

theorem Stmt.outlines_eq (ss : List Stmt) : Stmt.outlines ss = ss.map Stmt.outline := by
  induction ss with
  | nil => rfl
  | cons s ss ih => rw [Stmt.outlines, ih, List.map_cons]

theorem word_text_inj {v w : Word} (h : v.text = w.text) : v = w := by
  have hread := congrArg (fun text => Numeral.natural? text.toList) h
  simp only [Word.text, Numeral.natural?_repr, Option.some.injEq] at hread
  exact UInt32.toNat_inj.1 hread

theorem BinaryOp.symbol_inj {op op' : BinaryOp} (h : op.symbol = op'.symbol) : op = op' := by
  rw [← Option.some_inj, ← op.ofSymbol?_symbol, ← op'.ofSymbol?_symbol, h]

theorem UnaryOp.symbol_inj {op op' : UnaryOp} (h : op.symbol = op'.symbol) : op = op' := by
  rw [← Option.some_inj, ← op.ofSymbol?_symbol, ← op'.ofSymbol?_symbol, h]

theorem enclosed_inj {first last x y : String} (h : first ++ x ++ last = first ++ y ++ last) : x = y :=
  String.append_right_inj _ |>.1 (String.append_left_inj _ |>.1 h)

mutual

/-- Expressions with the same outline are the same. -/
theorem Expr.outline_inj (e e' : Expr) (h : e.outline = e'.outline) : e = e' := by
  have hheading : e.outline.heading.toList = e'.outline.heading.toList := by rw [h]
  match e with
  | .int v =>
    cases e' with
    | int v' =>
      obtain ⟨hheading, _⟩ := Outline.node.inj h
      rw [word_text_inj (enclosed_inj hheading)]
    | _ => simp [Expr.outline, Outline.heading] at hheading
  | .name x =>
    cases e' with
    | name x' =>
      obtain ⟨hheading, _⟩ := Outline.node.inj h
      rw [enclosed_inj hheading]
    | _ => simp [Expr.outline, Outline.heading] at hheading
  | .unary op operand =>
    cases e' with
    | unary op' operand' =>
      obtain ⟨hheading, hbelow⟩ := Outline.node.inj h
      rw [UnaryOp.symbol_inj (String.singleton_inj.1 (enclosed_inj hheading)),
        operand.outline_inj operand' (List.cons.inj hbelow).1]
    | _ => simp [Expr.outline, Outline.heading] at hheading
  | .binary op left right =>
    cases e' with
    | binary op' left' right' =>
      obtain ⟨hheading, hbelow⟩ := Outline.node.inj h
      obtain ⟨hleft, hrest⟩ := List.cons.inj hbelow
      rw [BinaryOp.symbol_inj (String.singleton_inj.1 (enclosed_inj hheading)),
        left.outline_inj left' hleft, right.outline_inj right' (List.cons.inj hrest).1]
    | _ => simp [Expr.outline, Outline.heading] at hheading
  | .call callee arguments =>
    cases e' with
    | call callee' arguments' =>
      obtain ⟨hheading, hbelow⟩ := Outline.node.inj h
      -- the number of arguments is cut off first
      obtain rfl := Expr.outlines_inj arguments arguments' hbelow
      have hcallee : callee ++ "/" ++ _ = callee' ++ "/" ++ _ := enclosed_inj hheading
      rw [String.append_left_inj, String.append_left_inj] at hcallee
      rw [hcallee]
    | _ => simp [Expr.outline, Outline.heading] at hheading

theorem Expr.outlines_inj (es es' : List Expr) (h : Expr.outlines es = Expr.outlines es') : es = es' := by
  match es with
  | [] =>
    cases es' with
    | nil => rfl
    | cons e' es' => cases h
  | e :: es =>
    cases es' with
    | nil => cases h
    | cons e' es' =>
      obtain ⟨he, hes⟩ := List.cons.inj h
      rw [e.outline_inj e' he, Expr.outlines_inj es es' hes]

end

mutual

/-- Statements with the same outline are the same. A missing part is not drawn as an empty one. -/
theorem Stmt.outline_inj (s s' : Stmt) (h : s.outline = s'.outline) : s = s' := by
  have hheading := congrArg Outline.heading h
  match s with
  | .ifElse condition body otherwise =>
    cases s' with
    | ifElse condition' body' otherwise' =>
      obtain ⟨_, hbelow⟩ := Outline.node.inj h
      obtain ⟨hcondition, hblocks⟩ := List.cons.inj hbelow
      obtain ⟨hthen, helse⟩ := List.cons.inj hblocks
      obtain ⟨_, hbody⟩ := Outline.node.inj hthen
      have hotherwise : Stmt.outlines otherwise = Stmt.outlines otherwise' := by
        cases otherwise <;> cases otherwise' <;> simp at helse
        · rfl
        · exact helse
      rw [condition.outline_inj condition' hcondition, Stmt.outlines_inj body body' hbody,
        Stmt.outlines_inj otherwise otherwise' hotherwise]
    | _ => simp [Stmt.outline, Outline.heading] at hheading
  | .whileDo condition body =>
    cases s' with
    | whileDo condition' body' =>
      obtain ⟨_, hbelow⟩ := Outline.node.inj h
      obtain ⟨hcondition, hblock⟩ := List.cons.inj hbelow
      obtain ⟨_, hbody⟩ := Outline.node.inj (List.cons.inj hblock).1
      rw [condition.outline_inj condition' hcondition, Stmt.outlines_inj body body' hbody]
    | _ => simp [Stmt.outline, Outline.heading] at hheading
  | .forDo counter start condition step body =>
    cases s' with
    | forDo counter' start' condition' step' body' =>
      obtain ⟨_, hbelow⟩ := Outline.node.inj h
      obtain ⟨hcounter, hbelow⟩ := List.cons.inj hbelow
      obtain ⟨hstart, hbelow⟩ := List.cons.inj hbelow
      obtain ⟨hcondition, hbelow⟩ := List.cons.inj hbelow
      obtain ⟨hstep, hblock⟩ := List.cons.inj hbelow
      obtain ⟨_, hbody⟩ := Outline.node.inj (List.cons.inj hblock).1
      rw [counter.outline_inj counter' hcounter, start.outline_inj start' hstart,
        condition.outline_inj condition' hcondition, step.outline_inj step' hstep,
        Stmt.outlines_inj body body' hbody]
    | _ => simp [Stmt.outline, Outline.heading] at hheading
  | .ret value =>
    cases s' with
    | ret value' =>
      obtain ⟨_, hbelow⟩ := Outline.node.inj h
      cases value <;> cases value' <;> simp at hbelow
      · rfl
      · rw [Expr.outline_inj _ _ hbelow]
    | _ => simp [Stmt.outline, Outline.heading] at hheading
  | .breakLoop =>
    cases s' with
    | breakLoop => rfl
    | _ => simp [Stmt.outline, Outline.heading] at hheading
  | .continueLoop =>
    cases s' with
    | continueLoop => rfl
    | _ => simp [Stmt.outline, Outline.heading] at hheading
  | .assign target value =>
    cases s' with
    | assign target' value' =>
      obtain ⟨_, hbelow⟩ := Outline.node.inj h
      obtain ⟨htarget, hrest⟩ := List.cons.inj hbelow
      rw [target.outline_inj target' htarget, value.outline_inj value' (List.cons.inj hrest).1]
    | _ => simp [Stmt.outline, Outline.heading] at hheading
  | .exec expression =>
    cases s' with
    | exec expression' =>
      obtain ⟨_, hbelow⟩ := Outline.node.inj h
      rw [expression.outline_inj expression' (List.cons.inj hbelow).1]
    | _ => simp [Stmt.outline, Outline.heading] at hheading

theorem Stmt.outlines_inj (ss ss' : List Stmt) (h : Stmt.outlines ss = Stmt.outlines ss') : ss = ss' := by
  match ss with
  | [] =>
    cases ss' with
    | nil => rfl
    | cons s' ss' => cases h
  | s :: ss =>
    cases ss' with
    | nil => cases h
    | cons s' ss' =>
      obtain ⟨hs, hss⟩ := List.cons.inj h
      rw [s.outline_inj s' hs, Stmt.outlines_inj ss ss' hss]

end

/-! ### Drawings show outlines -/

mutual

theorem Expr.draw_outline (e : Expr) : e.outline.draw = e.draw := by
  funext first rest
  rw [Expr.outline.eq_def, Expr.draw.eq_def]
  match e with
  | .int value | .name text =>
    simp only [Outline.draw_node, List.map_nil, drawBelow, String.append_empty, String.append_assoc]
  | .unary op operand =>
    rw [Outline.draw_node, List.map_singleton, operand.draw_outline]
    simp only [String.append_assoc]
  | .binary op left right =>
    rw [Outline.draw_node, List.map_cons, List.map_singleton, left.draw_outline, right.draw_outline]
    simp only [String.append_assoc]
  | .call callee arguments =>
    rw [Outline.draw_node, Expr.draws_outlines arguments]
    simp only [String.append_assoc]

theorem Expr.draws_outlines (es : List Expr) : (Expr.outlines es).map Outline.draw = Expr.draws es := by
  match es with
  | [] => rfl
  | e :: es => rw [Expr.outlines, List.map_cons, e.draw_outline, Expr.draws_outlines es, Expr.draws]

end

theorem drawBlock_outlines (label : String) (os : List Outline) (first rest : String) :
    drawBlock label (os.map Outline.draw) first rest =
      "\n" ++ (Outline.node label os).draw first rest := by
  rw [drawBlock, Outline.draw_node]
  simp [String.append_assoc]

mutual

/-- A statement has its expressions and blocks below it, and the last of them is behind the last branch. -/
theorem Stmt.draw_outline (s : Stmt) : s.outline.draw = s.draw := by
  funext first rest
  match s with
  | .ifElse condition body otherwise =>
    rw [Stmt.draw, ← condition.draw_outline, ← Stmt.draws_outlines body, ← Stmt.draws_outlines otherwise]
    cases otherwise <;>
      simp [Stmt.outline, Outline.draw_node, drawBelow, drawBlock_outlines, String.append_assoc,
        -String.reduceAppend]
  | .whileDo condition body =>
    rw [Stmt.draw, ← condition.draw_outline, ← Stmt.draws_outlines body]
    simp [Stmt.outline, Outline.draw_node, drawBelow, drawBlock_outlines, String.append_assoc,
        -String.reduceAppend]
  | .forDo counter start condition step body =>
    rw [Stmt.draw, ← Stmt.draws_outlines body]
    simp [Stmt.outline, Outline.draw_node, drawBelow, drawBlock_outlines, Expr.draw_outline,
      String.append_assoc, -String.reduceAppend]
  | .ret none | .breakLoop | .continueLoop =>
    simp [Stmt.draw, Stmt.outline, Outline.draw_node, drawBelow]
  | .ret (some value) =>
    rw [Stmt.draw, ← value.draw_outline]
    simp [Stmt.outline, Outline.draw_node, drawBelow, String.append_assoc, -String.reduceAppend]
  | .assign target value =>
    rw [Stmt.draw, ← target.draw_outline, ← value.draw_outline]
    simp [Stmt.outline, Outline.draw_node, drawBelow, String.append_assoc, -String.reduceAppend]
  | .exec expression =>
    rw [Stmt.draw, ← expression.draw_outline]
    simp [Stmt.outline, Outline.draw_node, drawBelow, String.append_assoc, -String.reduceAppend]

theorem Stmt.draws_outlines (ss : List Stmt) : (Stmt.outlines ss).map Outline.draw = Stmt.draws ss := by
  match ss with
  | [] => rfl
  | s :: ss => rw [Stmt.outlines, List.map_cons, s.draw_outline, Stmt.draws_outlines ss, Stmt.draws]

end

theorem Function.draw_eq (f : Function) : f.draw = f.outline.text := by
  calc f.draw = "" ++ ("Function<" ++ f.name ++ "(" ++ ", ".intercalate f.parameters ++ ")>") ++
        drawBelow "" ((Stmt.outlines f.body).map Outline.draw) := by
        rw [Stmt.draws_outlines, String.empty_append, Function.draw]
    _ = f.outline.draw "" "" := (Outline.draw_node _ _ _ _).symm

/-! ### Nodes -/

/-- What has a line in a drawing. -/
inductive Node
  | function (f : Function)
  | statement (s : Stmt)
  | expression (e : Expr)
  | thenBlock (body : List Stmt)
  | elseBlock (body : List Stmt)
  | doBlock (body : List Stmt)

namespace Node

/-- What is drawn below a node. The block behind an ELSE is drawn if there are statements in it. -/
def children : Node → List Node
  | function f => f.body.map statement
  | statement (.ifElse condition body otherwise) =>
    expression condition :: thenBlock body :: if otherwise.isEmpty then [] else [elseBlock otherwise]
  | statement (.whileDo condition body) => [expression condition, doBlock body]
  | statement (.forDo counter start condition step body) =>
    [expression counter, expression start, expression condition, expression step, doBlock body]
  | statement (.ret value) => value.toList.map expression
  | statement .breakLoop | statement .continueLoop => []
  | statement (.assign target value) => [expression target, expression value]
  | statement (.exec e) => [expression e]
  | expression (.int _) | expression (.name _) => []
  | expression (.unary _ operand) => [expression operand]
  | expression (.binary _ left right) => [expression left, expression right]
  | expression (.call _ arguments) => arguments.map expression
  | thenBlock body | elseBlock body | doBlock body => body.map statement

def heading : Node → String
  | function f => "Function<" ++ f.name ++ "(" ++ ", ".intercalate f.parameters ++ ")>"
  | statement (.ifElse _ _ _) => "If"
  | statement (.whileDo _ _) => "While"
  | statement (.forDo _ _ _ _ _) => "For"
  | statement (.ret _) => "Return"
  | statement .breakLoop => "Break"
  | statement .continueLoop => "Continue"
  | statement (.assign _ _) => "Assign"
  | statement (.exec _) => "Exec"
  | expression (.int value) => "Int<" ++ value.text ++ ">"
  | expression (.name text) => "Name<" ++ text ++ ">"
  | expression (.unary op _) => "Unary<" ++ String.singleton op.symbol ++ ">"
  | expression (.binary op _ _) => "Binary<" ++ String.singleton op.symbol ++ ">"
  | expression (.call callee arguments) =>
    "Call<" ++ (Signature.mk callee arguments.length).text ++ ">"
  | thenBlock _ => "Then"
  | elseBlock _ => "Else"
  | doBlock _ => "Do"

def outline : Node → Outline
  | function f => f.outline
  | statement s => s.outline
  | expression e => e.outline
  | thenBlock body => .node "Then" (Stmt.outlines body)
  | elseBlock body => .node "Else" (Stmt.outlines body)
  | doBlock body => .node "Do" (Stmt.outlines body)

section

variable {n : Node}

theorem outline_eq (n : Node) : n.outline = .node n.heading (n.children.map outline) := by
  have hstatements : ∀ ss, (ss.map statement).map outline = Stmt.outlines ss := by
    intro ss
    rw [Stmt.outlines_eq, List.map_map]
    rfl
  have hexpressions : ∀ es, (es.map expression).map outline = Expr.outlines es := by
    intro es
    rw [Expr.outlines_eq, List.map_map]
    rfl
  cases n with
  | function f => rw [children, hstatements]; rfl
  | statement s =>
    cases s with
    | ifElse _ _ otherwise => cases otherwise <;> rfl
    | ret value => cases value <;> rfl
    | _ => rfl
  | expression e =>
    cases e with
    | call _ arguments => rw [children, hexpressions]; rfl
    | _ => rfl
  | thenBlock body | elseBlock body | doBlock body => rw [children, hstatements]; rfl

theorem children_outline (n : Node) : n.outline.children = n.children.map outline := by
  rw [outline_eq, Outline.children]

theorem heading_outline (n : Node) : n.outline.heading = n.heading := by
  rw [outline_eq, Outline.heading]

theorem exists_isAlpha_heading (n : Node) : ∃ c cs, n.heading.toList = c :: cs ∧ c.isAlpha = true := by
  cases n with
  | statement s => cases s <;> simp [heading]
  | expression e => cases e <;> simp [heading]
  | function _ | thenBlock _ | elseBlock _ | doBlock _ => simp [heading]

end

end Node

/-! ### Names in drawings -/

/-- The names in a function are identifiers. -/
structure Function.Spelled (f : Function) : Prop where
  name : isIdentifier f.name = true
  parameters : ∀ x ∈ f.parameters, isIdentifier x = true
  expressions : ∀ e ∈ Stmt.allExpressions f.body, e.Spelled

theorem newline_not_mem_identifier {x : String} (hx : isIdentifier x = true) : '\n' ∉ x.toList := by
  simp only [isIdentifier, isWordShaped, Bool.and_eq_true] at hx
  obtain ⟨hx, _⟩ := hx
  split at hx
  · cases hx
  · next c cs hcs =>
    rw [hcs]
    rw [Bool.and_eq_true, List.all_eq_true] at hx
    intro hmem
    have hpart : isWordPart '\n' = true := by
      rcases List.mem_cons.1 hmem with rfl | hmem
      · exact isWordPart_of_isWordStart hx.1
      · exact hx.2 _ hmem
    exact absurd hpart (by decide)

theorem newline_not_mem_repr (n : Nat) : '\n' ∉ n.repr.toList := fun hmem =>
  absurd (Numeral.isDigit_of_mem_repr hmem) (by decide)

theorem newline_not_mem_intercalate {xs : List String} (h : ∀ x ∈ xs, '\n' ∉ x.toList) :
    '\n' ∉ [',', ' '].intercalate (xs.map String.toList) := by
  induction xs with
  | nil => simp
  | cons x xs ih =>
    obtain ⟨hx, hxs⟩ := List.forall_mem_cons.1 h
    cases xs with
    | nil => simpa using hx
    | cons x' xs => simpa [hx] using ih hxs

theorem forall_mem_allExpressions {P : Expr → Prop} {ss : List Stmt} :
    (∀ e ∈ Stmt.allExpressions ss, P e) ↔ ∀ s ∈ ss, ∀ e ∈ s.expressions, P e := by
  induction ss with
  | nil => simp [Stmt.allExpressions]
  | cons s ss ih => rw [Stmt.allExpressions, List.forall_mem_append, ih, List.forall_mem_cons]

namespace Node

def Spelled : Node → Prop
  | function f => f.Spelled
  | statement s => ∀ e ∈ s.expressions, e.Spelled
  | expression e => e.Spelled
  | thenBlock body | elseBlock body | doBlock body => ∀ e ∈ Stmt.allExpressions body, e.Spelled

theorem Spelled.children {n : Node} (h : n.Spelled) : ∀ c ∈ n.children, c.Spelled := by
  have hstatements : ∀ ss, (∀ e ∈ Stmt.allExpressions ss, e.Spelled) →
      ∀ c ∈ ss.map statement, c.Spelled := fun ss hss =>
    List.forall_mem_map.2 (forall_mem_allExpressions.1 hss)
  cases n with
  | function f => exact hstatements f.body h.expressions
  | statement s =>
    cases s with
    | ifElse condition body otherwise =>
      obtain ⟨hcondition, hblocks⟩ := List.forall_mem_cons.1 h
      obtain ⟨hbody, hotherwise⟩ := List.forall_mem_append.1 hblocks
      refine List.forall_mem_cons.2 ⟨hcondition, List.forall_mem_cons.2 ⟨hbody, ?_⟩⟩
      split
      · simp
      · exact List.forall_mem_singleton.2 hotherwise
    | whileDo condition body =>
      obtain ⟨hcondition, hbody⟩ := List.forall_mem_cons.1 h
      exact List.forall_mem_cons.2 ⟨hcondition, List.forall_mem_singleton.2 hbody⟩
    | forDo counter start condition step body =>
      simp only [Spelled, Stmt.expressions, List.forall_mem_cons] at h
      simpa [Node.children, Spelled] using h
    | ret value => exact List.forall_mem_map.2 h
    | breakLoop | continueLoop => simp [Node.children]
    | assign target value | exec e => simpa [Node.children, Spelled, Stmt.expressions] using h
  | expression e =>
    cases e with
    | int _ | name _ => simp [Node.children]
    | unary op operand => exact List.forall_mem_singleton.2 h
    | binary op left right => simpa [Node.children, Spelled] using spelled_binary.1 h
    | call callee arguments => exact List.forall_mem_map.2 (spelled_call.1 h).2
  | thenBlock body | elseBlock body | doBlock body => exact hstatements body h

/-- A heading is on one line. -/
theorem Spelled.newline_not_mem_heading {n : Node} (h : n.Spelled) : '\n' ∉ n.heading.toList := by
  cases n with
  | function f =>
    have hname := newline_not_mem_identifier h.name
    have hparameters := newline_not_mem_intercalate fun x hx =>
      newline_not_mem_identifier (h.parameters x hx)
    simp [heading, hname, hparameters]
  | statement s => cases s <;> simp [heading]
  | expression e =>
    cases e with
    | int value =>
      have hdigits := newline_not_mem_repr value.toNat
      simpa [heading, Word.text] using hdigits
    | name x =>
      have hx := newline_not_mem_identifier (spelled_name.1 h)
      simp [heading, hx]
    | unary op _ => cases op <;> simp [heading, UnaryOp.symbol]
    | binary op _ _ => cases op <;> simp [heading, BinaryOp.symbol]
    | call callee arguments =>
      have hcallee := newline_not_mem_identifier (spelled_call.1 h).1
      have hdigits := newline_not_mem_repr arguments.length
      simpa [heading, Signature.text, hcallee] using hdigits
  | thenBlock _ | elseBlock _ | doBlock _ => simp [heading]

end Node

/-! ### Lines -/

open Outline (margin lastsOf)

section

variable {f g : Function}

/-- A line stands for a place of a function: it shows the heading there behind the margin of the place. -/
def Function.ShowsAt (f : Function) (line : String) (p : List Nat) : Prop :=
  ∃ n, nodeAt? Node.children (.function f) p = some n ∧
    line = margin (lastsTo Node.children (.function f) p) ++ n.heading

theorem Function.lines_places (f : Function) :
    List.Forall₂ f.ShowsAt (f.outline.lines "" "") f.outline.places := by
  refine (Outline.lines_places "" "" f.outline).imp ?_
  rintro line p ⟨o, ho, rfl⟩
  rw [← Node.outline, nodeAt?_map Node.children_outline] at ho
  obtain ⟨n, hn, rfl⟩ := Option.map_eq_some_iff.1 ho
  refine ⟨n, hn, ?_⟩
  rw [Outline.lead_empty, ← Node.outline, lastsTo_map Node.children_outline, Node.heading_outline]

theorem Function.ShowsAt.newline_not_mem {line : String} {p : List Nat} (hf : f.Spelled)
    (h : f.ShowsAt line p) : '\n' ∉ line.toList := by
  obtain ⟨n, hn, rfl⟩ := h
  have hroot : (Node.function f).Spelled := hf
  have hspelled : n.Spelled := of_nodeAt? (fun _ h => h.children) hroot hn
  rw [String.toList_append, List.mem_append, not_or]
  exact ⟨Outline.newline_not_mem_margin _, hspelled.newline_not_mem_heading⟩

theorem Function.splitOn_text (hf : f.Spelled) :
    f.outline.text.toList.splitOn '\n' = (f.outline.lines "" "").map String.toList := by
  have hlines : List.Forall₂ (fun line p => '\n' ∉ line.toList ∧ f.ShowsAt line p)
      (f.outline.lines "" "") f.outline.places :=
    f.lines_places.imp fun _ _ h => ⟨h.newline_not_mem hf, h⟩
  exact Outline.splitOn_text ((List.forall₂_and_left _ _).1 hlines).1

theorem Function.body_of_text (hf : f.Spelled) (hg : g.Spelled) (h : g.outline.text = f.outline.text) :
    g.body = f.body := by
  have hlines : (g.outline.lines "" "").map String.toList = (f.outline.lines "" "").map String.toList := by
    rw [← Function.splitOn_text hf, ← Function.splitOn_text hg, h]
  have hlines := List.map_injective_iff.2 (fun _ _ => String.toList_inj.1) hlines
  have hend : Outline.Apart "" [] := fun l hl => by cases hl
  obtain ⟨houtline, _⟩ := Outline.lines_inj g.outline f.outline hend hend (congrArg (· ++ []) hlines)
  exact Stmt.outlines_inj g.body f.body (Outline.node.inj houtline).2

end

/-- Functions of one name and with the same parameters that are drawn alike have the same body. A drawing
has one line for each place where the function has a node, in the order of the places. A line is the
heading of the node behind a margin, and the margin says for the node and each node above it, the function
apart, whether it is the last child of its parent. -/
theorem drawing_faithful (f : Function) (hf : f.Spelled) :
    (∀ g : Function, g.Spelled → g.name = f.name → g.parameters = f.parameters →
      g.outline.text = f.outline.text → g.body = f.body) ∧
    ∃ places : List (List Nat), places.Pairwise (· < ·) ∧
      (∀ p, p ∈ places ↔ (nodeAt? Node.children (.function f) p).isSome) ∧
      List.Forall₂ (fun line p => ∃ n, nodeAt? Node.children (.function f) p = some n ∧
          line = (margin (lastsTo Node.children (.function f) p) ++ n.heading).toList ∧
          lastsOf line = lastsTo Node.children (.function f) p)
        (f.outline.text.toList.splitOn '\n') places := by
  refine ⟨fun g hg _ _ h => Function.body_of_text hf hg h, f.outline.places,
    f.outline.pairwise_places, fun p => ?_, ?_⟩
  · rw [Outline.mem_places, ← Node.outline, nodeAt?_map Node.children_outline, Option.isSome_map]
  · rw [Function.splitOn_text hf, List.forall₂_map_left_iff]
    refine f.lines_places.imp ?_
    rintro line p ⟨n, hn, rfl⟩
    obtain ⟨c, cs, hheading, hc⟩ := n.exists_isAlpha_heading
    refine ⟨n, hn, rfl, ?_⟩
    rw [String.toList_append, hheading]
    exact Outline.lastsOf_margin _ hc cs

/-- A BREAK before an ELSE and one without an ELSE. -/
theorem drawing_faithful_else :
    (⟨"f", ["x"], [.ifElse (.name "x") [.breakLoop] [.continueLoop]]⟩ : Function).Spelled ∧
    (⟨"f", ["x"], [.ifElse (.name "x") [.breakLoop, .continueLoop] []]⟩ : Function).Spelled ∧
    (⟨"f", ["x"], [.ifElse (.name "x") [.breakLoop, .continueLoop] []]⟩ : Function).outline.text ≠
      (⟨"f", ["x"], [.ifElse (.name "x") [.breakLoop] [.continueLoop]]⟩ : Function).outline.text ∧
    "    │   └── Break".toList ∈ (⟨"f", ["x"], [.ifElse (.name "x") [.breakLoop] [.continueLoop]]⟩ :
      Function).outline.text.toList.splitOn '\n' := by
  have hf : (⟨"f", ["x"], [.ifElse (.name "x") [.breakLoop] [.continueLoop]]⟩ : Function).Spelled :=
    ⟨by decide, by decide, List.forall_mem_singleton.2 (spelled_name.2 (by decide))⟩
  have hg : (⟨"f", ["x"], [.ifElse (.name "x") [.breakLoop, .continueLoop] []]⟩ : Function).Spelled :=
    ⟨by decide, by decide, List.forall_mem_singleton.2 (spelled_name.2 (by decide))⟩
  obtain ⟨hbody, places, _, hplaces, hlines⟩ := drawing_faithful _ hf
  refine ⟨hf, hg, fun htext => ?_, ?_⟩
  · cases hbody _ hg rfl rfl htext
  · -- the BREAK stands under THEN, which is not the last child, under the only statement
    have hplace : [0, 1, 0] ∈ places := (hplaces _).2 rfl
    obtain ⟨i, hget⟩ := List.get_of_mem hplace
    have hi := Nat.lt_of_lt_of_eq i.isLt hlines.length_eq.symm
    obtain ⟨n, hn, hline, _⟩ := hlines.get hi i.isLt
    rw [hget] at hn hline
    cases hn
    have hshown : margin [true, false, true] ++ "Break" = "    │   └── Break" := by decide
    exact List.mem_iff_get.2 ⟨⟨i, hi⟩, hline.trans (congrArg String.toList hshown)⟩

end WordMachine.Source
