import WordMachine.Proofs.Compiler.Accepted
import WordMachine.Proofs.Compiler.Moves
import WordMachine.Proofs.Compiler.Typing
import WordMachine.Proofs.Source.Appearance
import WordMachine.Proofs.Source.RoundTrip

/-!
# Programs that call deep

A function with these local variables calls itself as often as its argument says, and then another
function. It is called for the second argument of a call whose first one has been pushed before. Whatever
the names of the variables are and however deep the calls go, the text of such a program is parsed, and it
is compiled to the same lines (`compile_descent`).
-/

namespace WordMachine

theorem Numeral.repr_injective : Function.Injective Nat.repr := by
  intro i j h
  have hdigits : Nat.toDigits 10 i = Nat.toDigits 10 j := String.ofList_injective h
  calc
    i = Nat.ofDigitChars 10 (Nat.toDigits 10 i) 0 := Nat.ofDigitChars_ten_toDigits.symm
    _ = Nat.ofDigitChars 10 (Nat.toDigits 10 j) 0 := by rw [hdigits]
    _ = j := Nat.ofDigitChars_ten_toDigits

theorem Source.firsts_of_nodup {α : Type} [DecidableEq α] {as : List α} (h : as.Nodup) :
    firsts as = as := by
  induction as with
  | nil => rfl
  | cons a as ih =>
    rw [List.nodup_cons] at h
    rw [firsts, ih h.2, List.filter_eq_self.2]
    intro b hb
    exact decide_eq_true (ne_of_mem_of_not_mem hb h.1)

namespace Compiler

open Assembly Source Code

/-! ### Functions -/

/-- Statements that do nothing but name variables. -/
def mentions (xs : List String) : List Stmt := xs.map fun x => .exec (.name x)

def printer : Function := ⟨"f", ["a", "b"], [.exec (.call "printchar" [.name "a"])]⟩

def idler : Function := ⟨"g", ["c"], []⟩

def diver (xs : List String) : Function where
  name := "r"
  parameters := ["n"]
  body := .ifElse (.name "n") [.exec (.call "r" [.binary .subtract (.name "n") (.int 1)])]
    [.exec (.call "g" [.int 66])] :: mentions xs

def descentMain (depth : Word) : Function :=
  ⟨"main", [], [.exec (.call "f" [.int 65, .call "r" [.int depth]])]⟩

/-- The program with these local variables, which calls so deep. -/
def descent (xs : List String) (depth : Word) : List Function :=
  [printer, idler, diver xs, descentMain depth]

/-! ### Lines -/

/-- Reserves the local variables and tests the argument. -/
def entering (locals : Nat) : Code :=
  .blank :: label (.function ⟨"r", 1⟩) :: (reserve frameSize locals ++
    (valueAt (locals + 1) ifCondition ++ [test ifCondition, jiz (.otherwise 0)]))

def lessening (locals : Nat) : Code :=
  set ⟨1⟩ 1 :: push ⟨1⟩ :: (valueAt (locals + 2) ⟨1⟩ ++ [pop ⟨2⟩, sub ⟨1⟩ ⟨2⟩])

def descending : Code :=
  push ⟨1⟩ :: call (.function ⟨"r", 1⟩) :: (release .result 1 ++ [jmp (.endIf 0)])

def turning : Code :=
  label (.otherwise 0) :: set ⟨1⟩ 66 :: push ⟨1⟩ :: call (.function ⟨"g", 1⟩) :: release .result 1

def leaving (locals : Nat) : Code := label (.endIf 0) :: (release frameSize locals ++ [ret])

def diverCode (locals : Nat) : Code :=
  entering locals ++ (lessening locals ++ (descending ++ (turning ++ leaving locals)))

def printerCode : Code :=
  .blank :: label (.function ⟨"f", 2⟩) :: (valueAt 2 ⟨1⟩ ++
    (push ⟨1⟩ :: call (.function .printchar) :: (release .result 1 ++ [ret])))

def idlerCode : Code := [.blank, label (.function ⟨"g", 1⟩), ret]

def firstArgument : Code := [.blank, label (.function .main), set ⟨1⟩ 65]

/-- Calls the function for the second argument and pushes what it returns. -/
def secondArgument (depth : Word) : Code :=
  set ⟨2⟩ depth.toNat :: push ⟨2⟩ :: call (.function ⟨"r", 1⟩) :: mov ⟨1⟩ .result ::
    (release .result 1 ++ [push ⟨1⟩])

def descentMainCode (depth : Word) : Code :=
  firstArgument ++ push ⟨1⟩ :: (secondArgument depth ++
    call (.function ⟨"f", 2⟩) :: (release .result 2 ++ [ret]))

def descentCode (locals : Nat) (depth : Word) : Code :=
  preamble ++ (printerCode ++ (idlerCode ++ (diverCode locals ++
    (descentMainCode depth ++ [label .programEnd]))))

/-- The lines before the first argument is pushed. -/
def untilFirst (locals : Nat) : Code :=
  preamble ++ (printerCode ++ (idlerCode ++ (diverCode locals ++ firstArgument)))

/-! ### Parsing -/

variable {xs : List String} {depth : Word} {locals : Nat}

theorem mem_allExpressions_mentions {e : Expr} (h : e ∈ Stmt.allExpressions (mentions xs)) :
    ∃ x ∈ xs, e = .name x := by
  induction xs with
  | nil => cases h
  | cons x xs ih =>
    rcases List.mem_cons.1 h with rfl | h
    · exact ⟨x, List.mem_cons_self, rfl⟩
    · rcases ih h with ⟨y, hy, rfl⟩
      exact ⟨y, List.mem_cons_of_mem x hy, rfl⟩

theorem allCounters_mentions (xs : List String) : Stmt.allCounters (mentions xs) = [] := by
  induction xs with
  | nil => rfl
  | cons x xs ih => exact ih

theorem renderable_diver (hx : ∀ x ∈ xs, isIdentifier x = true) : (diver xs).Renderable where
  name := by
    show isIdentifier "r" = true
    decide
  parameters := by
    show ∀ x ∈ ["n"], isIdentifier x = true
    decide
  expressions e he := by
    have he : e ∈ [.name "n", .call "r" [.binary .subtract (.name "n") (.int 1)],
      .call "g" [.int 66]] ++ Stmt.allExpressions (mentions xs) := he
    rcases List.mem_append.1 he with he | he
    · simp only [List.mem_cons, List.not_mem_nil, or_false] at he
      rcases he with rfl | rfl | rfl <;> exact ⟨by decide, by decide⟩
    · rcases mem_allExpressions_mentions he with ⟨x, hm, rfl⟩
      exact spelled_name.2 (hx x hm)
  counters := by
    have hnone : Stmt.allCounters (diver xs).body = [] := allCounters_mentions xs
    rw [hnone]
    exact List.forall_mem_nil _

theorem renderable_descentMain (depth : Word) : (descentMain depth).Renderable where
  name := by
    show isIdentifier "main" = true
    decide
  parameters := List.forall_mem_nil _
  expressions := by
    refine List.forall_mem_singleton.2 (spelled_call.2 ⟨by decide, ?_⟩)
    exact List.forall_mem_cons.2 ⟨spelled_int, List.forall_mem_singleton.2
      (spelled_call.2 ⟨by decide, List.forall_mem_singleton.2 spelled_int⟩)⟩
  counters := List.forall_mem_nil _

theorem forall_mem_descent {p : Function → Prop} (hprinter : p printer) (hidler : p idler)
    (hdiver : p (diver xs)) (hmain : p (descentMain depth)) : ∀ f ∈ descent xs depth, p f := by
  simp only [descent, List.forall_mem_cons]
  exact ⟨hprinter, hidler, hdiver, hmain, List.forall_mem_nil p⟩

theorem parse_descent (depth : Word) (hx : ∀ x ∈ xs, isIdentifier x = true) :
    parse (Source.render (descent xs depth)) = .ok (descent xs depth) := by
  refine parse_render_of_renderable (forall_mem_descent ?_ ?_ ?_ ?_)
  · exact ⟨by decide, by decide, List.forall_mem_singleton.2 ⟨by decide, by decide⟩,
      List.forall_mem_nil _⟩
  · exact ⟨by decide, by decide, List.forall_mem_nil _, List.forall_mem_nil _⟩
  · exact renderable_diver hx
  · exact renderable_descentMain depth

/-! ### Compiling -/

theorem allVariables_mentions (xs : List String) :
    Expr.allVariables (Stmt.allExpressions (mentions xs)) = xs := by
  induction xs with
  | nil => rfl
  | cons x xs ih =>
    show x :: Expr.allVariables (Stmt.allExpressions (mentions xs)) = _
    rw [ih]

theorem allCalls_mentions (xs : List String) :
    Expr.allCalls (Stmt.allExpressions (mentions xs)) = [] := by
  induction xs with
  | nil => rfl
  | cons x xs ih => exact ih

theorem allTargets_mentions (xs : List String) : Stmt.allTargets (mentions xs) = [] := by
  induction xs with
  | nil => rfl
  | cons x xs ih => exact ih

theorem block_mentions (xs : List String) (c : Context) : block (mentions xs) c = .ok ([], c) := by
  induction xs with
  | nil => rfl
  | cons x xs ih =>
    show (statement (.exec (.name x)) >>= fun first => do
      let rest ← block (mentions xs)
      return first ++ rest) c = _
    simp [statement, expression, bind, Generator.andThen, ih, pure, Generator.succeed]

theorem locals_diver (hx : ("n" :: xs).Nodup) : (diver xs).locals = xs := by
  have hvars : Expr.allVariables (Stmt.allExpressions (diver xs).body) = "n" :: "n" :: xs := by
    show "n" :: "n" :: Expr.allVariables (Stmt.allExpressions (mentions xs)) = _
    rw [allVariables_mentions]
  have hn : ∀ x ∈ xs, x ≠ "n" := fun x hm => ne_of_mem_of_not_mem hm (List.nodup_cons.1 hx).1
  have hown : (diver xs).parameters = ["n"] := rfl
  rw [Function.locals, hvars, firsts, firsts_of_nodup hx]
  simpa [hown] using hn

theorem callees_diver (xs : List String) : (diver xs).callees = [⟨"r", 1⟩, ⟨"g", 1⟩] := by
  show firsts (⟨"r", 1⟩ :: ⟨"g", 1⟩ :: Expr.allCalls (Stmt.allExpressions (mentions xs))) = _
  rw [allCalls_mentions]
  rfl

theorem function_diver (hx : ("n" :: xs).Nodup) :
    function (diver xs) 0 = .ok (diverCode xs.length, 1) := by
  have hn : lastIndex? "n" xs = none := by
    cases h : lastIndex? "n" xs with
    | none => rfl
    | some i => exact absurd (Frame.isSome_lastIndex?_iff.1 (h ▸ rfl)) (List.nodup_cons.1 hx).1
  have hoff (k : Nat) : Frame.offset? ⟨["n"], xs, k⟩ "n" = some (xs.length + 1 + k) := by
    simp [Frame.offset?, hn, lastIndex?]
  have hfirst : Register.result.adjacent = ⟨1⟩ := rfl
  have hsecond : Register.adjacent ⟨1⟩ = ⟨2⟩ := rfl
  rw [function, locals_diver hx]
  simp [diver, block, statement, expression, pushArguments, bind, Generator.andThen, pure,
    Generator.succeed, Generator.freshId, Generator.offset, Generator.pushed, Generator.popped,
    block_mentions, hoff, Frame.push, Frame.pop?, combine, hfirst, hsecond, Function.signature,
    diverCode, entering, lessening, descending, turning, leaving]

theorem check_descent (xs : List String) (depth : Word) : check (descent xs depth) = .ok () := by
  have hduplicate : duplicate? Signature.builtins (descent xs depth) = none := by rfl
  have hdiver : (diver xs).callees.find? (· ∉ defined (descent xs depth)) = none := by
    rw [callees_diver]
    rfl
  have hundefined : undefined? (descent xs depth) = none := by
    have hall : ∀ f ∈ descent xs depth,
        f.callees.find? (· ∉ defined (descent xs depth)) = none :=
      forall_mem_descent rfl rfl hdiver rfl
    rw [undefined?, List.findSome?_eq_none_iff]
    intro f hf
    rw [hall f hf]
    rfl
  rw [check, hduplicate]
  dsimp only
  rw [hundefined]
  rfl

theorem compile_descent (depth : Word) (hx : ∀ x ∈ xs, isIdentifier x = true)
    (hn : ("n" :: xs).Nodup) :
    compile (Source.render (descent xs depth)) = .ok (descentCode xs.length depth) := by
  have hprinter : function printer 0 = .ok (printerCode, 0) := rfl
  have hidler : function idler 0 = .ok (idlerCode, 0) := rfl
  have hmain : function (descentMain depth) 1 = .ok (descentMainCode depth, 1) := rfl
  rw [compile, parse_descent depth hx]
  dsimp only
  rw [compileFunctions, check_descent]
  simp [descent, functions, hprinter, hidler, function_diver hn, hmain, bind, Except.bind, pure,
    Except.pure, descentCode]

theorem direct_descent (xs : List String) (depth : Word) :
    ∀ f ∈ descent xs depth, Direct (Stmt.allTargets f.body) := by
  refine forall_mem_descent (List.forall_mem_nil _) (List.forall_mem_nil _) ?_ (List.forall_mem_nil _)
  have hnone : Stmt.allTargets (diver xs).body = [] := allTargets_mentions xs
  rw [hnone]
  exact List.forall_mem_nil _

theorem extent_entering (hl : 0 < locals) : extent (entering locals) = 29 := by
  simp [entering, reserve, valueAt, addressAt, Nat.ne_of_gt hl]

theorem extent_lessening (locals : Nat) : extent (lessening locals) = 25 := by
  simp [lessening, valueAt, addressAt]

theorem extent_leaving (hl : 0 < locals) : extent (leaving locals) = 10 := by
  simp [leaving, release, Nat.ne_of_gt hl]

theorem extent_diverCode (hl : 0 < locals) : extent (diverCode locals) = 107 := by
  simp only [diverCode, extent_append, extent_entering hl, extent_lessening, extent_leaving hl]
  rfl

theorem extent_descentCode (hl : 0 < locals) (depth : Word) :
    extent (descentCode locals depth) = 215 := by
  simp only [descentCode, extent_append, extent_diverCode hl]
  rfl

theorem assemble_descent (depth : Word) (hx : ∀ x ∈ xs, isIdentifier x = true)
    (hn : ("n" :: xs).Nodup) (h0 : 0 < xs.length) (hlen : xs.length < 1073741824) :
    ∃ program labels, assemble (render (descentCode xs.length depth)) = .ok program ∧
      Placed labels program 0 (descentCode xs.length depth) ∧ program.length = 215 := by
  have hp := parse_descent depth hx
  have hc := compile_descent depth hx hn
  have hextent := extent_descentCode h0 depth
  obtain ⟨codes, h⟩ := compiled_of_compile hp hc
  have hclean := h.clean (isWord_of_defined hp)
  have hvariables : ∀ f ∈ descent xs depth,
      f.parameters.length + f.locals.length + 4294967296 ≤ 2305843009213693952 := by
    refine forall_mem_descent (by decide) (by decide) ?_ ?_
    · have hown : (diver xs).parameters.length = 1 := rfl
      rw [locals_diver hn, hown]
      omega
    · show 0 + 0 + 4294967296 ≤ 2305843009213693952
      decide
  have hfits := h.fits hvariables (by omega)
  have ha := assemble_render hclean hfits
    (valid_of_nodup (nodup_declarations_of_compile hc h) (by omega)) h.references_subset
  obtain ⟨labels, hplaced, hlength⟩ := placed_of_assemble hclean ha
  exact ⟨_, labels, ha, hplaced, hlength.trans hextent⟩

theorem descentCode_split (locals : Nat) (depth : Word) : descentCode locals depth =
    untilFirst locals ++ push ⟨1⟩ :: (secondArgument depth ++
      call (.function printer.signature) :: (release .result 2 ++ [ret, label .programEnd])) := by
  have hsignature : printer.signature = ⟨"f", 2⟩ := rfl
  simp only [descentCode, descentMainCode, untilFirst, hsignature, List.append_assoc, List.cons_append,
    List.nil_append]

theorem extent_untilFirst (hl : 0 < locals) : extent (untilFirst locals) = 171 := by
  simp only [untilFirst, extent_append, extent_diverCode hl]
  rfl

/-! ### Names -/

/-- So many different names. -/
def numberedNames (n : Nat) : List String := (List.range n).map fun i => "x" ++ i.repr

theorem length_numberedNames (n : Nat) : (numberedNames n).length = n := by
  rw [numberedNames, List.length_map, List.length_range]

theorem nodup_numberedNames (n : Nat) : ("n" :: numberedNames n).Nodup := by
  refine List.nodup_cons.2 ⟨fun h => ?_, ?_⟩
  · rcases List.mem_map.1 h with ⟨i, _, hi⟩
    have hhead := congrArg (fun t => t.toList.head?) hi
    simp at hhead
  · refine List.Pairwise.map _ (fun i j hne he => hne (Numeral.repr_injective ?_)) List.nodup_range
    simpa using he

theorem isIdentifier_of_mem_numberedNames {x : String} {n : Nat} (h : x ∈ numberedNames n) :
    isIdentifier x = true := by
  rcases List.mem_map.1 h with ⟨i, _, rfl⟩
  have hlist : ("x" ++ i.repr).toList = 'x' :: i.repr.toList := by simp
  have hk : Keyword.ofText? ("x" ++ i.repr) = none := by
    rw [Keyword.ofText?, List.find?_eq_none]
    intro k _ he
    have hhead := congrArg (fun t => t.toList.head?) (eq_of_beq he)
    rw [hlist] at hhead
    cases k <;> cases hhead
  have hpart : i.repr.toList.all isWordPart = true := by
    rw [List.all_eq_true]
    intro c hc
    have hd := Numeral.isDigit_of_mem_repr hc
    simp [isWordPart, Char.isAlphanum, hd]
  rw [isIdentifier, isWordShaped, hlist, hk]
  exact Bool.and_eq_true_iff.2 ⟨Bool.and_eq_true_iff.2 ⟨rfl, hpart⟩, rfl⟩

end Compiler

end WordMachine
