import WordMachine.Compiler.Program
import WordMachine.Proofs.Compiler.Typing

/-!
# Valid programs

What a program must satisfy beyond the grammar of the language, said of its trees alone, and the first
thing that is wrong with a program that does not satisfy it. The demands that a function makes on its
text are listed in the order in which its code is generated: the right operand of an operator before
the left one, and the body of a counting loop before the step.
-/

namespace WordMachine

namespace Source

/-- Whether an expression has an address: it is a variable, or the word at an address. -/
def Expr.isPlace : Expr → Bool
  | .name _ => true
  | .unary op _ => op = .dereference
  | .int _ | .binary _ _ _ | .call _ _ => false

mutual

/-- The expressions in an expression whose address is taken. -/
def Expr.addressed : Expr → List Expr
  | .int _ => []
  | .name _ => []
  | .unary op operand => (if op = .addressOf then [operand] else []) ++ operand.addressed
  | .binary _ left right => left.addressed ++ right.addressed
  | .call _ arguments => Expr.allAddressed arguments

def Expr.allAddressed : List Expr → List Expr
  | [] => []
  | e :: es => e.addressed ++ Expr.allAddressed es

end

mutual

/-- The statements BREAK and CONTINUE in a statement that no loop in it surrounds. -/
def Stmt.strays : Stmt → List Stmt
  | .ifElse _ body otherwise => Stmt.allStrays body ++ Stmt.allStrays otherwise
  | .breakLoop => [.breakLoop]
  | .continueLoop => [.continueLoop]
  | .whileDo _ _ | .forDo _ _ _ _ _ | .ret _ | .assign _ _ | .exec _ => []

def Stmt.allStrays : List Stmt → List Stmt
  | [] => []
  | s :: ss => s.strays ++ Stmt.allStrays ss

end

end Source

namespace Compiler

open Source

/-! ### Valid programs -/

/-- No two functions have the same name and as many parameters, and none is one that every program
has. -/
structure Distinct (fs : List Function) : Prop where
  nodup : (fs.map Function.signature).Nodup
  own : ∀ f ∈ fs, f.signature ∉ Signature.builtins

/-- Every function that is called anywhere in the body of a function is defined. -/
def CallsDefined (fs : List Function) (f : Function) : Prop :=
  ∀ g ∈ Expr.allCalls (Stmt.allExpressions f.body), g ∈ defined fs

/-- Every BREAK and CONTINUE lies in a loop of its function. Only variables and words at an address are
assigned to, count a loop or have their address taken. -/
structure WellFormed (f : Function) : Prop where
  jumps : Stmt.allStrays f.body = []
  targets : ∀ e ∈ Stmt.allTargets f.body, e.isPlace
  addressed : ∀ e ∈ Expr.allAddressed (Stmt.allExpressions f.body), e.isPlace

/-- The program has no error but that of its grammar. -/
structure Valid (fs : List Function) : Prop where
  distinct : Distinct fs
  calls : ∀ f ∈ fs, CallsDefined fs f
  main : ∃ f ∈ fs, f.signature = .main
  wellFormed : ∀ f ∈ fs, WellFormed f

/-! ### Demands in the order of the code -/

/-- What a function demands of a place in its text: to lie in a loop, or to have an address. -/
inductive Demand
  | breakLoop (inside : Bool)
  | continueLoop (inside : Bool)
  | place (e : Expr)

def Demand.violation? : Demand → Option Violation
  | breakLoop inside => if inside then none else some .breakOutsideLoop
  | continueLoop inside => if inside then none else some .continueOutsideLoop
  | place e => if e.isPlace then none else some .addressOfRvalue

end Compiler

namespace Source

open Compiler

mutual

/-- The demands of an expression, in the order of its code. -/
def Expr.demands : Expr → List Demand
  | .int _ => []
  | .name _ => []
  | .unary op operand => (if op = .addressOf then [.place operand] else []) ++ operand.demands
  | .binary _ left right => right.demands ++ left.demands
  | .call _ arguments => Expr.allDemands arguments

def Expr.allDemands : List Expr → List Demand
  | [] => []
  | e :: es => e.demands ++ Expr.allDemands es

end

mutual

/-- The demands of a statement, in the order of its code. The flag says whether a loop surrounds it. -/
def Stmt.demands (inside : Bool) : Stmt → List Demand
  | .ifElse condition body otherwise =>
    condition.demands ++ Stmt.allDemands inside body ++ Stmt.allDemands inside otherwise
  | .whileDo condition body => condition.demands ++ Stmt.allDemands true body
  | .forDo counter start condition step body =>
    .place counter :: (counter.demands ++ start.demands ++ condition.demands ++
      Stmt.allDemands true body ++ step.demands)
  | .ret none => []
  | .ret (some value) => value.demands
  | .breakLoop => [.breakLoop inside]
  | .continueLoop => [.continueLoop inside]
  | .assign target value => .place target :: (target.demands ++ value.demands)
  | .exec e => e.demands

def Stmt.allDemands (inside : Bool) : List Stmt → List Demand
  | [] => []
  | s :: ss => s.demands inside ++ Stmt.allDemands inside ss

end

end Source

namespace Compiler

open Source

def firstViolation? (ds : List Demand) : Option Violation := ds.findSome? Demand.violation?

/-- The first violation in a function, in the order of its code. -/
def violation? (f : Function) : Option Violation := firstViolation? (Stmt.allDemands false f.body)

/-- The first thing that is wrong with a program: a function defined twice, then a call of a function
that is not defined, then the absence of `main`, then a violation in a function. -/
inductive FirstFault (fs : List Function) : Error → Prop
  | duplicate {before f after} : fs = before ++ f :: after → Distinct before →
      f.signature ∈ defined before → FirstFault fs (.duplicateFunction f.signature)
  | undefined {before f after calls g rest} : Distinct fs → fs = before ++ f :: after →
      (∀ h ∈ before, CallsDefined fs h) →
      Expr.allCalls (Stmt.allExpressions f.body) = calls ++ g :: rest →
      (∀ c ∈ calls, c ∈ defined fs) → g ∉ defined fs →
      FirstFault fs (.undefinedFunction f.name g)
  | missingMain : Distinct fs → (∀ f ∈ fs, CallsDefined fs f) → (∀ f ∈ fs, f.signature ≠ .main) →
      FirstFault fs .missingMain
  | violation {before f after v} : Distinct fs → (∀ f ∈ fs, CallsDefined fs f) →
      (∃ f ∈ fs, f.signature = .main) → fs = before ++ f :: after →
      (∀ h ∈ before, WellFormed h) → violation? f = some v →
      FirstFault fs (.violation f.name v)

/-! ### Well-formed functions have no violation -/

theorem firstViolation?_append (a b : List Demand) :
    firstViolation? (a ++ b) = (firstViolation? a).or (firstViolation? b) :=
  List.findSome?_append

def Met (ds : List Demand) : Prop := ∀ d ∈ ds, d.violation? = none

theorem firstViolation?_eq_none_iff {ds : List Demand} : firstViolation? ds = none ↔ Met ds :=
  List.findSome?_eq_none_iff

@[simp] theorem met_nil : Met [] := by simp [Met]

@[simp] theorem met_cons {d : Demand} {ds : List Demand} :
    Met (d :: ds) ↔ d.violation? = none ∧ Met ds := by
  simp [Met]

@[simp] theorem met_append {a b : List Demand} : Met (a ++ b) ↔ Met a ∧ Met b := by
  simp only [Met, List.forall_mem_append]

@[simp] theorem violation?_place {e : Expr} : (Demand.place e).violation? = none ↔ e.isPlace := by
  simp [Demand.violation?]

def AllPlaces (es : List Expr) : Prop := ∀ e ∈ es, e.isPlace

@[simp] theorem allPlaces_nil : AllPlaces [] := by simp [AllPlaces]

@[simp] theorem allPlaces_cons {e : Expr} {es : List Expr} :
    AllPlaces (e :: es) ↔ e.isPlace ∧ AllPlaces es := by
  simp [AllPlaces]

@[simp] theorem allPlaces_append {a b : List Expr} :
    AllPlaces (a ++ b) ↔ AllPlaces a ∧ AllPlaces b := by
  simp only [AllPlaces, List.forall_mem_append]

theorem allAddressed_append (es es' : List Expr) :
    Expr.allAddressed (es ++ es') = Expr.allAddressed es ++ Expr.allAddressed es' := by
  induction es with
  | nil => simp [Expr.allAddressed]
  | cons e es ih => simp [Expr.allAddressed, ih]

mutual

theorem met_demands (e : Expr) : Met e.demands ↔ AllPlaces e.addressed := by
  match e with
  | .int _ => simp [Expr.demands, Expr.addressed]
  | .name _ => simp [Expr.demands, Expr.addressed]
  | .unary op operand =>
    rw [Expr.demands, Expr.addressed, met_append, allPlaces_append, met_demands operand]
    by_cases h : op = .addressOf <;> simp [h]
  | .binary _ left right =>
    rw [Expr.demands, Expr.addressed, met_append, allPlaces_append, met_demands left,
      met_demands right]
    exact and_comm
  | .call _ es =>
    rw [Expr.demands, Expr.addressed]
    exact met_allDemands es

theorem met_allDemands (es : List Expr) : Met (Expr.allDemands es) ↔ AllPlaces (Expr.allAddressed es) := by
  match es with
  | [] => simp [Expr.allDemands, Expr.allAddressed]
  | e :: es =>
    rw [Expr.allDemands, Expr.allAddressed, met_append, allPlaces_append, met_demands e,
      met_allDemands es]

end

/-- What the demands of statements mean: jumps lie in loops, and what must have an address has one. -/
def Fair (inside : Bool) (strays : List Stmt) (targets expressions : List Expr) : Prop :=
  (inside ∨ strays = []) ∧ AllPlaces targets ∧ AllPlaces (Expr.allAddressed expressions)

mutual

theorem met_stmt_demands (inside : Bool) (s : Stmt) :
    Met (s.demands inside) ↔ Fair inside s.strays s.targets s.expressions := by
  match s with
  | .ifElse condition body otherwise =>
    have hb := met_allStmt_demands inside body
    have ho := met_allStmt_demands inside otherwise
    simp only [Stmt.demands, met_append, met_demands, hb, ho, Fair, Stmt.strays, Stmt.targets,
      Stmt.expressions, Expr.allAddressed, allAddressed_append, allPlaces_append, List.append_eq_nil_iff]
    grind
  | .whileDo condition body =>
    have hb := met_allStmt_demands true body
    simp only [Stmt.demands, met_append, met_demands, hb, Fair, Stmt.strays, Stmt.targets,
      Stmt.expressions, Expr.allAddressed, allPlaces_append]
    grind
  | .forDo counter start condition step body =>
    have hb := met_allStmt_demands true body
    simp only [Stmt.demands, met_append, met_cons, met_demands, violation?_place, hb, Fair, Stmt.strays,
      Stmt.targets, Stmt.expressions, Expr.allAddressed, allPlaces_append, allPlaces_cons]
    grind
  | .ret none =>
    simp [Stmt.demands, Fair, Stmt.strays, Stmt.targets, Stmt.expressions, Expr.allAddressed]
  | .ret (some value) =>
    simp [Stmt.demands, met_demands, Fair, Stmt.strays, Stmt.targets, Stmt.expressions,
      Expr.allAddressed]
  | .breakLoop =>
    cases inside <;> simp [Stmt.demands, Demand.violation?, Fair, Stmt.strays, Stmt.targets,
      Stmt.expressions, Expr.allAddressed]
  | .continueLoop =>
    cases inside <;> simp [Stmt.demands, Demand.violation?, Fair, Stmt.strays, Stmt.targets,
      Stmt.expressions, Expr.allAddressed]
  | .assign target value =>
    simp [Stmt.demands, met_demands, Fair, Stmt.strays, Stmt.targets, Stmt.expressions,
      Expr.allAddressed]
  | .exec e =>
    simp [Stmt.demands, met_demands, Fair, Stmt.strays, Stmt.targets, Stmt.expressions,
      Expr.allAddressed]

theorem met_allStmt_demands (inside : Bool) (ss : List Stmt) : Met (Stmt.allDemands inside ss) ↔
    Fair inside (Stmt.allStrays ss) (Stmt.allTargets ss) (Stmt.allExpressions ss) := by
  match ss with
  | [] => simp [Stmt.allDemands, Fair, Stmt.allStrays, Stmt.allTargets, Stmt.allExpressions,
      Expr.allAddressed]
  | s :: ss =>
    have hs := met_stmt_demands inside s
    have hss := met_allStmt_demands inside ss
    simp only [Stmt.allDemands, met_append, hs, hss, Fair, Stmt.allStrays, Stmt.allTargets,
      Stmt.allExpressions, allAddressed_append, allPlaces_append, List.append_eq_nil_iff]
    grind

end

/-- A function is well-formed if and only if it has no violation. -/
theorem violation?_eq_none_iff {f : Function} : violation? f = none ↔ WellFormed f := by
  rw [violation?, firstViolation?_eq_none_iff, met_allStmt_demands]
  constructor
  · rintro ⟨hj, ht, ha⟩
    exact ⟨hj.resolve_left Bool.false_ne_true, ht, ha⟩
  · intro h
    exact ⟨.inr h.jumps, h.targets, h.addressed⟩

end Compiler

end WordMachine
