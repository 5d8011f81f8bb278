import WordMachine.Proofs.Compiler.Evaluating

/-!
# The code of statements

The code of a statement follows the statement from every frame. It is left at its end, at a label of
the innermost loop, or by a return to the caller.
-/

namespace WordMachine.Compiler

open Assembly Source Machine

/-! ### Loops -/

/-- How a pass through a loop ends. -/
def Passes (next exit : Machine → Env → Prop) (back : Machine → Option Word → Prop) (m : Machine) :
    Flow → Prop
  | .next env => next m env
  | .continued env => next m env
  | .broke env => exit m env
  | .returned v => back m v

def Leaves (exit : Machine → Env → Prop) (back : Machine → Option Word → Prop) (m : Machine) :
    Flow → Prop
  | .next env => exit m env
  | .returned v => back m v
  | .continued _ => False
  | .broke _ => False

/-- A loop is followed as often as it is gone through, if its test, its body and its step are. -/
theorem follows_loop {x : Int} {start inner next exit : Machine → Env → Prop}
    {back : Machine → Option Word → Prop} {test : Env → Run Word} {body : Env → Run Flow}
    {step : Env → Run Env}
    (htest : ∀ env q m, start m env →
      Follows x m q (fun m' v => if v = 0 then exit m' env else inner m' env) (test env))
    (hbody : ∀ env q m, inner m env → Follows x m q (Passes next exit back) (body env))
    (hstep : ∀ env q m, next m env → Follows x m q start (step env)) (fuel : Nat) (env : Env)
    (q : WordQueue) (m : Machine) (hm : start m env) :
    Follows x m q (Leaves exit back) (loop test body step fuel env) := by
  induction fuel generalizing env q m with
  | zero => exact follows_abort (by simp)
  | succ fuel ih =>
    have hagain (env : Env) (q : WordQueue) (m : Machine) (hm : next m env) :
        Follows x m q (Leaves exit back) (step env >>= loop test body step fuel) :=
      (hstep env q m hm).bind fun env' q' m' _ hm' => ih env' q' m' hm'
    rw [loop]
    refine (htest env q m hm).bind fun v q₁ m₁ _ hm₁ => ?_
    by_cases hz : v = 0
    · rw [if_pos hz] at hm₁ ⊢
      exact follows_result hm₁
    · rw [if_neg hz] at hm₁ ⊢
      refine (hbody env q₁ m₁ hm₁).bind fun flow q₂ m₂ _ hm₂ => ?_
      cases flow with
      | next env => exact hagain env q₂ m₂ hm₂
      | continued env => exact hagain env q₂ m₂ hm₂
      | broke env => exact follows_result hm₂
      | returned v => exact follows_result hm₂

/-! ### How statements end -/

section

variable {fs : List Function} {program : List UInt8} {labels : Labels} {c : Caller fs program}
  {l : Option Loop} {f : Frame} {env : Env} {ws : List Word} {o o' : Nat} {m m₁ : Machine} {r : Register}
  {rs : List Register} {flow : Flow} {rest : Code} {v : Option Word}

/-- Where the code of a statement is left: at its end, at a label of the innermost loop, or by a return
to the caller. -/
def Ends (labels : Labels) (c : Caller fs program) (l : Option Loop) (f : Frame) (ws : List Word)
    (o : Nat) (m : Machine) : Flow → Prop
  | .next env => Framed c f env ws o m
  | .broke env => ∃ i e, l = some i ∧ labels.get? i.exit.text = some (UInt32.ofNat e) ∧
    Framed c f env ws e m
  | .continued env => ∃ i e, l = some i ∧ labels.get? i.next.text = some (UInt32.ofNat e) ∧
    Framed c f env ws e m
  | .returned v => Returned c f.parameters.length m v

theorem Framed.at_label (hF : Framed c f env ws o m) {name : String}
    (hv : labels.get? name = some (UInt32.ofNat o)) (hv' : labels.get? name = some (UInt32.ofNat o')) :
    Framed c f env ws o' m := by
  rw [hv] at hv'
  exact { hF with position := by rw [Machine.At, ← Option.some.inj hv']; exact hF.position }

theorem Framed.unwound (hF : Framed c f env ws o m) (hr : r ≠ .instruction) (hrs : r ≠ .stack)
    (hp : Placed labels program o (Code.release r f.depth ++ rest)) (q : WordQueue) :
    ∃ m', Runs 0 m q m' [r, .stack] o (o + extent (Code.release r f.depth)) ∧
      m'.get .stack = Word.ofInt (c.above - 4 * (f.parameters.length + 1)) := by
  obtain ⟨m', p, hs⟩ := runs_release hr hrs hF.loaded hF.position hp q
  have h4 : ((4 * f.depth : Nat) : Int) = 4 * (f.depth : Int) := by omega
  refine ⟨m', p, ?_⟩
  rw [hs, hF.stack, ← Word.ofInt_natCast, ← Word.ofInt_add, Frame.top, h4]
  congr 1
  omega

theorem Framed.returned (hF : Framed c f env ws o m) (p : Arrives 0 m m₁ rs o')
    (hs : m₁.get .stack = Word.ofInt (c.above - 4 * (f.parameters.length + 1)))
    (hv : ∀ w, v = some w → m₁.get .result = w)
    (hp : Placed labels program o' (Code.ret :: rest)) (q : WordQueue) :
    ∃ m', Path Anywhere m₁ q m' q ∧ Returned c f.parameters.length m' v := by
  have hl₁ := p.loaded (Int.natCast_nonneg _) hF.loaded
  have hback := hF.back
  rw [← p.memory] at hback
  obtain ⟨m', p', hi', hs', hm', hpo', hothers⟩ := goes_ret hl₁ p.position hp hs hback q
  refine ⟨m', p', hi', ?_, ?_, ?_, fun w hw => ?_⟩
  · rw [hpo', p.programOffset, hF.programOffset]
  · rw [hs']
    congr 1
    omega
  · rw [hm', p.memory]
    exact hF.agree
  · rw [hothers .result (by decide) (by decide), hv w hw]

end

/-! ### Statements -/

section

variable (fs : List Function) (program : List UInt8) (labels : Labels)

/-- The code follows a run of a statement. -/
def Executes (l : Option Loop) (f : Frame) (code : Code) (run : Env → Run Flow) : Prop :=
  Does fs program labels f code run fun c ws _ o m flow => Ends labels c l f ws o m flow

end

variable {fs : List Function} {program : List UInt8} {labels : Labels} {l : Option Loop} {f : Frame}
  {code place first second test inner last : Code} {n k fuel : Nat} {x : String}
  {call : Signature → List Word → Run (Option Word)} {e start condition step : Expr} {s : Stmt}
  {ss ts : List Stmt}

theorem executes_retNothing : Executes fs program labels l f
    (Code.release .result f.depth ++ [Code.ret]) (Stmt.run call fuel (.ret none)) := by
  intro env q c ws m o rest hF hp
  rw [List.append_assoc] at hp
  rw [Stmt.run]
  obtain ⟨m₁, p₁, hs₁⟩ := hF.unwound (by decide) (by decide) hp q
  obtain ⟨m₂, p₂, hr₂⟩ := hF.returned (v := none) p₁.toArrives hs₁ (by simp) hp.right q
  exact follows_of_path (p₁.anywhere.trans p₂) hr₂

theorem executes_ret (h : Evaluates fs program labels f returnValue code (e.value call)) :
    Executes fs program labels l f
      (code ++ Code.release .result f.depth ++ [Code.mov .result returnValue, Code.ret])
      (Stmt.run call fuel (.ret (some e))) := by
  intro env q c ws m o rest hF hp
  rw [List.append_assoc, List.append_assoc] at hp
  rw [Stmt.run]
  refine (h env q c ws m o _ hF hp).bind fun v q₁ m₁ _ hm₁ => ?_
  obtain ⟨hF₁, hv₁⟩ := hm₁
  obtain ⟨m₂, p₂, hs₂⟩ := hF₁.unwound (by decide) (by decide) hp.right q₁
  obtain ⟨m₃, p₃, hv₃, _⟩ := runs_mov (by decide) (p₂.loaded_of_zero hF₁.loaded) p₂.position
    hp.right.right q₁
  have p₂₃ := (p₂.trans (p₃.mono (Int.le_refl 0) (by simp))).toArrives
  have hs₃ : m₃.get .stack = m₂.get .stack := p₃.others .stack (by decide) (by decide)
  have hr₂ : m₂.get returnValue = v := by
    rw [p₂.others returnValue (by decide) (by decide), hv₁]
  obtain ⟨m₄, p₄, hr₄⟩ := hF₁.returned (v := some v) p₂₃ (hs₃.trans hs₂) (by
    rintro w ⟨⟩
    rw [hv₃, hr₂]) hp.right.right.tail q₁
  exact follows_of_path ((p₂.anywhere.trans p₃.anywhere).trans p₄) hr₄

theorem executes_breakLoop {i : Loop} : Executes fs program labels (some i) f [Code.jmp i.exit]
    (Stmt.run call fuel .breakLoop) := by
  intro env q c ws m o rest hF hp
  obtain ⟨v, hv⟩ := hp.target rfl
  rw [← UInt32.ofNat_toNat (x := v)] at hv
  obtain ⟨m₁, p₁, hF₁⟩ := hF.jumped hp hv q
  rw [Stmt.run]
  exact follows_of_path p₁ ⟨i, _, rfl, hv, hF₁⟩

theorem executes_continueLoop {i : Loop} : Executes fs program labels (some i) f [Code.jmp i.next]
    (Stmt.run call fuel .continueLoop) := by
  intro env q c ws m o rest hF hp
  obtain ⟨v, hv⟩ := hp.target rfl
  rw [← UInt32.ofNat_toNat (x := v)] at hv
  obtain ⟨m₁, p₁, hF₁⟩ := hF.jumped hp hv q
  rw [Stmt.run]
  exact follows_of_path p₁ ⟨i, _, rfl, hv, hF₁⟩

theorem executes_exec (h : Performs fs program labels f code (e.effects call)) :
    Executes fs program labels l f code (Stmt.run call fuel (.exec e)) := by
  intro env q c ws m o rest hF hp
  rw [Stmt.run]
  exact (h env q c ws m o _ hF hp).bind fun _ q₁ m₁ _ hF₁ => follows_result hF₁

theorem executes_assign (hk : f.offset? x = some k)
    (h : Evaluates fs program labels (f.push 1) assignValue code (e.value call)) :
    Executes fs program labels l f
      (addressAt k assignValue ++ [Code.push assignValue] ++ code ++
        [Code.pop .result, Code.store .result assignValue])
      (Stmt.run call fuel (.assign (.name x) e)) := by
  intro env q c ws m o rest hF hp
  simp only [List.append_assoc, List.cons_append, List.nil_append] at hp
  rw [Stmt.run]
  obtain ⟨m₁, p₁, hv₁⟩ := runs_addressAt (show assignValue.General by decide) hF.loaded hF.position hp q
  have hF₁ := hF.kept p₁.toArrives (by decide)
  refine Follows.after ?_ p₁.anywhere
  -- the value is computed on top of the address, for which there was room
  have hvalue := hF₁.follows_push (q := q) hp.right fun m₂ hF₂ hx =>
    (h env q c _ m₂ _ _ hF₂ hp.right.tail).imp fun m' v hm' => And.intro hx hm'
  refine hvalue.bind fun v q₁ m₃ _ hm₃ => ?_
  obtain ⟨hx, hF₃, hv₃⟩ := hm₃
  obtain ⟨m₄, p₄, hF₄, hw₄, hothers⟩ := hF₃.popped (by decide) (by decide) hp.right.tail.right q₁
  have hslot : m₄.get .result = m₄.slot k := by
    rw [hw₄, hv₁, hF.slot_eq, hF₄.slot_eq]
  obtain ⟨m₅, p₅, hF₅⟩ := hF₄.stored hk (by omega) hslot hp.right.tail.right.tail q₁
  rw [hothers assignValue (by decide) (by decide) (by decide), hv₃] at hF₅
  refine follows_of_path (p₄.trans p₅) (hF₅.of_eq ?_)
  simp only [extent_append, extent_cons, extent_nil, size_push, size_pop, size_store]
  omega

theorem executes_nil : Executes fs program labels l f [] (Stmt.runAll call fuel []) := by
  intro env q c ws m o rest hF hp
  rw [Stmt.runAll]
  exact follows_result hF

theorem executes_cons (h : Executes fs program labels l f first (s.run call fuel))
    (hs : Executes fs program labels l f second (Stmt.runAll call fuel ss)) :
    Executes fs program labels l f (first ++ second) (Stmt.runAll call fuel (s :: ss)) := by
  intro env q c ws m o rest hF hp
  rw [List.append_assoc] at hp
  rw [Stmt.runAll]
  refine (h env q c ws m o _ hF hp).bind fun flow q₁ m₁ _ hm₁ => ?_
  rw [extent_append, ← Nat.add_assoc]
  cases flow with
  | next env => exact hs env q₁ c ws m₁ _ _ hm₁ hp.right
  | broke env | continued env | returned v => exact follows_result hm₁

theorem executes_ifOnly (h : Evaluates fs program labels f ifCondition test (e.value call))
    (hs : Executes fs program labels l f first (Stmt.runAll call fuel ss)) :
    Executes fs program labels l f
      (test ++ [Code.test ifCondition, Code.jiz (.endIf n)] ++ first ++ [Code.label (.endIf n)])
      (Stmt.run call fuel (.ifElse e ss [])) := by
  intro env q c ws m o rest hF hp
  simp only [List.append_assoc, List.cons_append, List.nil_append] at hp
  have ho : o + extent (test ++ [Code.test ifCondition, Code.jiz (.endIf n)] ++ first ++
      [Code.label (.endIf n)]) = o + extent test + 8 + extent first := by
    simp only [extent_append, extent_cons, extent_nil, size_test, size_jiz, size_label]
    omega
  rw [Stmt.run, ho]
  have hp₂ := hp.right.tail.tail
  refine (h env q c ws m o _ hF hp).bind fun v q₁ m₁ _ hm₁ => ?_
  obtain ⟨hF₁, hv₁⟩ := hm₁
  obtain ⟨m₂, p₂, hF₂⟩ := hF₁.tested (by decide) hp.right hp₂.right.1 q₁
  rw [hv₁] at hF₂
  by_cases hz : v = 0
  · rw [if_pos hz] at hF₂ ⊢
    rw [Stmt.runAll]
    exact follows_of_path p₂ hF₂
  · rw [if_neg hz] at hF₂ ⊢
    exact (hs env q₁ c ws m₂ _ _ hF₂ hp₂).after p₂

theorem executes_ifElse {t : Stmt} (h : Evaluates fs program labels f ifCondition test (e.value call))
    (hs : Executes fs program labels l f first (Stmt.runAll call fuel ss))
    (ht : Executes fs program labels l f second (Stmt.runAll call fuel (t :: ts))) :
    Executes fs program labels l f
      (test ++ [Code.test ifCondition, Code.jiz (.otherwise n)] ++ first ++
        [Code.jmp (.endIf n), Code.label (.otherwise n)] ++ second ++ [Code.label (.endIf n)])
      (Stmt.run call fuel (.ifElse e ss (t :: ts))) := by
  intro env q c ws m o rest hF hp
  simp only [List.append_assoc, List.cons_append, List.nil_append] at hp
  have ho : o + extent (test ++ [Code.test ifCondition, Code.jiz (.otherwise n)] ++ first ++
      [Code.jmp (.endIf n), Code.label (.otherwise n)] ++ second ++ [Code.label (.endIf n)]) =
      o + extent test + 8 + extent first + 5 + extent second := by
    simp only [extent_append, extent_cons, extent_nil, size_test, size_jiz, size_jmp, size_label]
    omega
  rw [Stmt.run, ho]
  have hp₂ := hp.right.tail.tail
  have hp₃ := hp₂.right.tail
  refine (h env q c ws m o _ hF hp).bind fun v q₁ m₁ _ hm₁ => ?_
  obtain ⟨hF₁, hv₁⟩ := hm₁
  obtain ⟨m₂, p₂, hF₂⟩ := hF₁.tested (by decide) hp.right hp₃.1 q₁
  rw [hv₁] at hF₂
  by_cases hz : v = 0
  · rw [if_pos hz] at hF₂ ⊢
    exact (ht env q₁ c ws m₂ _ _ hF₂ hp₃.2).after p₂
  · rw [if_neg hz] at hF₂ ⊢
    refine ((hs env q₁ c ws m₂ _ _ hF₂ hp₂).goes fun m₃ flow q₂ hm₃ => ?_).after p₂
    cases flow with
    | next env' =>
      obtain ⟨m₄, p₄, hF₄⟩ := hm₃.jumped hp₂.right hp₃.2.right.1 q₂
      exact ⟨m₄, p₄, hF₄⟩
    | broke env' | continued env' | returned v' => exact ⟨m₃, .done m₃ q₂, hm₃⟩

/-! ### Statements with loops -/

/-- Where code is run: for which caller, on top of which words and at which offset of the program. -/
structure Site (fs : List Function) (program : List UInt8) (labels : Labels) (code : Code) where
  caller : Caller fs program
  words : List Word
  start : Nat
  rest : Code
  placed : Placed labels program start (code ++ rest)

def Site.At (s : Site fs program labels code) (f : Frame) (o : Nat) (m : Machine) (env : Env) : Prop :=
  Framed s.caller f env s.words (s.start + o) m

/-- The code of a loop: a test that leaves it if it is zero, the body, and what comes before the next
test. -/
def loopCode (head exit : Label) (r : Register) (test inner tail : Code) : Code :=
  Code.label head :: (test ++ Code.test r :: Code.jiz exit :: (inner ++ (tail ++ [Code.label exit])))

section

variable {head exit next : Label} {r : Register} {tail : Code} {step : Env → Run Env}

theorem extent_loopCode : extent (loopCode head exit r test inner tail) =
    extent test + 8 + extent inner + extent tail := by
  simp only [loopCode, extent_append, extent_cons, extent_nil, size_test, size_jiz, size_label]
  omega

theorem Site.label_head (s : Site fs program labels (loopCode head exit r test inner tail)) :
    labels.get? head.text = some (UInt32.ofNat s.start) := s.placed.1

theorem Site.placed_test (s : Site fs program labels (loopCode head exit r test inner tail)) :
    Placed labels program s.start (test ++ Code.test r :: Code.jiz exit ::
      (inner ++ (tail ++ Code.label exit :: s.rest))) := by
  have hp := s.placed
  simp only [loopCode, List.append_assoc, List.cons_append, List.nil_append] at hp
  exact hp.2

theorem Site.placed_inner (s : Site fs program labels (loopCode head exit r test inner tail)) :
    Placed labels program (s.start + (extent test + 8))
      (inner ++ (tail ++ Code.label exit :: s.rest)) := by
  have hp := s.placed_test.right.tail.tail
  rw [size_test, size_jiz] at hp
  exact hp

theorem Site.placed_tail (s : Site fs program labels (loopCode head exit r test inner tail)) :
    Placed labels program (s.start + (extent test + 8 + extent inner))
      (tail ++ Code.label exit :: s.rest) := by
  have hp := s.placed_inner.right
  rw [Nat.add_assoc] at hp
  exact hp

theorem Site.label_exit (s : Site fs program labels (loopCode head exit r test inner tail)) :
    labels.get? exit.text =
      some (UInt32.ofNat (s.start + extent (loopCode head exit r test inner tail))) := by
  have hl := s.placed_tail.right.1
  rw [Nat.add_assoc, ← extent_loopCode] at hl
  exact hl

/-- The code of a loop follows the loop, if what comes after the body does. -/
theorem follows_loopCode {s : Site fs program labels (loopCode head exit r test inner tail)}
    (continued : Nat) (hr : r.General) (h : Evaluates fs program labels f r test (e.value call))
    (hs : Executes fs program labels (some ⟨next, exit⟩) f inner (Stmt.runAll call fuel ss))
    (hnext : labels.get? next.text = some (UInt32.ofNat (s.start + continued)))
    (hstep : ∀ env q m, s.At f (extent test + 8 + extent inner) m env ∨ s.At f continued m env →
      Follows (f.top s.caller.above) m q (s.At f 0) (step env)) {env : Env} {q : WordQueue} {m : Machine}
    (hm : s.At f 0 m env) : Follows (f.top s.caller.above) m q
      (Leaves (s.At f (extent (loopCode head exit r test inner tail)))
        (Returned s.caller f.parameters.length))
      (loop (e.value call) (Stmt.runAll call fuel ss) step fuel env) := by
  have htest (env : Env) (q : WordQueue) (m : Machine) (hF : s.At f 0 m env) :
      Follows (f.top s.caller.above) m q
        (fun m' v => if v = 0 then s.At f (extent (loopCode head exit r test inner tail)) m' env
          else s.At f (extent test + 8) m' env) (e.value call env) := by
    have hp := s.placed_test
    refine (h env q s.caller s.words m s.start _ hF hp).goes fun m₁ v q₁ hm₁ => ?_
    obtain ⟨hF₁, hv₁⟩ := hm₁
    obtain ⟨m₂, p₂, hF₂⟩ := hF₁.tested hr hp.right s.label_exit q₁
    rw [hv₁, Nat.add_assoc] at hF₂
    refine ⟨m₂, p₂, ?_⟩
    by_cases hz : v = 0
    · rw [if_pos hz] at hF₂ ⊢
      exact hF₂
    · rw [if_neg hz] at hF₂ ⊢
      exact hF₂
  have hbody (env : Env) (q : WordQueue) (m : Machine) (hF : s.At f (extent test + 8) m env) :
      Follows (f.top s.caller.above) m q
        (Passes (fun m env => s.At f (extent test + 8 + extent inner) m env ∨ s.At f continued m env)
          (s.At f (extent (loopCode head exit r test inner tail)))
          (Returned s.caller f.parameters.length)) (Stmt.runAll call fuel ss env) := by
    refine (hs env q s.caller s.words m _ _ hF s.placed_inner).imp fun m₁ flow hm₁ => ?_
    cases flow with
    | next env' =>
      rw [Nat.add_assoc] at hm₁
      exact .inl hm₁
    | continued env' =>
      obtain ⟨i, o, ⟨⟩, hv, hF₁⟩ := hm₁
      exact .inr (hF₁.at_label hv hnext)
    | broke env' =>
      obtain ⟨i, o, ⟨⟩, hv, hF₁⟩ := hm₁
      exact hF₁.at_label hv s.label_exit
    | returned v => exact hm₁
  exact follows_loop htest hbody hstep fuel env q m hm

end

theorem executes_whileDo (h : Evaluates fs program labels f whileCondition test (e.value call))
    (hs : Executes fs program labels (some ⟨.loop n, .endLoop n⟩) f inner (Stmt.runAll call fuel ss)) :
    Executes fs program labels l f
      ([Code.label (.loop n)] ++ test ++ [Code.test whileCondition, Code.jiz (.endLoop n)] ++ inner ++
        [Code.jmp (.loop n), Code.label (.endLoop n)])
      (Stmt.run call fuel (.whileDo e ss)) := by
  have hcode : [Code.label (.loop n)] ++ test ++ [Code.test whileCondition, Code.jiz (.endLoop n)] ++
      inner ++ [Code.jmp (.loop n), Code.label (.endLoop n)] =
      loopCode (.loop n) (.endLoop n) whileCondition test inner [Code.jmp (.loop n)] := by
    simp only [loopCode, List.append_assoc, List.cons_append, List.nil_append]
  rw [hcode]
  intro env q c ws m o rest hF hp
  let s : Site fs program labels (loopCode (.loop n) (.endLoop n) whileCondition test inner
    [Code.jmp (.loop n)]) := ⟨c, ws, o, rest, hp⟩
  have hstep (env : Env) (q : WordQueue) (m : Machine)
      (hm : s.At f (extent test + 8 + extent inner) m env ∨ s.At f 0 m env) :
      Follows (f.top s.caller.above) m q (s.At f 0) (Run.result env) := by
    cases hm with
    | inl hF =>
      obtain ⟨m₁, p₁, hF₁⟩ := Framed.jumped hF s.placed_tail s.label_head q
      exact follows_of_path p₁ hF₁
    | inr hF => exact follows_result hF
  rw [Stmt.run]
  refine (follows_loopCode 0 (by decide) h hs s.label_head hstep hF).imp fun m₁ flow hm₁ => ?_
  cases flow with
  | next env' => exact hm₁
  | returned v => exact hm₁
  | continued env' | broke env' => exact hm₁.elim

/-- The step of a counter is added to it. Its address lies on top of the stack. -/
theorem follows_advance {c : Caller fs program} {env : Env} {a d : Word} {ws : List Word} {o : Nat}
    {m : Machine} {q : WordQueue} {rest : Code} {y : Int} (hF : Framed c f env (a :: ws) o m)
    (hk : f.offset? x = some k) (ha : a = m.slot k) (hd : m.get countValue = d)
    (hp : Placed labels program o (Code.load countAddress .stack :: Code.load countScratch countAddress ::
      Code.add countScratch countValue :: Code.store countAddress countScratch :: rest)) :
    Follows y m q (fun m' env' => Framed c f env' (a :: ws) (o + 12) m')
      (Run.demand .unassigned (env x) >>= fun w => Run.result (env.set x (w + d))) := by
  cases hx : env x with
  | none => exact follows_abort (by decide)
  | some w =>
    obtain ⟨k', hk', hb, hread⟩ := hF.holds_variable hx
    rw [hk] at hk'
    cases hk'
    obtain ⟨m₁, p₁, hv₁⟩ := hF.loaded_top (by decide) hp q
    have hF₁ := hF.kept p₁.toArrives (by decide)
    have ha₁ : m₁.get countAddress = m.slot k := hv₁.trans ha
    obtain ⟨m₂, p₂, hv₂, _⟩ := runs_load (by decide) hF₁.loaded hF₁.position hp.tail (by
      rw [ha₁, p₁.memory]
      exact hb) q
    have hF₂ := hF₁.kept p₂.toArrives (by decide)
    rw [ha₁, p₁.memory, hread] at hv₂
    obtain ⟨m₃, p₃, hv₃, _⟩ := runs_combine .add (by decide) hF₂.loaded hF₂.position hp.tail.tail q
    have hF₃ := hF₂.kept p₃.toArrives (by decide)
    have hd₂ : m₂.get countValue = d := by
      rw [p₂.others countValue (by decide) (by decide), p₁.others countValue (by decide) (by decide),
        hd]
    rw [hv₂, hd₂] at hv₃
    have ha₃ : m₃.get countAddress = m₃.slot k := by
      rw [p₃.others countAddress (by decide) (by decide), p₂.others countAddress (by decide) (by decide),
        ha₁, hF.slot_eq, hF₃.slot_eq]
    obtain ⟨hlow, _⟩ := Memory.bounds_of_word? (hF.words 0 a rfl)
    obtain ⟨m₄, p₄, hF₄⟩ := hF₃.stored hk (by omega) ha₃ hp.tail.tail.tail q
    rw [hv₃] at hF₄
    exact follows_of_path (((p₁.anywhere.trans p₂.anywhere).trans p₃.anywhere).trans p₄) hF₄

/-- The code that adds the step to a counter and goes back to the test. -/
def countCode (n : Nat) (last : Code) : Code :=
  Code.label (.nextCount n) :: (last ++ [Code.load countAddress .stack,
    Code.load countScratch countAddress, Code.add countScratch countValue,
    Code.store countAddress countScratch, Code.jmp (.count n)])

/-- The loop of a counter, from a site at which the address of the counter lies on top of the stack. -/
theorem follows_count {s : Site fs program labels
      (loopCode (.count n) (.endCount n) countValue test inner (countCode n last))} {env : Env}
    {q : WordQueue} {m : Machine} (hk : f.offset? x = some k)
    (h : Evaluates fs program labels f countValue test (condition.value call))
    (hs : Executes fs program labels (some ⟨.nextCount n, .endCount n⟩) f inner
      (Stmt.runAll call fuel ss))
    (hstep : Evaluates fs program labels f countValue last (step.value call))
    (hwords : s.words.head? = some (Word.ofInt (f.top s.caller.above + 4 * k))) (hm : s.At f 0 m env) :
    Follows (f.top s.caller.above) m q
      (Leaves (s.At f (extent (loopCode (.count n) (.endCount n) countValue test inner
        (countCode n last)))) (Returned s.caller f.parameters.length))
      (loop (condition.value call) (Stmt.runAll call fuel ss) (advance call x step) fuel env) := by
  refine follows_loopCode _ (by decide) h hs s.placed_tail.1 (fun env q m hm => ?_) hm
  have hF : Framed s.caller f env s.words (s.start + (extent test + 8 + extent inner)) m :=
    hm.elim id id
  have hp := s.placed_tail
  simp only [countCode, List.append_assoc, List.cons_append, List.nil_append] at hp
  have hp := hp.2
  rw [advance]
  refine (hstep env q s.caller s.words m _ _ hF hp).bind fun d q₁ m₁ _ hm₁ => ?_
  obtain ⟨hF₁, hd₁⟩ := hm₁
  obtain ⟨ws, hws⟩ := List.head?_eq_some_iff.1 hwords
  rw [hws] at hF₁
  have hadv := follows_advance (y := f.top s.caller.above) (q := q₁) hF₁ hk (hF₁.slot_eq k).symm hd₁ hp.right
  refine hadv.goes fun m₂ env' q₂ hF₂ => ?_
  obtain ⟨m₃, p₃, hF₃⟩ := hF₂.jumped hp.right.tail.tail.tail.tail s.label_head q₂
  rw [← hws] at hF₃
  exact ⟨m₃, p₃, hF₃⟩

theorem executes_forDo (hk : f.offset? x = some k)
    (hfirst : Evaluates fs program labels (f.push 1) countValue first (start.value call))
    (h : Evaluates fs program labels (f.push 1) countValue test (condition.value call))
    (hs : Executes fs program labels (some ⟨.nextCount n, .endCount n⟩) (f.push 1) inner
      (Stmt.runAll call fuel ss))
    (hstep : Evaluates fs program labels (f.push 1) countValue last (step.value call)) :
    Executes fs program labels l f
      (addressAt k countAddress ++ [Code.push countAddress] ++
        first ++ [Code.load countAddress .stack, Code.store countAddress countValue] ++
        [Code.label (.count n)] ++ test ++ [Code.test countValue, Code.jiz (.endCount n)] ++ inner ++
        [Code.label (.nextCount n)] ++ last ++
        [Code.load countAddress .stack, Code.load countScratch countAddress,
          Code.add countScratch countValue, Code.store countAddress countScratch,
          Code.jmp (.count n)] ++
        [Code.label (.endCount n), Code.pop .result])
      (Stmt.run call fuel (.forDo (.name x) start condition step ss)) := by
  have hcode : addressAt k countAddress ++ [Code.push countAddress] ++
      first ++ [Code.load countAddress .stack, Code.store countAddress countValue] ++
      [Code.label (.count n)] ++ test ++ [Code.test countValue, Code.jiz (.endCount n)] ++ inner ++
      [Code.label (.nextCount n)] ++ last ++
      [Code.load countAddress .stack, Code.load countScratch countAddress,
        Code.add countScratch countValue, Code.store countAddress countScratch,
        Code.jmp (.count n)] ++
      [Code.label (.endCount n), Code.pop .result] =
      addressAt k countAddress ++ (Code.push countAddress :: (first ++
        (Code.load countAddress .stack :: Code.store countAddress countValue ::
          (loopCode (.count n) (.endCount n) countValue test inner (countCode n last) ++
            [Code.pop .result])))) := by
    simp only [loopCode, countCode, List.append_assoc, List.cons_append, List.nil_append]
  rw [hcode]
  intro env q c ws m o rest hF hp
  simp only [List.append_assoc, List.cons_append, List.nil_append] at hp
  rw [Stmt.run]
  obtain ⟨m₁, p₁, hv₁⟩ := runs_addressAt (show countAddress.General by decide) hF.loaded hF.position hp q
  have hF₁ := hF.kept p₁.toArrives (by decide)
  rw [hF.slot_eq] at hv₁
  refine Follows.after ?_ p₁.anywhere
  refine hF₁.follows_push hp.right fun m₂ hF₂ hx => ?_
  rw [hv₁] at hF₂
  have hp₂ := hp.right.tail
  have htop : (f.push 1).top c.above = f.top c.above - 4 * (1 : Nat) := Frame.top_push
  have hslot : f.top c.above + 4 * k = (f.push 1).top c.above + 4 * (k + 1 : Nat) := by omega
  have hk₁ : (f.push 1).offset? x = some (k + 1) := by
    rw [Frame.offset?_push, hk]
    rfl
  refine (hfirst env q c _ m₂ _ _ hF₂ hp₂).bind fun v q₁ m₃ _ hm₃ => ?_
  obtain ⟨hF₃, hv₃⟩ := hm₃
  obtain ⟨m₄, p₄, hv₄⟩ := hF₃.loaded_top (show countAddress ≠ .instruction by decide) hp₂.right q₁
  have hF₄ := hF₃.kept p₄.toArrives (by decide)
  obtain ⟨m₅, p₅, hF₅⟩ := hF₄.stored hk₁ (by omega) (by rw [hv₄, hF₄.slot_eq, hslot])
    hp₂.right.tail q₁
  rw [p₄.others countValue (by decide) (by decide), hv₃] at hF₅
  have hloop := follows_count (s := ⟨c, Word.ofInt (f.top c.above + 4 * k) :: ws, _, _,
    hp₂.right.tail.tail⟩) (q := q₁) hk₁ h hs hstep (by rw [List.head?_cons, hslot]) hF₅
  refine (hloop.goes fun m₆ flow q₂ hm₆ => ?_).after (p₄.anywhere.trans p₅)
  cases flow with
  | next env' =>
    obtain ⟨m₇, p₇, hF₇, _⟩ := Framed.popped hm₆ (show Register.result ≠ .instruction by decide)
      (by decide) hp₂.right.tail.tail.right q₂
    refine ⟨m₇, p₇, hF₇.of_eq ?_⟩
    simp only [extent_append, extent_cons, extent_nil, size_push, size_load, size_store, size_pop]
    omega
  | returned v => exact ⟨m₆, .done m₆ q₂, hm₆⟩
  | continued env' | broke env' => exact hm₆.elim

/-! ### All statements -/

def Part.Executed (fs : List Function) (program : List UInt8) (labels : Labels)
    (call : Signature → List Word → Run (Option Word)) (fuel : Nat) (l : Option Loop) (f : Frame)
    (code : Code) : Part → Prop
  | .statement s => Executes fs program labels l f code (s.run call fuel)
  | .block ss => Executes fs program labels l f code (Stmt.runAll call fuel ss)
  | _ => True

theorem executed_of_emits {part : Part} {n₁ : Nat} (hA : Answers fs program labels call)
    (hE : Emits l f part n code n₁) : part.Executed fs program labels call fuel l f code := by
  induction hE with
  | ifOnly hv _ _ ihs => exact executes_ifOnly (evaluated_of_emits hA hv (by decide)) ihs
  | ifElse hv _ _ _ ihs iht => exact executes_ifElse (evaluated_of_emits hA hv (by decide)) ihs iht
  | whileDo hv _ _ ihs => exact executes_whileDo (evaluated_of_emits hA hv (by decide)) ihs
  | @forDo l f n _ _ _ _ _ _ start condition step ss _ _ _ _ _ hp hf ht _ hs _ _ _ ihs _ =>
    cases hp with
    | namePlace hk =>
      exact executes_forDo hk (evaluated_of_emits hA hf (by decide))
        (evaluated_of_emits hA ht (by decide)) ihs (evaluated_of_emits hA hs (by decide))
    | @pointer _ _ _ _ e =>
      exact show Executes fs program labels l f _
        (Stmt.run call fuel (.forDo (.unary .dereference e) start condition step ss))
        from does_meaningless fun env => rfl
  | retNothing => exact executes_retNothing
  | ret hv => exact executes_ret (evaluated_of_emits hA hv (by decide))
  | breakLoop => exact executes_breakLoop
  | continueLoop => exact executes_continueLoop
  | @assign l f _ _ _ _ e _ _ hp hv =>
    cases hp with
    | namePlace hk => exact executes_assign hk (evaluated_of_emits hA hv (by decide))
    | @pointer _ _ _ _ p =>
      exact show Executes fs program labels l f _
        (Stmt.run call fuel (.assign (.unary .dereference p) e)) from does_meaningless fun env => rfl
  | exec hv => exact executes_exec (evaluated_of_emits hA hv)
  | nil => exact executes_nil
  | cons _ _ ihs ihss => exact executes_cons ihs ihss
  | _ => trivial

end WordMachine.Compiler
