import WordMachine.Proofs.Compiler.Moves

/-!
# The code of expressions with calls

The code of an expression follows the evaluation of the expression from every frame, whatever the
machine is, and leaves the frame as it was. What a called function does is assumed here: from its entry
it follows the call, and returns to a machine whose memory is as it was from the caller's own words on.
-/

namespace WordMachine.Compiler

open Assembly Source Machine

/-! ### Calls -/

section

variable {fs : List Function} {program : List UInt8}

/-- The machine stands at the entry of a function: these arguments lie above the return address. -/
structure Entered (c : Caller fs program) (args : List Word) (entry : Word) (m : Machine) : Prop where
  position : m.get .instruction = m.absolute entry
  programOffset : m.programOffset = c.machine.programOffset
  stack : m.get .stack = Word.ofInt (c.above - 4 * (args.length + 1))
  agree : c.machine.memory.AgreeFrom m.memory c.above
  back : m.memory.word? (c.above - 4 * (args.length + 1)) = some c.back
  arguments : ∀ (i : Nat) w, args[i]? = some w → m.memory.word? (c.above - 4 * (i + 1)) = some w

/-- The function has returned and left as many arguments on the stack, and the result in its
register. -/
structure Returned (c : Caller fs program) (arity : Nat) (m : Machine) (v : Option Word) : Prop where
  position : m.get .instruction = c.back
  programOffset : m.programOffset = c.machine.programOffset
  stack : m.get .stack = Word.ofInt (c.above - 4 * arity)
  agree : c.machine.memory.AgreeFrom m.memory c.above
  result : ∀ w, v = some w → m.get .result = w

end

/-! ### What code does -/

section

variable (fs : List Function) (program : List UInt8) (labels : Labels)

/-- The code at the labels of functions follows their calls. -/
def Answers (call : Signature → List Word → Run (Option Word)) : Prop :=
  ∀ g args q entry, args.length = g.arity →
    labels.get? (Label.function g).text = some entry → ∀ (c : Caller fs program) m,
      Entered c args entry m →
      Follows (c.above - 4 * (args.length + 1)) m q (Returned c g.arity) (call g args)

/-- From every frame the code follows a run. -/
def Does {α : Type} (f : Frame) (code : Code) (run : Env → Run α)
    (goal : Caller fs program → List Word → Env → Nat → Machine → α → Prop) : Prop :=
  ∀ env q c ws m o rest, Framed c f env ws o m → Placed labels program o (code ++ rest) →
    Follows (f.top c.above) m q (goal c ws env (o + extent code)) (run env)

/-- The code leaves the value of a run in a register. -/
def Evaluates (f : Frame) (r : Register) (code : Code) (run : Env → Run Word) : Prop :=
  Does fs program labels f code run fun c ws env o m v => Framed c f env ws o m ∧ m.get r = v

def Performs (f : Frame) (code : Code) (run : Env → Run Unit) : Prop :=
  Does fs program labels f code run fun c ws env o m _ => Framed c f env ws o m

/-- The code leaves the values of a run on the stack, the last one on top. -/
def Stacks (f : Frame) (n : Nat) (code : Code) (run : Env → Run (List Word)) : Prop :=
  Does fs program labels f code run fun c ws env o m args =>
    Framed c (f.push n) env (args.reverse ++ ws) o m

end

variable {fs : List Function} {program : List UInt8} {labels : Labels} {f : Frame} {r : Register}
  {code first second : Code} {call : Signature → List Word → Run (Option Word)} {e left right : Expr}
  {es : List Expr} {k n : Nat} {x : String} {callee : String}

/-! ### Values -/

theorem evaluates_int (hr : r.General) (w : Word) :
    Evaluates fs program labels f r [Code.set r w.toNat] ((Expr.int w).value call) := by
  intro env q c ws m o rest hF hp
  obtain ⟨m', p, hv, _⟩ := runs_set hr.ne_instruction hF.loaded hF.position hp q
  rw [Expr.value]
  exact follows_of_path p.anywhere
    ⟨hF.kept p.toArrives (by simpa using hr.ne_stack.symm), hv.trans UInt32.ofNat_toNat⟩

theorem evaluates_name (hr : r.General) (hk : f.offset? x = some k) :
    Evaluates fs program labels f r (valueAt k r) ((Expr.name x).value call) := by
  intro env q c ws m o rest hF hp
  rw [Expr.value]
  cases hx : env x with
  | none => exact follows_abort (by simp)
  | some w =>
    obtain ⟨k', hk', hb, hread⟩ := hF.holds_variable hx
    rw [hk] at hk'
    cases hk'
    obtain ⟨m', p, hv⟩ := runs_valueAt hr hF.loaded hF.position hp hb q
    exact follows_of_path p.anywhere
      ⟨hF.kept p.toArrives (by simpa using hr.ne_stack.symm), hv.trans hread⟩

theorem follows_combination {c : Caller fs program} {env : Env} {ws : List Word} {o id : Nat}
    {m : Machine} {q : WordQueue} {rest : Code} {y : Int} {op : BinaryOp} (hr : r.General)
    (hF : Framed c f env ws o m) (hp : Placed labels program o (combination op r r.adjacent id ++ rest)) :
    Follows y m q
      (fun m' v => Framed c f env ws (o + extent (combination op r r.adjacent id)) m' ∧ m'.get r = v)
      (Run.demand .divisionByZero (op.apply (m.get r) (m.get r.adjacent))) := by
  have hra := r.general_adjacent
  cases hv : op.apply (m.get r) (m.get r.adjacent) with
  | none =>
    have hf := faults_combination hF.loaded hF.position hp hv q
    exact follows_of_realizes rfl fun _ => ⟨_, hf.mono fun _ _ => trivial⟩
  | some w =>
    obtain ⟨m', p, hw⟩ := runs_combination hr hF.loaded hF.position hp hv q
    exact follows_of_path p.anywhere
      ⟨hF.kept p.toArrives (by simp [hr.ne_stack.symm, hra.ne_stack.symm]), hw⟩

theorem evaluates_binary {op : BinaryOp} {id : Nat} (hr : r.General)
    (h₂ : Evaluates fs program labels f r second (right.value call))
    (h₁ : Evaluates fs program labels (f.push 1) r first (left.value call)) :
    Evaluates fs program labels f r
      (second ++ [Code.push r] ++ first ++ [Code.pop r.adjacent] ++ combination op r r.adjacent id)
      ((Expr.binary op left right).value call) := by
  intro env q c ws m o rest hF hp
  have hra := r.general_adjacent
  simp only [List.append_assoc, List.cons_append, List.nil_append] at hp
  rw [Expr.value]
  refine (h₂ env q c ws m o _ hF hp).bind fun y q₁ m₁ _ hm₁ => ?_
  obtain ⟨hF₁, hy₁⟩ := hm₁
  refine (hF₁.follows_push hp.right fun m₂ hF₂ _ =>
    h₁ env q₁ c _ m₂ _ _ hF₂ hp.right.tail).bind fun v q₂ m₃ _ hm₃ => ?_
  obtain ⟨hF₃, hv₃⟩ := hm₃
  rw [hy₁] at hF₃
  obtain ⟨m₄, p₄, hF₄, hy₄, hothers⟩ := hF₃.popped hra.ne_instruction hra.ne_stack
    hp.right.tail.right q₂
  have hv₄ := hothers r hr.adjacent_ne.symm hr.ne_stack hr.ne_instruction
  have hc := follows_combination (y := f.top c.above) (q := q₂) hr hF₄ hp.right.tail.right.tail
  rw [hy₄, hv₄, hv₃] at hc
  refine Follows.after (hc.imp fun m' w hm' => ⟨hm'.1.of_eq ?_, hm'.2⟩) p₄
  simp only [extent_append, extent_cons, extent_nil, size_push, size_pop]
  omega

theorem evaluates_converted {line : Register → Assembly.Line} {g : Word → Word} (hg : Converts line g)
    (hr : r.General) (h : Evaluates fs program labels f r code (e.value call)) :
    Evaluates fs program labels f r (code ++ [line r])
      fun env => e.value call env >>= fun v => Run.result (g v) := by
  intro env q c ws m o rest hF hp
  rw [List.append_assoc] at hp
  refine (h env q c ws m o _ hF hp).bind fun v q₁ m₁ _ hm₁ => ?_
  obtain ⟨hF₁, hv₁⟩ := hm₁
  obtain ⟨m₂, p₂, hv₂⟩ := runs_convert hg hr.ne_instruction hF₁.loaded hF₁.position hp.right q₁
  have hF₂ := hF₁.kept p₂.toArrives (by simpa using hr.ne_stack.symm)
  have hsize : (line r).size = 2 := by cases hg <;> rfl
  rw [hv₁] at hv₂
  refine follows_of_path p₂.anywhere ⟨hF₂.of_eq ?_, hv₂⟩
  rw [extent_append, extent_cons, extent_nil, hsize]
  rfl

theorem evaluates_not {id : Nat} (hr : r.General)
    (h : Evaluates fs program labels f r code (e.value call)) :
    Evaluates fs program labels f r (code ++ [Code.test r] ++ truthCode Code.jiz r id)
      ((Expr.unary .logicalNot e).value call) := by
  intro env q c ws m o rest hF hp
  have hi := hr.ne_instruction
  simp only [List.append_assoc, List.cons_append, List.nil_append] at hp
  rw [Expr.value]
  refine (h env q c ws m o _ hF hp).bind fun v q₁ m₁ _ hm₁ => ?_
  obtain ⟨hF₁, hv₁⟩ := hm₁
  obtain ⟨m₂, p₂, hv₂, hf₂⟩ := runs_combine .and hi hF₁.loaded hF₁.position hp.right q₁
  have hF₂ := hF₁.kept p₂.toArrives (by simpa using hr.ne_stack.symm)
  obtain ⟨m₃, p₃, hv₃⟩ := runs_truth .jiz hi hF₂.loaded hF₂.position hp.right.tail q₁
  have hF₃ := hF₂.kept p₃.toArrives (by simpa using hr.ne_stack.symm)
  rw [hv₁, UInt32.and_self] at hv₂
  refine follows_of_path (p₂.anywhere.trans p₃.anywhere)
    ⟨hF₃.of_eq ?_, hv₃.trans (truth_congr ?_)⟩
  · simp only [extent_append, extent_cons, extent_nil, size_test, extent_truthCode .jiz]
    omega
  · rw [hf₂.1, hv₂, decide_eq_true_iff]

/-! ### Calls -/

theorem Framed.released {c : Caller fs program} {env : Env} {us ws : List Word} {o : Nat} {m : Machine}
    {rest : Code} (hF : Framed c (f.push n) env (us ++ ws) o m) (hn : us.length = n)
    (hp : Placed labels program o (Code.release .result n ++ rest)) (q : WordQueue) :
    ∃ m', Runs 0 m q m' [.result, .stack] o (o + extent (Code.release .result n)) ∧
      Framed c f env ws (o + extent (Code.release .result n)) m' := by
  obtain ⟨m', p, hs⟩ := runs_release (by decide) (by decide) hF.loaded hF.position hp q
  have hstack : m'.get .stack = Word.ofInt (f.top c.above) := by
    have h4 : ((4 * n : Nat) : Int) = 4 * (n : Int) := by omega
    rw [hs, hF.stack, ← Word.ofInt_natCast, ← Word.ofInt_add, Frame.top_push, h4,
      Int.sub_add_cancel]
  refine ⟨m', p, hF.dropped hn p.position p.programOffset ?_ hstack⟩
  rw [p.memory]
  exact .refl _ _

/-- A caller calls a function with the arguments that lie on top of its stack. -/
structure Caller.Calls (c : Caller fs program) (labels : Labels) (g : Signature) (args : List Word)
    (o : Nat) : Prop where
  position : c.machine.At o
  placed : ∃ rest, Placed labels program o (Code.call (.function g) :: rest)
  stack : c.machine.get .stack = Word.ofInt (c.above - 4 * args.length)
  back : c.back = c.machine.absolute (UInt32.ofNat (o + 5))
  arguments : ∀ (i : Nat) w, args[i]? = some w →
    c.machine.memory.word? (c.above - 4 * (i + 1)) = some w
  low : ∃ n : Nat, 0 ≤ c.above - 4 * args.length + 4 * n ∧
    c.machine.memory.size + 4 * n < 4294967296

variable {c : Caller fs program} {g : Signature} {args : List Word} {o : Nat} {entry : Word}

theorem Caller.Calls.entered (h : c.Calls labels g args o) (hx : 4 ≤ c.above - 4 * args.length) :
    Entered c args entry (c.machine.pushed c.back (c.machine.absolute entry)) := by
  have hlow : c.above - 4 * (args.length : Int) - 4 = c.above - 4 * (args.length + 1) := by omega
  have hle := c.above_le
  have hsize := c.loaded.size_eq
  obtain ⟨p, hs, hw⟩ := arrives_pushed h.stack hx (by omega) c.back entry.toNat
  rw [UInt32.ofNat_toNat] at p hs hw
  rw [hlow] at hs hw
  refine ⟨?_, p.programOffset, hs, p.agree.mono (by omega), hw, fun i w hi => ?_⟩
  · have ha := p.position
    rwa [Machine.At, UInt32.ofNat_toNat] at ha
  · obtain ⟨hlt, _⟩ := List.getElem?_eq_some_iff.1 hi
    rw [p.agree.word? (by omega), h.arguments i w hi]

/-- A call follows what the function does, unless the return address finds no room. -/
theorem Answers.calls (hA : Answers fs program labels call) (q : WordQueue) (hn : args.length = g.arity)
    (h : c.Calls labels g args o) :
    Follows c.above c.machine q (Returned c g.arity) (.pushed (args.length + 1) (call g args)) := by
  obtain ⟨rest, hp⟩ := h.placed
  obtain ⟨entry, hv⟩ := hp.target rfl
  obtain ⟨n, hlow, hroom⟩ := h.low
  have hle := c.above_le
  have hsize := c.loaded.size_eq
  have hlt : c.machine.memory.size < 4294967296 := c.machine.memory.size_lt
  have hholds : c.machine.memory.Holds (c.machine.get .stack - 4) 4 ↔
      4 ≤ c.above - 4 * args.length := by
    rw [top_sub_four h.stack, Memory.holds_ofInt_iff (by omega) (by omega) (by omega)]
    omega
  refine Follows.pushed (by omega) (fun hx => ?_) fun hx => ?_
  · have hx : 4 ≤ c.above - 4 * args.length := by omega
    have hs := step_call c.loaded h.position hp hv (hholds.2 hx) q
    rw [← h.back] at hs
    exact (hA g args q entry hn hv c _ (h.entered hx)).after (.single trivial hs)
  · exact starves_of_fault (step_call_fault c.loaded h.position hp hv (fun hb => by
      have hx' := hholds.1 hb
      omega) q)

theorem Framed.top_le_programOffset {env : Env} {ws : List Word} {m : Machine}
    (hF : Framed c (f.push n) env ws o m) : f.top c.above ≤ m.programOffset.toNat := by
  have hle := c.above_le
  rw [hF.programOffset, Frame.top]
  omega

theorem Framed.callee_room {env : Env} {ws : List Word} {m : Machine}
    (hF : Framed c (f.push n) env ws o m) :
    ∀ g ∈ fs, m.memory.size + 4 * g.locals.length < 4294967296 := by
  intro g hg
  rw [hF.size_eq]
  exact c.room g hg

def Framed.caller {env : Env} {ws : List Word} {m : Machine}
    (hF : Framed c (f.push n) env ws o m) (back : Word) : Caller fs program where
  machine := m
  above := f.top c.above
  back := back
  loaded := hF.loaded
  above_le := hF.top_le_programOffset
  room := hF.callee_room

theorem Framed.calls {env : Env} {ws : List Word} {m : Machine} {rest : Code}
    (hF : Framed c (f.push args.length) env (args.reverse ++ ws) o m)
    (hp : Placed labels program o (Code.call (.function g) :: rest)) :
    (hF.caller (m.absolute (UInt32.ofNat (o + 5)))).Calls labels g args o := by
  have htop : (f.push args.length).top c.above = f.top c.above - 4 * args.length := Frame.top_push
  refine ⟨hF.position, ⟨rest, hp⟩, ?_, rfl, fun i w hi => ?_, ?_⟩
  · show m.get .stack = Word.ofInt (f.top c.above - 4 * args.length)
    rw [hF.stack, htop]
  · obtain ⟨hlt, _⟩ := List.getElem?_eq_some_iff.1 hi
    have hrev : (args.reverse ++ ws)[args.length - 1 - i]? = some w := by
      rw [List.getElem?_append_left (by rw [List.length_reverse]; omega),
        List.getElem?_reverse (by omega), ← hi]
      congr 1
      omega
    have he : (f.push args.length).top c.above + 4 * ((args.length - 1 - i : Nat) : Int) =
        f.top c.above - 4 * (i + 1) := by omega
    have hword := hF.words _ w hrev
    rwa [he] at hword
  · have hlow := hF.low
    have hroom := hF.room
    rw [htop] at hlow
    rw [← hF.size_eq] at hroom
    exact ⟨f.locals.length, hlow, hroom⟩

theorem Answers.follows {env : Env} {ws : List Word} {m : Machine} {rest : Code}
    (hA : Answers fs program labels call) (q : WordQueue) (hn : args.length = g.arity)
    (hF : Framed c (f.push args.length) env (args.reverse ++ ws) o m)
    (hp : Placed labels program o (Code.call (.function g) :: rest)) :
    Follows (f.top c.above) m q (fun m' v =>
      (∃ us, us.length = args.length ∧ Framed c (f.push args.length) env (us ++ ws) (o + 5) m') ∧
        ∀ w, v = some w → m'.get .result = w) (.pushed (args.length + 1) (call g args)) := by
  refine Follows.imp (hA.calls q hn (hF.calls hp)) fun m' v hr => ?_
  have hpos : m'.get .instruction = m.absolute (UInt32.ofNat (o + 5)) := hr.position
  have hoffset : m'.programOffset = m.programOffset := hr.programOffset
  have hstack : m'.get .stack = Word.ofInt (f.top c.above - 4 * g.arity) := hr.stack
  refine ⟨hF.reread List.length_reverse ?_ hoffset hr.agree ?_, hr.result⟩
  · rw [Machine.At, hpos, Machine.absolute, Machine.absolute, hoffset]
  · rw [hstack, hF.stack, Frame.top_push, hn]

theorem stacks_nil : Stacks fs program labels f 0 [] (Expr.values call []) := by
  intro env q c ws m o rest hF hp
  rw [Expr.values]
  exact follows_result hF

theorem stacks_cons (h : Evaluates fs program labels f r first (e.value call))
    (hs : Stacks fs program labels (f.push 1) es.length second (Expr.values call es)) :
    Stacks fs program labels f (es.length + 1) (first ++ [Code.push r] ++ second)
      (Expr.values call (e :: es)) := by
  intro env q c ws m o rest hF hp
  simp only [List.append_assoc, List.cons_append, List.nil_append] at hp
  rw [Expr.values]
  refine (h env q c ws m o _ hF hp).bind fun v q₁ m₁ _ hm₁ => ?_
  obtain ⟨hF₁, hv₁⟩ := hm₁
  refine (hF₁.follows_push hp.right fun m₂ hF₂ _ =>
    hs env q₁ c _ m₂ _ _ hF₂ hp.right.tail).bind fun vs q₂ m₃ _ hF₃ => ?_
  have hpush : (f.push 1).push es.length = f.push (es.length + 1) := by
    simp only [Frame.push, Nat.add_comm, Nat.add_left_comm]
  have hrev : (v :: vs).reverse ++ ws = vs.reverse ++ (m₁.get r :: ws) := by
    rw [List.reverse_cons, List.append_assoc, hv₁]
    rfl
  rw [hpush, ← hrev] at hF₃
  refine follows_result (hF₃.of_eq ?_)
  simp only [extent_append, extent_cons, extent_nil, size_push]
  omega

theorem does_call (hA : Answers fs program labels call)
    (h : Stacks fs program labels f es.length code (Expr.values call es)) :
    Does fs program labels f (code ++ [Code.call (.function ⟨callee, es.length⟩)])
      (fun env => Expr.values call es env >>= fun args =>
        .pushed (es.length + 1) (call ⟨callee, es.length⟩ args)) fun c ws env o m v =>
        (∃ us, us.length = es.length ∧ Framed c (f.push es.length) env (us ++ ws) o m) ∧
          ∀ w, v = some w → m.get .result = w := by
  intro env q c ws m o rest hF hp
  rw [List.append_assoc] at hp
  refine (h env q c ws m o _ hF hp).bind fun args q₁ m₁ hargs hF₁ => ?_
  have hlen := Expr.length_of_values hargs
  rw [← hlen] at hF₁
  have hcall := hA.follows q₁ (g := ⟨callee, es.length⟩) hlen hF₁ hp.right
  rw [hlen] at hcall
  refine hcall.imp fun m₂ v hm₂ => ?_
  rw [extent_append, extent_cons, extent_nil, size_call]
  exact hm₂

theorem evaluates_call (hA : Answers fs program labels call) (hr : r.General)
    (h : Stacks fs program labels f es.length code (Expr.values call es)) :
    Evaluates fs program labels f r
      (code ++ [Code.call (.function ⟨callee, es.length⟩)] ++ [Code.mov r .result] ++
        Code.release .result es.length) ((Expr.call callee es).value call) := by
  intro env q c ws m o rest hF hp
  rw [List.append_assoc, List.append_assoc _ [_] (_ ++ rest)] at hp
  rw [Expr.value, ← Run.bind_assoc]
  refine (does_call hA h env q c ws m o _ hF hp).bind fun v q₁ m₁ _ hm₁ => ?_
  obtain ⟨⟨us, hlen, hF₁⟩, hv₁⟩ := hm₁
  cases v with
  | none => exact follows_abort (by simp)
  | some w =>
    obtain ⟨m₂, p₂, hv₂, _⟩ := runs_mov hr.ne_instruction hF₁.loaded hF₁.position hp.right q₁
    have hF₂ := hF₁.kept p₂.toArrives (by simpa using hr.ne_stack.symm)
    obtain ⟨m₃, p₃, hF₃⟩ := hF₂.released hlen hp.right.right q₁
    refine follows_of_path (p₂.anywhere.trans p₃.anywhere) ⟨hF₃.of_eq ?_, ?_⟩
    · simp only [extent_append, extent_cons, extent_nil, size_mov]
      omega
    · rw [p₃.others r (by simp [hr.ne_result, hr.ne_stack]) hr.ne_instruction, hv₂, hv₁ w rfl]

/-! ### Effects -/

theorem performs_nothing (f : Frame) :
    Performs fs program labels f [] fun _ => Run.result () := by
  intro env q c ws m o rest hF hp
  exact follows_result hF

theorem performs_binary {op : BinaryOp}
    (h₂ : Performs fs program labels f second (right.effects call))
    (h₁ : Performs fs program labels f first (left.effects call)) :
    Performs fs program labels f (second ++ first) ((Expr.binary op left right).effects call) := by
  intro env q c ws m o rest hF hp
  rw [List.append_assoc] at hp
  rw [Expr.effects]
  refine (h₂ env q c ws m o _ hF hp).bind fun u q₁ m₁ _ hF₁ => ?_
  refine (h₁ env q₁ c ws m₁ _ _ hF₁ hp.right).imp fun m₂ _ hF₂ => hF₂.of_eq ?_
  rw [extent_append, Nat.add_assoc]

theorem performs_call (hA : Answers fs program labels call)
    (h : Stacks fs program labels f es.length code (Expr.values call es)) :
    Performs fs program labels f
      (code ++ [Code.call (.function ⟨callee, es.length⟩)] ++ Code.release .result es.length)
      ((Expr.call callee es).effects call) := by
  intro env q c ws m o rest hF hp
  rw [List.append_assoc] at hp
  rw [Expr.effects, ← Run.bind_assoc]
  refine (does_call hA h env q c ws m o _ hF hp).bind fun v q₁ m₁ _ hm₁ => ?_
  obtain ⟨⟨us, hlen, hF₁⟩, _⟩ := hm₁
  obtain ⟨m₂, p₂, hF₂⟩ := hF₁.released hlen hp.right q₁
  refine follows_of_path p₂.anywhere (hF₂.of_eq ?_)
  rw [extent_append _ (Code.release _ _), Nat.add_assoc]

/-! ### All expressions -/

theorem does_meaningless {α : Type} {run : Env → Run α}
    {goal : Caller fs program → List Word → Env → Nat → Machine → α → Prop}
    (h : ∀ env, run env = Run.abort .meaningless) : Does fs program labels f code run goal := by
  intro env q c ws m o rest hF hp
  rw [h env]
  exact follows_abort (by simp)

/-- What the code of an expression or of arguments does. -/
def Part.Evaluated (fs : List Function) (program : List UInt8) (labels : Labels)
    (call : Signature → List Word → Run (Option Word)) (f : Frame) (code : Code) : Part → Prop
  | .value e none => Performs fs program labels f code (e.effects call)
  | .value e (some r) => r.General → Evaluates fs program labels f r code (e.value call)
  | .arguments es r => r.General → Stacks fs program labels f es.length code (Expr.values call es)
  | _ => True

theorem evaluated_of_emits {l : Option Loop} {part : Part} {n₁ : Nat}
    (hA : Answers fs program labels call) (hE : Emits l f part n code n₁) :
    part.Evaluated fs program labels call f code := by
  induction hE with
  | @int _ f _ w out =>
    cases out with
    | none => exact performs_nothing f
    | some r => exact fun hr => evaluates_int hr w
  | unusedName => exact performs_nothing _
  | name hk => exact fun hr => evaluates_name hr hk
  | unusedBinary _ _ ihr ihl => exact performs_binary ihr ihl
  | binary _ _ ihr ihl => exact fun hr => evaluates_binary hr (ihr hr) (ihl hr)
  | @addressOf _ f _ _ e out _ =>
    cases out with
    | none =>
      exact show Performs fs program labels f _ ((Expr.unary .addressOf e).effects call) from
        does_meaningless fun env => rfl
    | some r =>
      exact fun _ => show Evaluates fs program labels f r _ ((Expr.unary .addressOf e).value call)
        from does_meaningless fun env => rfl
  | @negate _ _ _ _ e out code _ ih =>
    cases out with
    | none =>
      rw [Option.map_none, Option.toList_none, List.append_nil]
      exact ih
    | some r => exact fun hr => evaluates_converted .neg hr (ih hr)
  | @bitNot _ _ _ _ e out code _ ih =>
    cases out with
    | none =>
      rw [Option.map_none, Option.toList_none, List.append_nil]
      exact ih
    | some r => exact fun hr => evaluates_converted .not hr (ih hr)
  | unusedNot _ ih => exact ih
  | logicalNot _ ih => exact fun hr => evaluates_not hr (ih hr)
  | @dereference _ f _ _ e out _ =>
    cases out with
    | none =>
      exact show Performs fs program labels f _ ((Expr.unary .dereference e).effects call) from
        does_meaningless fun env => rfl
    | some r =>
      exact fun _ => show Evaluates fs program labels f r _ ((Expr.unary .dereference e).value call)
        from does_meaningless fun env => rfl
  | @call _ _ _ _ callee es out code _ ih =>
    have hs := ih (Register.general_adjacent _)
    cases out with
    | none =>
      rw [Option.map_none, Option.toList_none, List.append_nil]
      exact performs_call hA hs
    | some r => exact fun hr => evaluates_call hA hr hs
  | noArguments => exact fun _ => stacks_nil
  | argument _ _ ih ihs => exact fun hr => stacks_cons (ih hr) (ihs hr)
  | _ => trivial

end WordMachine.Compiler
