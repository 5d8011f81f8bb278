import WordMachine.Proofs.Compiler.Bodies
import WordMachine.Proofs.Compiler.Executing
import WordMachine.Proofs.Compiler.Meaning
import WordMachine.Proofs.Machine.Installation
import WordMachine.Proofs.Source.Fuel

/-!
# Correctness of compiled programs

The code of a function follows its calls, by induction on fuel, and so an assembled program follows the
run of the program on every machine on which it is installed.
-/

namespace WordMachine.Compiler

open Assembly Source Machine

variable {fs : List Function} {program : List UInt8} {labels : Labels} {codes : List Code}
  {c : Caller fs program} {args : List Word} {entry w : Word} {o : Nat} {m m₁ : Machine} {q : WordQueue}
  {rest : Code} {rs : List Register} {x : String} {params locals : List String}

/-! ### Entries -/

/-- The word of a parameter is the argument at its last place. -/
theorem ofArguments_eq (h : args.length = params.length) (x : String) :
    Env.ofArguments params args x = (lastIndex? x params).bind fun i => args[i]? := by
  induction params generalizing args with
  | nil => rw [Env.ofArguments, lastIndex?, Option.bind_none]
  | cons p ps ih =>
    cases args with
    | nil => cases h
    | cons a as =>
      have hlen : as.length = ps.length := Nat.succ.inj h
      show (Env.ofArguments ps as x).or (if x = p then some a else none) = _
      rw [lastIndex?, ih hlen]
      cases hl : lastIndex? x ps with
      | some i =>
        have hi := lastIndex?_lt hl
        rw [Option.bind_some, Option.bind_some, List.getElem?_cons_succ,
          List.getElem?_eq_getElem (by omega), Option.some_or]
      | none =>
        rw [Option.bind_none, Option.none_or]
        by_cases hx : x = p
        · simp [hx]
        · simp [hx, Ne.symm hx]

theorem Entered.loaded (h : Entered c args entry m) : m.Loaded program :=
  c.loaded.of_agree h.agree c.above_le h.programOffset

/-- At its entry a function is in a frame, once its local variables have their places. -/
theorem Entered.framed (h : Entered c args entry m) (p : Arrives 0 m m₁ rs o)
    (hs : m₁.get .stack = Word.ofInt (c.above - 4 * (args.length + 1 + locals.length)))
    (hn : args.length = params.length) (hd : ∀ x ∈ params, x ∉ locals)
    (hroom : c.machine.memory.size + 4 * locals.length < 4294967296) :
    Framed c ⟨params, locals, 0⟩ (Env.ofArguments params args) [] o m₁ where
  position := p.position
  programOffset := p.programOffset.trans h.programOffset
  stack := by
    rw [hs, hn]
    rfl
  agree := by
    rw [p.memory]
    exact h.agree
  back := by
    rw [p.memory, ← h.back, hn]
  words i w hi := by cases hi
  length := rfl
  values x w hx := by
    rw [ofArguments_eq hn, Option.bind_eq_some_iff] at hx
    obtain ⟨i, hi, hw⟩ := hx
    have hlt := lastIndex?_lt hi
    have hl : lastIndex? x locals = none := by
      have hm := hd x (Frame.isSome_lastIndex?_iff.1 (by rw [hi]; rfl))
      cases hl : lastIndex? x locals with
      | none => rfl
      | some j => exact absurd (Frame.isSome_lastIndex?_iff.1 (by rw [hl]; rfl)) hm
    refine ⟨locals.length + (params.length - i), ?_, ?_⟩
    · simp [Frame.offset?, hl, hi]
    · rw [p.memory, ← h.arguments i w hw]
      congr 1
      simp only [Frame.top, Frame.depth]
      omega
  room := hroom

/-! ### Functions -/

theorem Entered.at_start (h : Entered c args entry m) (ho : entry = UInt32.ofNat o) :
    Framed c ⟨List.replicate args.length "", [], 0⟩
      (Env.ofArguments (List.replicate args.length "") args) [] o m := by
  have ha : m.At o := by rw [Machine.At, h.position, ho]
  have hs : m.get .stack = Word.ofInt (c.above - 4 * (args.length + 1 + ([] : List String).length)) := by
    rw [h.stack]
    congr 1
  refine h.framed (arrives_refl ha []) hs (by simp) (by simp) ?_
  exact c.machine.memory.size_lt

theorem read_eq (q : WordQueue) : ∃ w q₁, Run.readWord q = (.ok w, q₁) ∧ Host.read q = (.ok w, q₁) := by
  rcases q with ⟨_ | ⟨w, input⟩, output⟩
  · exact ⟨_, _, rfl, rfl⟩
  · exact ⟨_, _, rfl, rfl⟩

theorem words_readchar (q : WordQueue) : Source.readchar.words q = 0 := by
  rcases q with ⟨_ | ⟨w, input⟩, output⟩ <;> rfl

theorem follows_readchar (hp : Placed labels program o readcharCode) (he : entry = UInt32.ofNat o)
    (hm : Entered c args entry m) {y : Int} : Follows y m q (Returned c args.length)
      Source.readchar := by
  have hF := hm.at_start he
  obtain ⟨w, q₁, hw, hread⟩ := read_eq q
  have hs := step_input hF.loaded hF.position hp.tail hread
  obtain ⟨m₂, p₂, hr₂⟩ := hF.returned (v := some w) (arrives_settle m .result w m.flags (o + 2))
    (by rw [get_settle, if_neg (by decide), if_neg (by decide), hm.stack, List.length_replicate])
    (by
      rintro _ ⟨⟩
      exact get_settle_self _ _ _ _ (by decide)) hp.tail.tail q₁
  have hrun : Source.readchar q = (.ok (some w), q₁) :=
    Run.bind_eq_ok.2 ⟨w, q₁, hw, rfl⟩
  rw [List.length_replicate] at hr₂
  refine follows_of_realizes (words_readchar q) ?_
  rw [hrun]
  exact ⟨m₂, .step trivial hs p₂, hr₂⟩

theorem follows_printchar (hp : Placed labels program o printcharCode) (he : entry = UInt32.ofNat o)
    (hm : Entered c [w] entry m) {y : Int} : Follows y m q (Returned c 1)
      (Source.printchar [w]) := by
  have hF := hm.at_start he
  obtain ⟨k, hk, hb, hread⟩ := hF.holds_variable (x := "") (w := w) rfl
  cases hk
  obtain ⟨m₁, p₁, hv₁, _⟩ := runs_set (by decide) hF.loaded hF.position hp.tail q
  have hF₁ := hF.kept p₁.toArrives (by decide)
  obtain ⟨m₂, p₂, hv₂, _⟩ := runs_combine .add (by decide) hF₁.loaded hF₁.position hp.tail.tail q
  have hF₂ := hF₁.kept p₂.toArrives (by decide)
  have hslot : m₂.get .result = m.slot 1 := by
    rw [hv₂, hv₁, p₁.others .stack (by decide) (by decide), UInt32.add_comm]
    rfl
  have hmem : m₂.memory = m.memory := p₂.memory.trans p₁.memory
  obtain ⟨m₃, p₃, hv₃, _⟩ := runs_load (by decide) hF₂.loaded hF₂.position hp.tail.tail.tail (by
    rw [hslot, hmem]
    exact hb) q
  have hF₃ := hF₂.kept p₃.toArrives (by decide)
  have hw₃ : m₃.get .result = w := by rw [hv₃, hslot, hmem, ← hread]; rfl
  have hs := step_output hF₃.loaded hF₃.position hp.tail.tail.tail.tail
    (show Host.write q (m₃.get .result) = (.ok (), _) from rfl)
  obtain ⟨m₅, p₅, hr₅⟩ := hF₃.returned (v := some w) (arrives_goto m₃ _) (by
    rw [get_goto, if_neg (by decide), hF₃.stack]
    rfl) (by
    rintro _ ⟨⟩
    rw [get_goto, if_neg (by decide), hw₃]) hp.tail.tail.tail.tail.tail _
  have hpath := ((p₁.anywhere.trans p₂.anywhere).trans p₃.anywhere).trans (.step trivial hs p₅)
  rw [hw₃] at hpath
  exact follows_of_realizes rfl ⟨m₅, hpath, hr₅⟩

theorem follows_function {call : Signature → List Word → Run (Option Word)} {fuel n n₁ : Nat}
    {f : Function} {lines : Code} (hA : Answers fs program labels call) (hf : f ∈ fs)
    (hfun : function f n = .ok (lines, n₁)) (hp : Placed labels program o lines)
    (he : entry = UInt32.ofNat o) (hn : args.length = f.parameters.length)
    (hm : Entered c args entry m) :
    Follows (c.above - 4 * (args.length + 1)) m q (Returned c f.parameters.length)
      (.reserved f.locals.length (Stmt.runAll call fuel f.body (.ofArguments f.parameters args)) >>=
        Source.outcome) := by
  obtain ⟨body, hE, rfl⟩ := emitsFunction_of_function hfun
  have hbody : Executes fs program labels none ⟨f.parameters, f.locals, 0⟩ body
    (Stmt.runAll call fuel f.body) := executed_of_emits hA hE
  simp only [List.append_assoc, List.cons_append, List.nil_append] at hp
  have hp : Placed labels program o (Code.reserve frameSize f.locals.length ++ (body ++
    (Code.release frameSize f.locals.length ++ [Code.ret]))) := hp.2
  have ha : m.At o := by rw [Machine.At, hm.position, he]
  obtain ⟨m₁, p₁, hs₁⟩ := runs_reserve (by decide) (by decide) hm.loaded ha hp q
  have h4 : ((4 * f.locals.length : Nat) : Int) = 4 * (f.locals.length : Int) := by omega
  rw [hm.stack, ← Word.ofInt_natCast, ← Word.ofInt_sub, h4] at hs₁
  have hF₁ : Framed c ⟨f.parameters, f.locals, 0⟩ (.ofArguments f.parameters args) [] _ m₁ :=
    hm.framed p₁.toArrives (by
      rw [hs₁]
      congr 1
      omega) hn (by simp +contextual [Function.locals]) (c.room f hf)
  have htop : (⟨f.parameters, f.locals, 0⟩ : Frame).top c.above =
      c.above - 4 * (args.length + 1) - 4 * f.locals.length := by
    simp only [Frame.top, Frame.depth]
    omega
  have hrun := hbody _ q c [] m₁ _ _ hF₁ hp.right
  rw [htop] at hrun
  refine Follows.after (hrun.reserved.bind fun flow q₁ m₂ _ hm₂ => ?_) p₁.anywhere
  cases flow with
  | next env =>
    have hF₂ : Framed c ⟨f.parameters, f.locals, 0⟩ env [] _ m₂ := hm₂
    obtain ⟨m₃, p₃, hs₃⟩ := hF₂.unwound (by decide) (by decide) hp.right.right q₁
    obtain ⟨m₄, p₄, hr₄⟩ := hF₂.returned (v := none) p₃.toArrives hs₃ (by simp) hp.right.right.right q₁
    exact follows_of_path (p₃.anywhere.trans p₄) hr₄
  | returned v => exact follows_result hm₂
  | broke env | continued env =>
    obtain ⟨i, _, ⟨⟩, _⟩ := hm₂

/-- The code at the labels of functions follows their calls, whatever the fuel is. -/
theorem Linked.answers (h : Linked fs codes labels program) (fuel : Nat) :
    Answers fs program labels (Source.call fs fuel) := by
  have hentry {g : Signature} {lines : Code} (hm : lines ∈ builtinCodes ++ codes)
      (hc : CodeOf fs g lines) (entry : Word) (he : labels.get? (Label.function g).text = some entry) :
      ∃ o, Placed labels program o lines ∧ entry = UInt32.ofNat o := by
    obtain ⟨before, _, _, hp⟩ := h.section hm
    have ho := hc.entry hp
    rw [he] at ho
    exact ⟨_, hp, Option.some.inj ho⟩
  induction fuel with
  | zero => exact fun g args q entry _ _ c m _ => follows_abort (by simp)
  | succ fuel ih =>
    intro g args q entry hn he c m hm
    by_cases hr : g = .readchar
    · subst hr
      obtain ⟨o, hp, ho⟩ := hentry (List.mem_append_left _ (by simp [builtinCodes])) .readchar entry he
      rw [Source.call, if_pos rfl, ← hn]
      exact follows_readchar hp ho hm
    · by_cases hw : g = .printchar
      · subst hw
        obtain ⟨o, hp, ho⟩ := hentry (List.mem_append_left _ (by simp [builtinCodes])) .printchar entry he
        obtain ⟨w, rfl⟩ := List.length_eq_one_iff.1 hn
        rw [Source.call, if_neg hr, if_pos rfl]
        exact follows_printchar hp ho hm
      · cases hf : fs.find? fun f => f.signature = g with
        | none =>
          simp only [Source.call, if_neg hr, if_neg hw, hf]
          exact follows_abort (by simp)
        | some f =>
          have hmem := List.mem_of_find?_eq_some hf
          have hsig : f.signature = g := by simpa using List.find?_some hf
          subst hsig
          obtain ⟨lines, hlines, n, n₁, hfun⟩ := h.own hmem
          obtain ⟨o, hp, ho⟩ := hentry hlines (.own hmem hfun) entry he
          simp only [Source.call, if_neg hr, if_neg hw, hf]
          exact follows_function ih hmem hfun hp ho hn hm

/-! ### Programs -/

/-- An assembled program on a machine follows its run, and comes to its end. -/
theorem Linked.follows {size : Nat} (h : Linked fs codes labels program) (hm : m.Installed size program)
    (hroom : ∀ f ∈ fs, size + 4 * f.locals.length < 4294967296) (fuel : Nat) (q : WordQueue) :
    Follows m.programOffset.toNat m q (fun m' v => m'.Loaded program ∧ m'.At program.length ∧
      m'.get .stack = m.programOffset ∧ ∀ w, v = some w → m'.get .result = w) (interpret fs fuel) := by
  have hend := h.placed.right.1
  have hlen := h.length
  rw [extent_append, extent_cons, extent_nil] at hlen
  have hlast : 0 + extent (bootstrap ++ (builtinCodes ++ codes).flatten) = program.length := by
    rw [hlen, size_label]
    omega
  rw [hlast] at hend
  have hp := h.placed
  simp only [bootstrap, List.cons_append, List.nil_append] at hp
  have hzero : Word.ofInt (m.programOffset.toNat - 4 * ((0 : Nat) : Int)) = m.programOffset := by
    rw [Int.natCast_zero, Int.mul_zero, Int.sub_zero, Word.ofInt_toNat]
  have hsize : m.memory.size < 4294967296 := m.memory.size_lt
  let c : Caller fs program := ⟨m, m.programOffset.toNat, m.absolute (UInt32.ofNat 5), hm.loaded,
    Int.le_refl _, fun f hf => hm.size_eq ▸ hroom f hf⟩
  have hcalls : c.Calls labels .main [] 0 := by
    refine ⟨hm.position, ⟨_, hp⟩, hm.stack.trans hzero.symm, rfl, fun i w hi => ?_, 0, ?_, ?_⟩
    · cases hi
    · show 0 ≤ (m.programOffset.toNat : Int) - 4 * ((0 : Nat) : Int) + 4 * ((0 : Nat) : Int)
      omega
    · show m.memory.size + 4 * 0 < 4294967296
      omega
  refine Follows.goes ((h.answers fuel).calls q rfl hcalls) fun m₁ v q₁ hr => ?_
  have hl₁ : m₁.Loaded program := c.loaded.of_agree hr.agree (Int.le_refl _) hr.programOffset
  have hoffset : m₁.programOffset = m.programOffset := hr.programOffset
  have ha₁ : m₁.At 5 := by
    rw [Machine.At, hr.position, Machine.absolute, hoffset]
    rfl
  obtain ⟨m₂, p₂, hm₂⟩ := goes_jmp hl₁ ha₁ hp.tail hend q₁
  refine ⟨m₂, p₂, hm₂.loaded (Int.natCast_nonneg _) hl₁, hm₂.position, ?_, fun w hw => ?_⟩
  · have hs : m₁.get .stack = Word.ofInt (m.programOffset.toNat - 4 * ((0 : Nat) : Int)) := hr.stack
    rw [hm₂.others .stack (by simp) (by decide), hs, hzero]
  · rw [hm₂.others .result (by simp) (by decide), hr.result w hw]

/-- The program faults as its stack leaves memory, and has written the beginning of what it was to
write. -/
def Overflows (m : Machine) (q last : WordQueue) : Prop :=
  ∃ n m' q', run n m q = (m', q', .fault (.outOfBounds (m'.get .stack) 4)) ∧
    q'.output.toList <+: last.output.toList

theorem overflows_of_starves {q last : WordQueue} (h : Starves m q last) : Overflows m q last := by
  obtain ⟨m₁, q₁, m₂, q₂, p, hs, hq⟩ := h
  obtain ⟨n, hn⟩ := p.run_of_step hs (by simp)
  exact ⟨n, m₂, q₂, hn, hq⟩

/-- A compiled program does what its functions mean. Whatever it reads and wherever it is installed, it
halts with the words read and written of the run, with an empty stack and the result of `main` in its
register, and it divides by zero if the run does, provided that the words of the run find room below the
program; else it faults as its stack leaves memory. Without pointers there is no other way for a run to
end but that a variable is read that has no word or a value is used that was not returned. -/
theorem program_computes {text : String} {fs : List Function} {code : Code} {program : List UInt8}
    {m₀ m : Machine} (hp : parse text = .ok fs) (hc : compile text = .ok code)
    (ha : assemble (render code) = .ok program) (hm : m₀.install program = .ok m)
    (hroom : ∀ f ∈ fs, m₀.memory.size + 4 * f.locals.length < 4294967296) (input : List Word) :
    (∀ v last words, Means fs (.ofWords input) (.ok v, last) words →
      (4 * words ≤ m.programOffset.toNat →
        ∃ n m', run n m (WordQueue.ofWords input) = (m', last, .halted) ∧
          m'.get .stack = m.programOffset ∧ ∀ w, v = some w → m'.get .result = w) ∧
      (m.programOffset.toNat < 4 * words → Overflows m (.ofWords input) last)) ∧
    (∀ last words, Means fs (.ofWords input) (.error .divisionByZero, last) words →
      (4 * words ≤ m.programOffset.toNat →
        ∃ n m' a, run n m (WordQueue.ofWords input) = (m', last, .fault (.divisionByZero a))) ∧
      (m.programOffset.toNat < 4 * words → Overflows m (.ofWords input) last)) ∧
    ((∀ f ∈ fs, Expr.AllPointerFree (Stmt.allExpressions f.body)) →
      ∀ outcome words, Means fs (.ofWords input) outcome words → outcome.1 ≠ .error .meaningless) := by
  obtain ⟨codes, labels, hlinked, _⟩ := linked_of_compile hp hc ha
  have hf := hlinked.follows (Installed.of_install hm) hroom
  -- the return address of `main` is on the stack at least
  have hfits (fuel : Nat) : Machine.Fits ((interpret fs fuel).words (.ofWords input))
      m.programOffset.toNat ↔
      4 * (interpret fs fuel).words (.ofWords input) ≤ m.programOffset.toNat := by
    have hpos : (interpret fs fuel).words (.ofWords input) ≠ 0 := by
      show 1 + _ ≠ 0
      omega
    simp only [Machine.Fits]
    omega
  refine ⟨fun v last words hr => ?_, fun last words hr => ?_, fun hfree outcome words hr => ?_⟩
  · obtain ⟨_, fuel, hr, rfl⟩ := hr
    obtain ⟨hreal, hstarve⟩ := hf fuel (.ofWords input)
    rw [hr] at hreal hstarve
    rw [hfits] at hreal hstarve
    refine ⟨fun hx => ?_, fun hx => overflows_of_starves (hstarve (by omega) trivial)⟩
    obtain ⟨m', p, ⟨hl, hend, hs, hv⟩⟩ := hreal hx
    obtain ⟨n, hn⟩ := p.run_of_step (halts_of_end hl hend last) (by simp)
    exact ⟨n, m', hn, hs, hv⟩
  · obtain ⟨_, fuel, hr, rfl⟩ := hr
    obtain ⟨hreal, hstarve⟩ := hf fuel (.ofWords input)
    rw [hr] at hreal hstarve
    rw [hfits] at hreal hstarve
    refine ⟨fun hx => ?_, fun hx => overflows_of_starves (hstarve (by omega) rfl)⟩
    obtain ⟨a, hfaults⟩ := hreal hx rfl
    obtain ⟨n, m', hn⟩ := hfaults.run
    exact ⟨n, m', a, hn⟩
  · obtain ⟨_, fuel, rfl, rfl⟩ := hr
    exact meaningful_call hlinked hfree fuel (main_defined_of_check hlinked.check) [] rfl _

/-- A program that divides by what it reads. Two words lie on its stack: where `main` returns to and, one
after the other, where `readchar` does and the right operand. -/
theorem program_computes_quotient : ∃ fs code program m last,
    parse "DEF main() RETURN 7 / readchar(); END;" = .ok fs ∧
    compile "DEF main() RETURN 7 / readchar(); END;" = .ok code ∧
    assemble (render code) = .ok program ∧ (Machine.empty 300).install program = .ok m ∧
    Means fs (.ofWords [2]) (.ok (some 3), last) 2 ∧
    ∃ n m', run n m (WordQueue.ofWords [2]) = (m', last, .halted) ∧
      m'.get .stack = m.programOffset ∧ m'.get .result = 3 := by
  have hi : installs 300 "DEF main() RETURN 7 / readchar(); END;" (fun fs m =>
      decide (∀ f ∈ fs, 300 + 4 * f.locals.length < 4294967296) &&
      decide ((interpret fs 9 (.ofWords [2])).1.toOption = some (some 3)) &&
      decide ((interpret fs 9).words (.ofWords [2]) = 2) && decide (8 ≤ m.programOffset.toNat)) = true := by
    decide +kernel
  obtain ⟨fs, code, program, m, hp, hc, ha, hm, htest⟩ := installed_of_installs hi
  simp only [Bool.and_eq_true, decide_eq_true_eq] at htest
  obtain ⟨⟨⟨hroom, hv⟩, hwords⟩, hfits⟩ := htest
  have hsize : (Machine.empty 300).memory.size = 300 := Memory.size_zeros 300
  obtain ⟨last, hr⟩ : ∃ last, interpret fs 9 (.ofWords [2]) = (.ok (some 3), last) := by
    rcases hr : interpret fs 9 (.ofWords [2]) with ⟨e | v, last⟩ <;> rw [hr] at hv
    · cases hv
    · exact ⟨last, by rw [Option.some.inj hv]⟩
  have hmeans : Means fs (.ofWords [2]) (.ok (some 3), last) 2 := ⟨by simp, 9, hr, hwords⟩
  obtain ⟨hdone, _⟩ := program_computes hp hc ha hm (fun f hf => hsize ▸ hroom f hf) [2]
  obtain ⟨n, m', hn, hs, hres⟩ := (hdone _ _ _ hmeans).1 hfits
  exact ⟨fs, code, program, m, _, hp, hc, ha, hm, hmeans, n, m', hn, hs, hres 3 rfl⟩

end WordMachine.Compiler
