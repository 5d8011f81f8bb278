import WordMachine.Proofs.Compiler.Courses
import WordMachine.Proofs.Compiler.Moves
import WordMachine.Proofs.Compiler.Wraparound

/-!
# Caller and callee

A function finds its arguments and its return address where its frame says that they are: each argument
is the word that was pushed for it before the call, and when the function has returned and the caller
has taken the arguments off the stack, the stack ends where it ended before the first of them was
pushed.
-/

namespace WordMachine.Compiler

open Assembly Source Machine

/-! ### Places in a frame -/

/-- What a word of a frame is for: a variable, the return address, or a word that was pushed. -/
inductive Slot
  | name (x : String)
  | back
  | pushed (i : Nat)
deriving DecidableEq

namespace Frame

variable {f : Frame} {x : String} {k i : Nat}

/-- The distance in words from the top of the stack to a slot, if the frame has it. -/
def place? (f : Frame) : Slot → Option Nat
  | .name x => f.offset? x
  | .back => some f.depth
  | .pushed i => if i < f.pushed then some i else none

theorem lt_pushed (h : f.place? (.pushed i) = some k) : i < f.pushed ∧ k = i := by
  by_cases hi : i < f.pushed
  · rw [place?, if_pos hi] at h
    exact ⟨hi, (Option.some.inj h).symm⟩
  · rw [place?, if_neg hi] at h
    cases h

theorem place?_inj {s t : Slot} (hs : f.place? s = some k) (ht : f.place? t = some k) : s = t := by
  have hd : f.depth = f.locals.length + f.pushed := rfl
  cases s with
  | name x =>
    have hx := offset?_bounds hs
    cases t with
    | name y => rw [offset?_inj hs ht]
    | back => exact absurd (Option.some.inj ht).symm hx.2.1
    | pushed j =>
      have hj := lt_pushed ht
      omega
  | back =>
    cases hs
    cases t with
    | name y => exact absurd rfl (offset?_bounds ht).2.1
    | back => rfl
    | pushed j =>
      have hj := lt_pushed ht
      omega
  | pushed i =>
    have hi := lt_pushed hs
    cases t with
    | name y =>
      have hy := offset?_bounds ht
      omega
    | back =>
      cases ht
      omega
    | pushed j => rw [← hi.2, ← (lt_pushed ht).2]

end Frame

theorem le_of_lastIndex? {x : String} {names : List String} {i j : Nat}
    (h : lastIndex? x names = some i) (hj : names[j]? = some x) : j ≤ i := by
  induction names generalizing i j with
  | nil => cases hj
  | cons y ys ih =>
    cases hl : lastIndex? x ys with
    | some k =>
      rw [lastIndex?, hl] at h
      cases h
      cases j with
      | zero => omega
      | succ j => exact Nat.succ_le_succ (ih hl hj)
    | none =>
      cases j with
      | zero => exact Nat.zero_le i
      | succ j =>
        rw [List.getElem?_cons_succ] at hj
        have hmem := Frame.isSome_lastIndex?_iff.2 (List.mem_of_getElem? hj)
        rw [hl] at hmem
        cases hmem

/-- The frame of a function that has just reserved its local variables. -/
def entryFrame (f : Function) : Frame := ⟨f.parameters, f.locals, 0⟩

theorem exists_place_of_parameter {f : Function} {x : String} (hx : x ∈ f.parameters) : ∃ i,
    f.parameters[i]? = some x ∧ (∀ j : Nat, f.parameters[j]? = some x → j ≤ i) ∧
      (entryFrame f).offset? x = some (f.locals.length + (f.parameters.length - i)) := by
  cases hi : lastIndex? x f.parameters with
  | none =>
    have hmem := Frame.isSome_lastIndex?_iff.2 hx
    rw [hi] at hmem
    cases hmem
  | some i =>
    have hlocal : lastIndex? x f.locals = none := by
      cases hl : lastIndex? x f.locals with
      | none => rfl
      | some j =>
        have hmem := Frame.isSome_lastIndex?_iff.1 (hl ▸ rfl : (lastIndex? x f.locals).isSome)
        simp [Function.locals, hx] at hmem
    refine ⟨i, getElem?_of_lastIndex? hi, fun j => le_of_lastIndex? hi, ?_⟩
    simp only [Frame.offset?, entryFrame, hlocal, hi]
    rfl

variable {σ : Type} [Host σ] {I : Image} {p : Signature → Prop} {E : Machine → Prop}
  {m m' m₁ m₂ e : Machine} {h h' h₁ h₂ : σ} {b : Body} {base : Int} {n k t o o' : Nat}
  {rest before after : Code} {j : Instruction Word} {g : Signature} {region : Nat → Prop}

/-! ### Outside of functions -/

theorem Intact.opcode_at_start (hI : I.CompleteFor p E) (hi : Intact I p m) (ha : m.At 0)
    (hf : m.Fetches j) : j.opcode = .call := by
  rcases hI.code with ⟨middle, hcode⟩
  have hp := hI.placed
  rw [hcode] at hp
  rcases exists_fetches hi.loaded ha hp with ⟨j', hj, hf'⟩
  rw [hf.unique hf']
  exact Instruction.opcode_of_traverse hj

theorem Intact.opcode_after_main (hI : I.CompleteFor p E) (hi : Intact I p m) (ha : m.At 5)
    (hf : m.Fetches j) : j.opcode = .jmp := by
  rcases hI.code with ⟨middle, hcode⟩
  have hp := hI.placed
  rw [hcode] at hp
  rcases exists_fetches hi.loaded ha hp.tail with ⟨j', hj, hf'⟩
  rw [hf.unique hf']
  exact Instruction.opcode_of_traverse hj

theorem Intact.not_fetches_at_end (hi : Intact I p m) (ha : m.At I.program.length) :
    ¬m.Fetches j := by
  intro hf
  have hend := hf.end_le
  have hpos : 0 < j.size := j.opcode.size_pos
  have hsize := hi.loaded.size_eq
  rw [ha, hi.loaded.toNat_absolute (Nat.le_refl _)] at hend
  omega

theorem start_level (hI : I.CompleteFor p E) {f : σ} (l : Level E region n e f m h)
    (hi : Intact I p e) (ha : e.At 0) (htop : e.get .stack = e.programOffset) :
    Intact I p m ∧
      (m = e ∨ (m.At 5 ∧ m.get .stack = m.programOffset) ∨ m.At I.program.length) := by
  induction l with
  | done => exact ⟨hi, .inl rfl⟩
  | step _ _ hf hc _ hs ih =>
    rcases ih hi ha htop with ⟨hi₁, rfl | ⟨h5, htop₁⟩ | hend⟩
    · exact absurd (hi₁.opcode_at_start hI ha hf) hc
    · rcases hi₁.ends hI h5 htop₁ hs with ⟨hi₂, hend⟩
      exact ⟨hi₂, .inr (.inr hend)⟩
    · exact absurd hf (hi₁.not_fetches_at_end hend)
  | call _ _ hf hc hs hE l' hf' ht hs' ih _ =>
    rcases ih hi ha htop with ⟨hi₁, rfl | ⟨h5, _⟩ | hend⟩
    · rcases enters_of_start hI hE hi ha htop hs with ⟨b', he⟩
      rcases exists_traced hI l' he.intact he.active with ⟨s, o, rest, T⟩
      rcases T.returns hf' ht hs' he.back with ⟨hi', _, hstart, hstack, hpos⟩
      rw [programOffset_of_running hs] at hstart
      refine ⟨hi', .inr (.inl ⟨?_, ?_⟩)⟩
      · rw [At, hpos, absolute, absolute, hstart]
      · rw [hstack, Int.sub_add_cancel, Word.ofInt_toNat, hstart]
    · have hjmp := hi₁.opcode_after_main hI h5 hf
      rw [hc] at hjmp
      cases hjmp
    · exact absurd hf (hi₁.not_fetches_at_end hend)

theorem opcode_ne_ret_of_start_level (hI : I.CompleteFor p E) {f : σ}
    (l : Level E region n e f m h) (hi : Intact I p e) (ha : e.At 0)
    (htop : e.get .stack = e.programOffset) (hf : m.Fetches j) : j.opcode ≠ .ret := by
  rcases start_level hI l hi ha htop with ⟨hi', rfl | ⟨h5, _⟩ | hend⟩
  · rw [hi'.opcode_at_start hI ha hf]
    decide
  · rw [hi'.opcode_after_main hI h5 hf]
    decide
  · exact absurd hf (hi'.not_fetches_at_end hend)

/-- The only call outside of functions is that of `main`, right at the start. -/
theorem eq_start_of_call (hI : I.CompleteFor p E) {f : σ} (l : Level E region n e f m h)
    (hi : Intact I p e) (ha : e.At 0) (htop : e.get .stack = e.programOffset) (hf : m.Fetches j)
    (hc : j.opcode = .call) : m = e := by
  rcases start_level hI l hi ha htop with ⟨hi', rfl | ⟨h5, _⟩ | hend⟩
  · rfl
  · have hjmp := hi'.opcode_after_main hI h5 hf
    rw [hc] at hjmp
    cases hjmp
  · exact absurd hf (hi'.not_fetches_at_end hend)

theorem start_or_entered (hI : I.CompleteFor p E) (hi : Intact I p m) (ha : m.At 0)
    (htop : m.get .stack = m.programOffset) {f : σ} (B : Begun E m h n e f) :
    n = 0 ∧ e = m ∧ f = h ∨
      ∃ b base, Intact I p e ∧ ∃ rest, Active I p e b base ⟨[], none⟩ b.start rest := by
  induction B with
  | start => exact .inl ⟨rfl, rfl, rfl⟩
  | call _ l hf hc hs hE ih =>
    refine .inr ?_
    rcases ih with ⟨_, rfl, rfl⟩ | ⟨b, base, hi', hA⟩
    · rw [eq_start_of_call hI l hi ha htop hf hc] at hs
      rcases enters_of_start hI hE hi ha htop hs with ⟨b', he⟩
      exact ⟨b', _, he.intact, he.active⟩
    · rcases exists_traced hI l hi' hA with ⟨s, o, rest, T⟩
      rcases T.calls hI hf hc hs hE with ⟨g, ls, s', b', _, _, _, he⟩
      exact ⟨b', _, he.intact, he.active⟩

/-! ### Where a call stands -/

theorem eq_of_at {program : List UInt8} (hl : m.Loaded program) (ha : m.At o) (ha' : m.At o')
    (ho : o ≤ program.length) (ho' : o' ≤ program.length) : o = o' := by
  have heq : (m.absolute (UInt32.ofNat o)).toNat = (m.absolute (UInt32.ofNat o')).toNat := by
    rw [← ha, ← ha']
  rw [hl.toNat_absolute ho, hl.toNat_absolute ho'] at heq
  omega

/-- One instruction alone stands at an offset. -/
theorem split_unique {before' after' : Code} {x y : Instruction Value}
    (h : before ++ .instruction x :: after = before' ++ .instruction y :: after')
    (he : extent before = extent before') : before = before' ∧ x = y ∧ after = after' := by
  have hx : 0 < x.size := x.opcode.size_pos
  have hy : 0 < y.size := y.opcode.size_pos
  rcases append_eq_append_cons h with ⟨rest, rfl, _⟩ | ⟨rest, rfl, hafter⟩
  · rw [extent_append, extent_cons] at he
    simp only [Line.size] at he
    omega
  · cases rest with
    | nil =>
      cases hafter
      exact ⟨(List.append_nil _).symm, rfl, rfl⟩
    | cons l rest =>
      rcases List.cons.inj hafter with ⟨rfl, _⟩
      rw [extent_append, extent_cons] at he
      simp only [Line.size] at he
      omega

/-- A call that a function makes stands in its code. -/
theorem Traced.exists_split (hI : I.CompleteFor p E) {f : σ} {i : Instruction Value} {s : Shape}
    {ls : Code} {y : Instruction Value}
    (T : Traced E I p b base e f n m h s o (.instruction i :: ls))
    (hcode : I.code = before ++ .instruction y :: after) (ha : m.At (extent before)) :
    y = i ∧ ∃ front first back, b.lines = first ++ .instruction i :: ls ∧ before = front ++ first ∧
      after = ls ++ back ∧ extent front = b.start ∧ o = extent before := by
  rcases T.active.position.split with ⟨first, hlines, ho⟩
  rcases T.active.sound.boundary with ⟨front, back, hfront, hstart⟩
  have hsplit : I.code = (front ++ first) ++ .instruction i :: (ls ++ back) := by
    rw [hfront, hlines]
    simp only [List.append_assoc, List.cons_append]
  have hle : extent before ≤ I.program.length := by
    rw [hI.length, hcode, extent_append]
    omega
  have hle' : o ≤ I.program.length := by
    rw [hI.length, hsplit, extent_append, extent_append]
    omega
  have heq := eq_of_at T.intact.loaded ha T.active.pointer hle hle'
  rw [hcode] at hsplit
  rcases split_unique hsplit (by rw [heq, ho, extent_append, hstart]) with ⟨rfl, rfl, rfl⟩
  exact ⟨rfl, front, first, back, hlines, rfl, rfl, hstart, heq.symm⟩

/-! ### Arguments -/

/-- In step number s of a run that came to m₁ in t steps, the value of an argument was pushed: the line
after its code was executed, with the value in the scratch register. From then on to the call the run
has been in the code between the two, at the same level. -/
structure ArgumentPushed (site : CallSite g before after) (m : Machine) (h : σ) (t : Nat)
    (m₁ : Machine) (h₁ : σ) (i : Nat) (d : Expr) (w stack : Word) (first code rest : Code) (s k : Nat)
    (m' : Machine) (h' : σ) : Prop where
  code_eq : site.code = first ++ code ++ Code.push site.scratch :: rest
  earlier : ∃ l f n n₁,
    Emits l f (.arguments (site.arguments.take i) site.scratch) n first n₁
  emits : ∃ l f n n₁, Emits l f (.value d (some site.scratch)) n code n₁
  count : s + 1 + k = t
  run : Machine.run s m h = (m', h', .running)
  position : m'.At (extent (site.front ++ first ++ code))
  value : m'.get site.scratch = w
  stack : m'.get .stack = stack
  after : ∃ m'' h'', m'.step h' = (m'', h'', .running) ∧
    Level (fun _ => True) (Inside m.programOffset.toNat (extent (site.front ++ first ++ code) + 2)
      (extent before)) k m'' h'' m₁ h₁

/-- The argument was pushed with this value, where the stack ended at this address. -/
def CallSite.Pushes (site : CallSite g before after) (m : Machine) (h : σ) (t : Nat) (m₁ : Machine)
    (h₁ : σ) (i : Nat) (d : Expr) (w stack : Word) : Prop :=
  ∃ first code rest s k m' h',
    ArgumentPushed site m h t m₁ h₁ i d w stack first code rest s k m' h'

theorem CallSite.plain_scratch (site : CallSite g before after) : Plain site.scratch :=
  plain_of_general (Register.general_adjacent _)

/-- Each argument of a call was pushed since the function that makes the call was entered, and lies in
its place. -/
theorem Traced.argument {f : σ} {s : Shape} {ls first front : Code} {d : Expr}
    {es es' : List Expr} (back : Code)
    (T : Traced E I p b base e f n m₁ h₁ s o (Code.call (.function g) :: ls))
    (site : CallSite g first ls) (hlines : b.lines = first ++ Code.call (.function g) :: ls)
    (hstart : extent front = b.start) (hargs : site.arguments = es ++ d :: es')
    (hr : run k m h = (e, f, .running)) (hpo : e.programOffset = m.programOffset) : ∃ w,
      m₁.memory.word? (base - 4 * s.words.length + 4 * es'.length) = some w ∧
      (site.widen front back).Pushes m h (k + n) m₁ h₁ es.length d w
        (Word.ofInt (base - 4 * s.words.length + 4 * es'.length + 4)) := by
  rcases site.emits with ⟨l, fr, n₀, n₁, hE⟩
  rw [hargs] at hE
  rcases exists_emits_of_arguments hE with ⟨a, c, x, n₂, n₃, n₄, hcode, ha, hc, hx⟩
  have hfirst : first = site.front ++ (a ++ c ++ Code.push site.scratch :: x) :=
    site.before_eq.trans (congrArg (site.front ++ ·) hcode)
  have hsplit : b.lines = (site.front ++ a ++ c) ++ Code.push site.scratch ::
      (x ++ ([] ++ Code.call (.function g) :: ls)) :=
    hlines.trans ((congrArg (· ++ Code.call (.function g) :: ls) hfirst).trans (by simp))
  have hclimbs : Climbs 0 none (x ++ []) es'.length := by
    have hx' := climbs_of_emits hx site.plain_scratch 0
    rwa [Nat.zero_add, ← List.append_nil x] at hx'
  rcases T.pushed _ _ _ _ _ _ hsplit hclimbs rfl with
    ⟨i, j, t, H, height, n', q, P, hwords, hcs, _⟩
  cases hcs
  have hplace : base - 4 * ((height : Int) + 1) = base - 4 * s.words.length + 4 * es'.length := by
    omega
  have hoffset : extent ((site.widen front back).front ++ a ++ c) =
      b.start + extent (site.front ++ a ++ c) := by
    rw [← hstart]
    show extent (front ++ site.front ++ a ++ c) = _
    simp only [extent_append]
    omega
  refine ⟨t.get site.scratch, hplace ▸ P.word, a, c, x, k + i, j, t, H, hcode, ?_, ⟨_, _, _, _, hc⟩,
    ?_, ?_, ?_, rfl, ?_, ?_⟩
  · refine ⟨l, fr, n₀, n₂, ?_⟩
    show Emits l fr (.arguments (site.arguments.take es.length) site.scratch) n₀ a n₂
    rw [hargs, List.take_left]
    exact ha
  · rw [← P.count]
    omega
  · rw [run_add hr, P.before.run]
  · rw [hoffset]
    exact P.position
  · rw [P.stack]
    congr 1
    omega
  · rcases P.after with ⟨u, H', hs, hlevel⟩
    refine ⟨u, H', hs, ?_⟩
    have hlen := congrArg extent hfirst
    have hpush : (Code.push site.scratch).size = 2 := rfl
    simp only [extent_append, extent_cons, hpush] at hlen
    have hend : b.start + extent (site.front ++ a ++ c) + 2 + extent (x ++ []) =
        extent (front ++ first) := by
      simp only [extent_append, extent_nil]
      omega
    rw [hend, hpo] at hlevel
    rw [hoffset]
    exact hlevel.mono fun _ _ => trivial

/-- The call of `main` at the start of a program. -/
def mainSite (after : Code) : CallSite .main [] after where
  arguments := []
  out := none
  front := []
  code := []
  back := after
  emits := ⟨none, ⟨[], [], 0⟩, 0, 0, .noArguments⟩
  length := rfl
  plain _ hq := by cases hq
  before_eq := rfl
  after_eq := rfl

/-- A call has entered a body, and its arguments lie above the return address, each as it was pushed. -/
structure CallSite.Enters (I : Image) (p : Signature → Prop) (site : CallSite g before after)
    (m : Machine) (h : σ) (t : Nat) (m₁ : Machine) (h₁ : σ) (m₂ : Machine) (b : Body) (base : Int) :
    Prop where
  activates : Activates I p m₁ m₂ g b base (extent before + 5)
  arguments : ∀ (i : Nat) d, site.arguments[i]? = some d → ∃ w,
    m₂.memory.word? (base + 4 * (g.arity - i)) = some w ∧
    site.Pushes m h t m₁ h₁ i d w (Word.ofInt (base + 4 + 4 * (g.arity - i)))

theorem Intact.fetches_call (hI : I.CompleteFor p E) (hi : Intact I p m)
    (hcode : I.code = before ++ Code.call (.function g) :: after) (hat : m.At (extent before)) :
    ∃ j, m.Fetches j ∧ j.opcode = .call := by
  have hp := hI.placed
  rw [hcode] at hp
  have hp := hp.right
  rw [Nat.zero_add] at hp
  rcases exists_fetches hi.loaded hat hp with ⟨j, hj, hf⟩
  exact ⟨j, hf, Instruction.opcode_of_traverse hj⟩

/-- The call at the start of a program is that of `main`, without arguments. -/
theorem Intact.enters_main (hI : I.CompleteFor p E) (hE : E m₂) (hi : Intact I p m) (ha : m.At 0)
    (htop : m.get .stack = m.programOffset)
    (hcode : I.code = before ++ Code.call (.function g) :: after) (hat : m.At (extent before))
    (hs : m.step h₁ = (m₂, h₂, .running)) (m' : Machine) (h' : σ) (t : Nat) :
    ∃ (site : CallSite g before after) (b : Body) (base : Int),
      site.Enters I p m' h' t m h₁ m₂ b base := by
  rcases hI.code with ⟨middle, hmiddle⟩
  have hle : extent before ≤ I.program.length := by
    rw [hI.length, hcode, extent_append]
    omega
  have hzero := eq_of_at hi.loaded hat ha hle (Nat.zero_le _)
  have hsplit : before ++ Code.call (.function g) :: after =
      [] ++ Code.call (.function .main) :: (Code.jmp .programEnd :: (middle ++
        [Code.label .programEnd])) := by rw [← hcode, hmiddle]; rfl
  rcases split_unique hsplit hzero with ⟨rfl, hcall, _⟩
  rcases eq_of_call_eq (congrArg Line.instruction hcall) with rfl
  rcases enters_of_start hI hE hi ha htop hs with ⟨b, he⟩
  refine ⟨mainSite after, b, _, he, fun i d hd => ?_⟩
  cases hd

/-- A call in the code of a function finds its arguments where the function has pushed them. -/
theorem Traced.enters {f : σ} {s : Shape} (hI : I.CompleteFor p E) (hE : E m₂)
    (T : Traced E I p b base e f n m₁ h₁ s o rest)
    (hcode : I.code = before ++ Code.call (.function g) :: after) (hat : m₁.At (extent before))
    (hs : m₁.step h₁ = (m₂, h₂, .running)) (hr : run k m h = (e, f, .running)) :
    ∃ (site : CallSite g before after) (b' : Body) (base' : Int),
      site.Enters I p m h (k + n) m₁ h₁ m₂ b' base' := by
  rcases T.intact.fetches_call hI hcode hat with ⟨j, hf, hj⟩
  rcases T.calls hI hf hj hs hE with ⟨g', ls, s, b', T, _, _, he⟩
  rcases T.exists_split hI hcode hat with ⟨hg, front, first, back, hlines, rfl, rfl, hstart, rfl⟩
  rcases eq_of_call_eq (congrArg Line.instruction hg) with rfl
  rcases (T.active.sound.arranged first _ ls hlines).call g rfl with ⟨site⟩
  refine ⟨site.widen front back, b', _, he, fun i d hd => ?_⟩
  rcases exists_append_of_getElem? hd with ⟨es, es', hargs, rfl⟩
  rcases T.argument back site hlines hstart hargs hr (programOffset_of_run hr) with
    ⟨w, hword, hpushes⟩
  have harity : es.length + (es'.length + 1) = g.arity := by
    rw [← site.length, ← List.length_cons (a := d), ← List.length_append]
    exact (congrArg List.length hargs).symm
  have hy : base - 4 * s.words.length - 4 + 4 * ((g.arity : Int) - es.length) =
      base - 4 * s.words.length + 4 * es'.length := by omega
  have hy' : base - 4 * s.words.length - 4 + 4 + 4 * ((g.arity : Int) - es.length) =
      base - 4 * s.words.length + 4 * es'.length + 4 := by omega
  refine ⟨w, ?_, ?_⟩
  · rw [hy, he.agree.word? (by omega)]
    exact hword
  · rw [hy']
    exact hpushes

theorem exists_site (hI : I.CompleteFor p E) (hi : Intact I p m) (ha : m.At 0)
    (htop : m.get .stack = m.programOffset) (hr : run t m h = (m₁, h₁, .running))
    (hE : ∀ s ≤ t + 1, E (run s m h).1)
    (hcode : I.code = before ++ Code.call (.function g) :: after) (hat : m₁.At (extent before))
    (hs : m₁.step h₁ = (m₂, h₂, .running)) :
    ∃ (site : CallSite g before after) (b : Body) (base : Int),
      site.Enters I p m h t m₁ h₁ m₂ b base := by
  have hE₂ := hE (t + 1) (Nat.le_refl _)
  rw [run_add hr, run_one hs] at hE₂
  rcases exists_begun_of_run (fun k m₁ h₁ i l hf => opcode_ne_ret_of_start_level hI l hi ha htop hf)
    (fun s hle => hE s (Nat.le_succ_of_le hle)) hr with ⟨a, k, e, f, rfl, B, l⟩
  rcases start_or_entered hI hi ha htop B with ⟨rfl, rfl, rfl⟩ | ⟨b, base, hi', hA⟩
  · rcases start_level hI l hi ha htop with ⟨hi₁, _⟩
    rcases hi₁.fetches_call hI hcode hat with ⟨j, hf, hj⟩
    rcases eq_start_of_call hI l hi ha htop hf hj with rfl
    exact hi.enters_main hI hE₂ ha htop hcode hat hs _ _ _
  · rcases exists_traced hI l hi' hA with ⟨s, o, rest, T⟩
    exact T.enters hI hE₂ hcode hat hs B.run

/-! ### Agreement -/

/-- If the machine has just entered one of these functions, its local variables have room. -/
def Roomy (code : Code) (fs : List Function) (m : Machine) : Prop :=
  ∀ f ∈ fs, ∀ o, StandsAt code f o → m.At o → HasRoom m f.locals.length

/-- A memory that leaves room for the local variables of each function does so all along a run. -/
theorem roomy_of_run {code : Code} {fs : List Function} (hr : run t m h = (m₁, h₁, .running))
    (hsmall : ∀ f ∈ fs, m.memory.size + 4 * f.locals.length < 4294967296) :
    ∀ s ≤ t, Roomy code fs (run s m h).1 := by
  intro s hs f hf o _ _
  obtain ⟨k, rfl⟩ := Nat.exists_eq_add_of_le hs
  rcases exists_run_of_add hr with ⟨m', h', hr', _⟩
  rw [hr']
  exact .inr ((size_of_run hr').symm ▸ hsmall f hf)

/-- In a machine that has just reserved the local variables of a function, each parameter has the value
that was pushed for it, the last one of its name, and the return address lies above the local
variables. -/
structure FrameFound (f : Function) (site : CallSite f.signature before after) (m : Machine) (h : σ)
    (t : Nat) (m₁ : Machine) (h₁ : σ) (top : Word) (m₃ : Machine) : Prop where
  parameters : ∀ x ∈ f.parameters, ∃ (k i : Nat) (d : Expr) (w : Word),
    (entryFrame f).offset? x = some k ∧
    f.parameters[i]? = some x ∧ (∀ j : Nat, f.parameters[j]? = some x → j ≤ i) ∧
    site.arguments[i]? = some d ∧
    site.Pushes m h t m₁ h₁ i d w (top - UInt32.ofNat (4 * i)) ∧
    m₃.memory.read (m₃.get .stack + UInt32.ofNat (4 * k)) 4 = w
  back : m₃.memory.read (m₃.get .stack + UInt32.ofNat (4 * f.locals.length)) 4 =
    m₁.absolute (UInt32.ofNat (extent before + 5))

/-- A call that led from m₁ to m₂ agrees with the frame of its function. The stack ended at an address
before the first argument was pushed, and it ends there again after the return and the cleanup. -/
structure FrameAgrees (code : Code) (fs : List Function) (f : Function)
    (site : CallSite f.signature before after) (m : Machine) (h : σ) (t : Nat) (m₁ : Machine) (h₁ : σ)
    (m₂ : Machine) (h₂ : σ) (top : Word) : Prop where
  pushed : ∀ (i : Nat) d, site.arguments[i]? = some d →
    ∃ w, site.Pushes m h t m₁ h₁ i d w (top - UInt32.ofNat (4 * i))
  stack : m₁.get .stack = top - UInt32.ofNat (4 * f.parameters.length)
  entered : ∃ o m₃, StandsAt code f o ∧ m₂.At o ∧ Runs 0 m₂ h₂ m₃ [frameSize, .stack] o
    (o + extent (Code.reserve frameSize f.locals.length)) ∧ FrameFound f site m h t m₁ h₁ top m₃
  placed : ∀ n x, x ∈ f.locals ∨ x ∈ f.parameters →
    (((entryFrame f).push n).place? (.name x)).isSome
  apart : ∀ n s s' k, ((entryFrame f).push n).place? s = some k →
    ((entryFrame f).push n).place? s' = some k → s = s'
  returned : ∀ k m₄ (h₄ : σ) j m₅ h₅, Level (Roomy code fs) Anywhere k m₂ h₂ m₄ h₄ →
    m₄.Fetches j → j.opcode = .ret → m₄.step h₄ = (m₅, h₅, .running) → m₅.At (extent before + 5) ∧
    ∃ m₆, Runs 0 m₅ h₅ m₆ (site.out.toList ++ [.result, .stack]) (extent before + 5)
      (extent before + 5 + extent site.cleanup) ∧ m₆.get .stack = top

theorem Activates.stack_eq {b' : Body} (he : Activates I p m m' g b' base o) :
    m'.get .stack = Word.ofInt base := by
  rcases he.active with ⟨rest, hA⟩
  rw [hA.stack]
  congr 1
  exact Int.sub_zero _

theorem Activates.slot_eq {b' : Body} (he : Activates I p m₁ m₂ g b' base o) {locals : Nat}
    (hstack : m'.get .stack = m₂.get .stack - UInt32.ofNat (4 * locals)) (k : Nat) :
    m'.get .stack + UInt32.ofNat (4 * k) = Word.ofInt (base + 4 * (k - locals)) := by
  rw [hstack, he.stack_eq, ← Word.ofInt_natCast, ← Word.ofInt_natCast, ← Word.ofInt_sub,
    ← Word.ofInt_add]
  congr 1
  omega

theorem ofInt_sub_words (x : Int) (n i : Nat) :
    Word.ofInt (x + 4 * n) - UInt32.ofNat (4 * i) = Word.ofInt (x + 4 * (n - i)) := by
  rw [← Word.ofInt_natCast, ← Word.ofInt_sub]
  congr 1
  omega

theorem CallSite.Enters.found {f : Function} {site : CallSite f.signature before after} {m₃ : Machine}
    (he : site.Enters I p m h t m₁ h₁ m₂ b base) (hmem : m₃.memory = m₂.memory)
    (hstack : m₃.get .stack = m₂.get .stack - UInt32.ofNat (4 * f.locals.length)) :
    FrameFound f site m h t m₁ h₁ (Word.ofInt (base + 4 + 4 * f.parameters.length)) m₃ where
  parameters x hx := by
    rcases exists_place_of_parameter hx with ⟨i, hi, hlast, hk⟩
    rcases List.getElem?_eq_some_iff.1 hi with ⟨hlt, _⟩
    have hlen : site.arguments.length = f.parameters.length := site.length
    have hd := List.getElem?_eq_getElem (l := site.arguments) (i := i) (by omega)
    rcases he.arguments i _ hd with ⟨w, hword, hpushes⟩
    rw [← ofInt_sub_words] at hpushes
    refine ⟨_, i, _, w, hk, hi, hlast, hd, hpushes, ?_⟩
    have hplace : base + 4 * (((f.locals.length + (f.parameters.length - i) : Nat) : Int) -
        f.locals.length) = base + 4 * (f.parameters.length - i) := by omega
    rw [hmem, he.activates.slot_eq hstack, hplace]
    exact Memory.read_of_word? hword
  back := by
    rw [hmem, he.activates.slot_eq hstack, Int.sub_self, Int.mul_zero, Int.add_zero]
    exact Memory.read_of_word? he.activates.back

/-- The lines after a call take its arguments off the stack. -/
theorem CallSite.runs_cleanup (site : CallSite g before after) {labels : Labels}
    {program : List UInt8} (hl : m.Loaded program) (ha : m.At o)
    (hp : Placed labels program o (site.cleanup ++ rest)) (h : σ) :
    ∃ m', Runs 0 m h m' (site.out.toList ++ [.result, .stack]) o (o + extent site.cleanup) ∧
      m'.get .stack = m.get .stack + UInt32.ofNat (4 * g.arity) := by
  have hplain := site.plain
  unfold CallSite.cleanup at *
  generalize site.out = out at hplain hp ⊢
  cases out with
  | none => exact runs_release (by decide) (by decide) hl ha hp h
  | some q =>
    rcases hplain q rfl with ⟨hstack, hinstruction⟩
    rcases runs_mov hinstruction hl ha hp h with ⟨m₁, p₁, _, _⟩
    rcases runs_release (r := .result) (by decide) (by decide) (p₁.loaded_of_zero hl) p₁.position
      hp.tail h with ⟨m₂, p₂, hv⟩
    rw [p₁.others .stack (by simpa using hstack.symm) Register.stack_ne_instruction] at hv
    refine ⟨m₂, ?_, hv⟩
    have hmove : Runs 0 m h m₁ (q :: [.result, .stack]) o (o + 3) :=
      p₁.mono (Int.le_refl 0) (by simp)
    have hruns := hmove.trans (p₂.mono (Int.le_refl 0) (by simp))
    rw [Nat.add_assoc] at hruns
    exact hruns

theorem Activates.returns {b' : Body} {site : CallSite g before after} {m₃ m₄ : Machine}
    {h₃ h₄ : σ} (hI : I.CompleteFor p E) (he : Activates I p m₁ m₂ g b' base (extent before + 5))
    (hs : m₁.step h₁ = (m₂, h₂, .running))
    (hcode : I.code = before ++ Code.call (.function g) :: after)
    (l : Level E Anywhere k m₂ h₂ m₃ h₃) (hf : m₃.Fetches j) (ht : j.opcode = .ret)
    (hs' : m₃.step h₃ = (m₄, h₄, .running)) : m₄.At (extent before + 5) ∧
    ∃ m₅, Runs 0 m₄ h₄ m₅ (site.out.toList ++ [.result, .stack]) (extent before + 5)
      (extent before + 5 + extent site.cleanup) ∧
      m₅.get .stack = Word.ofInt (base + 4 + 4 * g.arity) := by
  rcases exists_traced hI l he.intact he.active with ⟨s, o, rest, T⟩
  rcases T.returns hf ht hs' he.back with ⟨hi, _, hstart, hstack, hpos⟩
  have hat : m₄.At (extent before + 5) := by
    rw [At, hpos, absolute, absolute, hstart, programOffset_of_running hs]
  have hp := hI.placed
  rw [hcode] at hp
  have hp := hp.right.tail
  rw [Nat.zero_add] at hp
  have hp' : Placed I.labels I.program (extent before + 5) (site.cleanup ++ site.back) :=
    Eq.mp (congrArg (Placed I.labels I.program (extent before + 5)) site.after_eq) hp
  rcases site.runs_cleanup hi.loaded hat hp' h₄ with ⟨m₅, p₅, hv⟩
  refine ⟨hat, m₅, p₅, ?_⟩
  rw [hv, hstack, ← Word.ofInt_natCast, ← Word.ofInt_add]
  congr 1

/-- A function that has been entered stands at the start of its code, and reserves its local
variables. -/
theorem Linked.enters {fs : List Function} {codes : List Code} {labels : Labels}
    {program : List UInt8} (hl : Linked fs codes labels program) {size : Nat} {f : Function}
    (hf : f ∈ fs) {b' : Body} (he : Activates (Image.ofCodes codes labels program size) p m₁ m₂
      f.signature b' base o) (h : σ) : ∃ o m₃,
    StandsAt (Image.ofCodes codes labels program size).code f o ∧ m₂.At o ∧
      Runs 0 m₂ h m₃ [frameSize, .stack] o (o + extent (Code.reserve frameSize f.locals.length)) ∧
      m₃.get .stack = m₂.get .stack - UInt32.ofNat (4 * f.locals.length) := by
  rcases hl.own hf with ⟨lines, hmem, n, n₁, hfun⟩
  rcases hl.section hmem with ⟨front, back, hsplit, hp⟩
  have hentry := (CodeOf.own hf hfun).entry hp
  have hget := he.entry
  rw [show (Image.ofCodes codes labels program size).labels = labels from rfl, hentry] at hget
  have hat : m₂.At (extent front) := by
    rcases he.active with ⟨_, hA⟩
    rw [At, Option.some.inj hget]
    exact hA.pointer
  rcases emitsFunction_of_function hfun with ⟨body, _, rfl⟩
  have hreserve : Placed labels program (extent front) (Code.reserve frameSize f.locals.length ++
      (body ++ (Code.release frameSize f.locals.length ++ [Code.ret]))) := by
    simp only [List.append_assoc] at hp
    exact hp.2
  rcases runs_reserve (by decide) (by decide) he.intact.loaded hat hreserve h with ⟨m₃, p₃, hv⟩
  exact ⟨_, m₃, ⟨front, _, back, n, n₁, hsplit, hfun, rfl⟩, hat, p₃, hv⟩

/-- In every run of a compiled program whose assignments go to variables alone, every call of a function
of the program that enters it agrees with the frame of the function, wherever the call is made and
whatever its arguments are and call themselves. It is enough that the memory leaves room for the local
variables of each function (`roomy_of_run`), or that all functions that were entered found room for them:
a stack that has come round to the program from below is not noticed. -/
theorem frame_agrees {text : String} {fs : List Function} {code : Code} {program : List UInt8}
    {m₀ : Machine} {f : Function} (hp : parse text = .ok fs) (hc : compile text = .ok code)
    (ha : assemble (render code) = .ok program)
    (hdirect : ∀ f ∈ fs, Direct (Stmt.allTargets f.body)) (hm : m₀.install program = .ok m)
    (hroom : ∀ s ≤ t + 1, Roomy code fs (run s m h).1) (hf : f ∈ fs)
    (hr : run t m h = (m₁, h₁, .running))
    (hcode : code = before ++ Code.call (.function f.signature) :: after)
    (hat : m₁.At (extent before)) (hs : m₁.step h₁ = (m₂, h₂, .running)) :
    ∃ (site : CallSite f.signature before after) (top : Word),
      FrameAgrees code fs f site m h t m₁ h₁ m₂ h₂ top := by
  rcases linked_of_compile hp hc ha with ⟨codes, labels, hlinked, hall⟩
  have hall : (Image.ofCodes codes labels program m₀.memory.size).code = code := hall.symm
  have hI : (Image.ofCodes codes labels program m₀.memory.size).CompleteFor (· ∈ defined fs)
      (Roomy code fs) :=
    hlinked.completeFor hdirect fun f hf o hstands m hroomy _ hat => hroomy f hf o (hall ▸ hstands) hat
  have hinst := Installed.of_install hm
  have hi : Intact (Image.ofCodes codes labels program m₀.memory.size) (· ∈ defined fs) m :=
    intact_of_installed rfl hinst
  have hsplit : (Image.ofCodes codes labels program m₀.memory.size).code =
      before ++ Code.call (.function f.signature) :: after := by rw [hall, hcode]
  rcases exists_site hI hi hinst.position hinst.stack hr hroom hsplit hat hs with ⟨site, b, base, he⟩
  rcases hlinked.enters hf he.activates h₂ with ⟨o, m₃, hstands, hat₂, p₃, hstack⟩
  refine ⟨site, Word.ofInt (base + 4 + 4 * f.parameters.length), ?_, ?_, ?_, ?_, ?_, ?_⟩
  · intro i d hd
    rcases he.arguments i d hd with ⟨w, _, hpushes⟩
    rw [ofInt_sub_words]
    exact ⟨w, hpushes⟩
  · rw [ofInt_sub_words, he.activates.stack]
    congr 1
    omega
  · exact ⟨o, m₃, hall ▸ hstands, hat₂, p₃, he.found p₃.memory hstack⟩
  · exact fun n x hx => Frame.isSome_offset?_iff.2 hx
  · exact fun n s s' k hk hk' => Frame.place?_inj hk hk'
  · exact fun k m₄ h₄ j m₅ h₅ l hf ht hs' => he.activates.returns hI hs hsplit l hf ht hs'

/-- A call with an argument that is a call itself, of a function with two parameters of one name. -/
theorem frame_agrees_same_name : ∃ fs code program m f before after m₁ m₂,
    parse "DEF f(a, a) x; END; DEF main() f(f(7, 8), 9); END;" = .ok fs ∧
    compile "DEF f(a, a) x; END; DEF main() f(f(7, 8), 9); END;" = .ok code ∧
    assemble (render code) = .ok program ∧ (Machine.empty 200).install program = .ok m ∧ f ∈ fs ∧
    f.parameters = ["a", "a"] ∧ code = before ++ Code.call (.function f.signature) :: after ∧
    ∃ (h h₁ h₂ : WordQueue) (site : CallSite f.signature before after) (top : Word),
      FrameAgrees code fs f site m h 17 m₁ h₁ m₂ h₂ top := by
  have hruns : installs 200 "DEF f(a, a) x; END; DEF main() f(f(7, 8), 9); END;" (fun fs m =>
      (compile "DEF f(a, a) x; END; DEF main() f(f(7, 8), 9); END;").toOption.any fun code =>
        decide ((∀ f ∈ fs, Direct (Stmt.allTargets f.body) ∧
          200 + 4 * f.locals.length < 4294967296) ∧
        (∃ f ∈ fs, f.parameters = ["a", "a"] ∧
          code[31]?.any (· = Code.call (.function f.signature)) = true) ∧
        (run 17 m (WordQueue.ofWords [])).1.get .instruction =
          (run 17 m (WordQueue.ofWords [])).1.absolute (UInt32.ofNat (extent (code.take 31))) ∧
        (run 18 m (WordQueue.ofWords [])).2.2 = .running)) = true := by decide +kernel
  rcases installed_of_installs hruns with ⟨fs, code, program, m, hp, hc, ha, hm, htest⟩
  rcases exists_of_any htest with ⟨_, hc', htest⟩
  cases hc.symm.trans hc'
  rcases of_decide_eq_true htest with ⟨hsmall, ⟨f, hf, hparams, hline⟩, hat, hrun⟩
  rcases (Option.any_eq_true _ _).1 hline with ⟨_, hline, hcall⟩
  rw [of_decide_eq_true hcall] at hline
  rcases exists_append_of_getElem? hline with ⟨before, after, hcode, hlen⟩
  rw [hcode, ← hlen, List.take_left] at hat
  have hr : run (17 + 1) m (WordQueue.ofWords []) = ((run 18 m (WordQueue.ofWords [])).1,
      (run 18 m (WordQueue.ofWords [])).2.1, .running) := by rw [← hrun]
  rcases exists_run_of_add hr with ⟨m₁, h₁, hr₁, hlast⟩
  rw [hr₁] at hat
  have hsize : m.memory.size = 200 :=
    (Installed.of_install hm).size_eq.trans (Memory.size_zeros 200)
  have hroom : ∀ s ≤ 17 + 1, Roomy code fs (run s m (WordQueue.ofWords [])).1 :=
    roomy_of_run hr fun f hf => hsize ▸ (hsmall f hf).2
  rcases frame_agrees hp hc ha (fun f hf => (hsmall f hf).1) hm hroom hf hr₁ hcode hat
    (step_of_run_one hlast) with ⟨site, top, hagrees⟩
  exact ⟨fs, code, program, m, f, before, after, _, _, hp, hc, ha, hm, hf, hparams, hcode, _, _, _,
    site, top, hagrees⟩

/-- A program with 7159 local variables in a function that calls itself 149942 times. -/
def deepest : List Function := descent (numberedNames 7159) 149942

/-- In nearly 2^32 bytes of memory the frames of these calls come round to the argument 65, which `main` has
pushed for the first parameter of `f`. When `f` is entered, its frame has 66 in that place. -/
theorem frame_disagrees_from_above : parse (Source.render deepest) = .ok deepest ∧
    (∀ f ∈ deepest, Direct (Stmt.allTargets f.body)) ∧ ∃ code program m f front middle after,
    compile (Source.render deepest) = .ok code ∧ assemble (render code) = .ok program ∧
    (Machine.empty 4294939000).install program = .ok m ∧ f ∈ deepest ∧ f.parameters = ["a", "b"] ∧
    f.locals = [] ∧ (entryFrame f).offset? "a" = some 2 ∧
    code = front ++ Code.push ⟨1⟩ :: (middle ++ Code.call (.function f.signature) :: after) ∧
    ∃ (h : WordQueue) (s k : Nat) (m₁ m₂ m₃ : Machine),
      run s m h = (m₁, h, .running) ∧ m₁.At (extent front) ∧ m₁.get ⟨1⟩ = 65 ∧
      run k m₁ h = (m₂, h, .running) ∧ m₂.At (extent (front ++ Code.push ⟨1⟩ :: middle)) ∧
      m₂.step h = (m₃, h, .running) ∧ m₃.get .stack = m₁.get .stack - 12 ∧
      m₃.memory.read (m₃.get .stack + UInt32.ofNat (4 * 2)) 4 = 66 := by
  have hx : ∀ x ∈ numberedNames 7159, isIdentifier x = true :=
    fun x => isIdentifier_of_mem_numberedNames
  have hn := nodup_numberedNames 7159
  have hlen := length_numberedNames 7159
  obtain ⟨program, labels, ha, hplaced, hlength⟩ :=
    assemble_descent 149942 hx hn (by omega) (by omega)
  have hempty : (Machine.empty 4294939000).memory.size = 4294939000 := Memory.size_zeros _
  have hm : (Machine.empty 4294939000).install program =
      .ok ((Machine.empty 4294939000).boot program) :=
    install_eq_ok_iff.2 ⟨by omega, rfl⟩
  have hinst := Installed.of_install hm
  rw [hempty] at hinst
  rw [hlen] at ha hplaced
  obtain ⟨s, k, m₁, m₂, m₃, hr₁, ha₁, hv₁, hr₂, ha₂, hstep, hstack, hread⟩ := argument_overwritten
    (by decide) hplaced hlength hinst (by decide) (by decide) (WordQueue.ofWords [])
  have hfront : extent (untilFirst 7159) = 171 := extent_untilFirst (by decide)
  have hcode := descentCode_split 7159 149942
  have hcompile := compile_descent 149942 hx hn
  rw [hlen] at hcompile
  refine ⟨parse_descent 149942 hx, direct_descent _ _, _, program, _, printer, untilFirst 7159,
    secondArgument 149942, _, hcompile, ha, hm, List.mem_cons_self, rfl, rfl, rfl, hcode, _, s, k, m₁, m₂, m₃,
    hr₁, hfront ▸ ha₁, hv₁, hr₂, ?_, hstep, hstack, hread⟩
  rw [extent_append, hfront]
  exact ha₂

end WordMachine.Compiler
