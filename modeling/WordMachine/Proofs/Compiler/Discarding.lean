import WordMachine.Proofs.Compiler.Correctness
import WordMachine.Proofs.Compiler.Invoking
import WordMachine.Proofs.Compiler.Jumps

/-!
# Code with and without a value

The code of an expression follows the evaluation of the expression, whether it leaves the value in a
register or not. So what was shown of expressions holds of their code: compiled for its effects alone, an
expression makes the calls that it makes when it is compiled into a register, and what stops it in a call
or in the arguments of one is the same in both cases.
-/

namespace WordMachine

namespace Machine

open Assembly Compiler Source

/-! ### What code does -/

section

variable {σ : Type} [Host σ] (c : Callees σ) (s : Stretch) (place : String → Option Word) (floor : Int)

/-- From wherever the code stands in the stretch it follows an evaluation. -/
def Traces {α : Type} (f : Frame) (code : Code) (run : Int → Evaluation σ α)
    (goal : Int → Machine → Nat → Machine → α → World σ → Prop) : Prop :=
  ∀ x m w o, Stands s place floor f x w m → m.At o → s.Has o code →
    Attains s m w (goal x m (o + extent code)) (run x w)

/-- The code leaves the value of an evaluation in a register. -/
def Gives (f : Frame) (r : Register) (code : Code) (run : Int → Evaluation σ Word) : Prop :=
  Traces s place floor f code run fun x m o m' v w => Rests s place floor f x m o m' w ∧ m'.get r = v

def Acts (f : Frame) (code : Code) (run : Int → Evaluation σ Unit) : Prop :=
  Traces s place floor f code run fun x m o m' _ w => Rests s place floor f x m o m' w

/-- The code leaves as many values of an evaluation on the stack. -/
def Piles (f : Frame) (n : Nat) (code : Code) (run : Int → Evaluation σ (List Word)) : Prop :=
  Traces s place floor f code run fun x m o m' ws w => Piled s place floor f x m o ws m' w ∧ ws.length = n

end

section

variable {σ : Type} [Host σ] {c : Callees σ} {s : Stretch} {place : String → Option Word} {floor x : Int}
  {f : Frame} {w : World σ} {m : Machine} {o k n : Nat} {code first second : Code} {r : Register}
  {name callee : String} {e left right : Expr} {es : List Expr} {run : Int → Evaluation σ Word}

theorem acts_nothing (f : Frame) : Acts s place floor f [] fun _ => (pure () : Evaluation σ Unit) := by
  intro x m w o hS ha hc
  exact attains_pure (hS.rests ha)

theorem gives_int (hr : r.General) (v : Word) :
    Gives s place floor f r [Code.set r v.toNat] (c.value place floor (.int v)) := by
  intro x m w o hS ha hc
  obtain ⟨m₁, p, hv, _⟩ := runs_set hr.ne_instruction hS.loaded ha hc.placed w.host
  rw [Callees.value]
  exact attains_runs hS hc p (by simpa using hr) (hv.trans UInt32.ofNat_toNat)

theorem gives_place (hr : r.General) (hk : f.offset? name = some k) :
    Gives s place floor f r (addressAt k r) fun _ => Evaluation.operate (σ := σ) (located (place name)) := by
  intro x m w o hS ha hc
  have hp := hc.placed
  rw [← List.append_nil (addressAt k r)] at hp
  obtain ⟨m₁, p, hv⟩ := runs_addressAt hr hS.loaded ha hp w.host
  rw [hS.slot_eq hk]
  exact attains_runs hS hc p (by simpa using hr) hv

theorem Gives.andThen {k : Word → Evaluation σ Word} (h : Gives s place floor f r first run)
    (hk : ∀ x m w o, Stands s place floor f x w m → m.At o → s.Has o second →
      Attains s m w (fun m' v w' => Rests s place floor f x m (o + extent second) m' w' ∧ m'.get r = v)
        (k (m.get r) w)) : Gives s place floor f r (first ++ second) fun x => run x >>= k := by
  intro x m w o hS ha hc
  refine (h x m w o hS ha hc.left).bind fun m₁ v w₁ hv => ?_
  obtain ⟨hR, rfl⟩ := hv
  refine (hk x m₁ w₁ _ hR.stands hR.position hc.right).imp fun m₂ v₂ w₂ hv₂ => ?_
  refine ⟨(hR.trans hv₂.1).of_eq ?_, hv₂.2⟩
  rw [extent_append, Nat.add_assoc]

theorem gives_load (hr : r.General) (h : Gives s place floor f r code run) :
    Gives s place floor f r (code ++ [Code.load r r]) fun x => run x >>= Evaluation.load floor :=
  h.andThen fun _ _ _ _ hS ha hc => attains_load hS hr ha hc

theorem gives_name (hr : r.General) (hk : f.offset? name = some k) :
    Gives s place floor f r (valueAt k r) (c.value place floor (.name name)) := by
  intro x m w o hS ha hc
  rw [Callees.value]
  by_cases hz : k = 0
  · have hslot : m.slot k = m.get .stack := by
      rw [slot, hz]
      simp
    rw [valueAt, if_pos hz] at hc ⊢
    rw [hS.slot_eq hk, hslot]
    exact attains_load hS hr ha hc
  · rw [valueAt, if_neg hz] at hc ⊢
    exact gives_load hr (gives_place hr hk) x m w o hS ha hc

theorem gives_converted {line : Register → Assembly.Line} {g : Word → Word} (hg : Converts line g)
    (hr : r.General) (h : Gives s place floor f r code run) :
    Gives s place floor f r (code ++ [line r]) fun x => run x >>= fun v => pure (g v) := by
  have hsize : extent [line r] = 2 := by cases hg <;> rfl
  refine h.andThen fun x m w o hS ha hc => ?_
  obtain ⟨m₁, p, hv⟩ := runs_convert hg hr.ne_instruction hS.loaded ha hc.placed w.host
  rw [← hsize] at p
  exact attains_runs hS hc p (by simpa using hr) hv

theorem gives_not {id : Nat} (hr : r.General) (h : Gives s place floor f r code run) :
    Gives s place floor f r (code ++ [Code.test r] ++ truthCode Code.jiz r id)
      fun x => run x >>= fun v => pure (truth (v = 0)) := by
  have hi := hr.ne_instruction
  have hsize : extent ([Code.test r] ++ truthCode Code.jiz r id) = 3 + 14 := by
    rw [extent_append, extent_truthCode .jiz]
    rfl
  rw [List.append_assoc]
  refine h.andThen fun x m w o hS ha hc => ?_
  have hp := hc.placed
  rw [← List.append_nil (truthCode Code.jiz r id)] at hp
  obtain ⟨m₁, p₁, hv₁, hf₁⟩ := runs_combine .and hi hS.loaded ha hp w.host
  obtain ⟨m₂, p₂, hv₂⟩ := runs_truth .jiz hi (p₁.loaded_of_zero hS.loaded) p₁.position hp.tail w.host
  have p := p₁.trans p₂
  have htruth : m₁.flags.zero = true ↔ m.get r = 0 := by
    rw [hf₁.1, hv₁, UInt32.and_self, decide_eq_true_iff]
  rw [Nat.add_assoc o 3 14, ← hsize] at p
  exact attains_runs hS hc p (by simpa using hr) (hv₂.trans (truth_congr htruth))

theorem attains_combination (op : BinaryOp) {id : Nat} (hS : Stands s place floor f x w m) (hr : r.General)
    (ha : m.At o) (hc : s.Has o (combination op r r.adjacent id)) :
    Attains s m w (fun m' v w' => Rests s place floor f x m
      (o + extent (combination op r r.adjacent id)) m' w' ∧ m'.get r = v)
      (Evaluation.operate (quotient (op.apply (m.get r) (m.get r.adjacent))) w) := by
  have hp := hc.placed
  rw [← List.append_nil (combination op r r.adjacent id)] at hp
  cases hv : op.apply (m.get r) (m.get r.adjacent) with
  | none => exact attains_fault hS hc (faults_combination hS.loaded ha hp hv w.host) trivial
  | some v =>
    have hra := r.general_adjacent
    obtain ⟨m₁, p, hv₁⟩ := runs_combination hr hS.loaded ha hp hv w.host
    exact attains_runs hS hc p (by simp [hr, hra]) hv₁

theorem gives_binary {op : BinaryOp} {id : Nat} (hr : r.General)
    (h₂ : Gives s place floor f r second (c.value place floor right))
    (h₁ : Gives s place floor (f.push 1) r first (c.value place floor left)) :
    Gives s place floor f r
      (second ++ [Code.push r] ++ first ++ [Code.pop r.adjacent] ++ combination op r r.adjacent id)
      (c.value place floor (.binary op left right)) := by
  intro x m w o hS ha hc
  have hra := r.general_adjacent
  simp only [List.append_assoc] at hc ⊢
  rw [Callees.value]
  refine (h₂ x m w o hS ha hc.left).bind fun m₁ b w₁ hb => ?_
  obtain ⟨hR₁, rfl⟩ := hb
  refine (attains_push hR₁.stands hR₁.position hc.right.left).bind fun m₂ u w₂ hP₂ => ?_
  refine (h₁ (x - 4) m₂ w₂ _ hP₂.stands hP₂.position hc.right.right.left).bind fun m₃ a w₃ ha₃ => ?_
  obtain ⟨hR₃, rfl⟩ := ha₃
  have hP₃ := hP₂.rest hR₃
  have hpop := hc.right.right.right.left
  obtain ⟨m₄, p₄, hv₄, hR₄⟩ := hP₃.popped (h := w₃.host) hra hpop
  -- the left operand is still in the register when the right one is popped beside it
  have hv := p₄.others r (by simp [hr.ne_stack, hr.adjacent_ne.symm]) hr.ne_instruction
  have hcomb := attains_combination op hR₄.stands hr hR₄.position hc.right.right.right.right
  rw [hv₄, hv] at hcomb
  refine (hcomb.imp fun m₅ v w₅ hg => ?_).after (hP₃.stands.course hpop p₄)
  refine ⟨((hR₁.trans hR₄).trans hg.1).of_eq ?_, hg.2⟩
  simp only [extent_append, extent_cons, extent_nil, size_push, size_pop]
  omega

theorem piles_nil (f : Frame) :
    Piles s place floor f 0 [] (c.arguments place floor []) := by
  intro x m w o hS ha hc
  rw [Callees.arguments]
  exact attains_pure ⟨(hS.rests ha).piled, rfl⟩

theorem piles_cons (h : Gives s place floor f r first (c.value place floor e))
    (hs : Piles s place floor (f.push 1) es.length second (c.arguments place floor es)) :
    Piles s place floor f (es.length + 1) (first ++ [Code.push r] ++ second)
      (c.arguments place floor (e :: es)) := by
  intro x m w o hS ha hc
  simp only [List.append_assoc] at hc ⊢
  rw [Callees.arguments]
  refine (h x m w o hS ha hc.left).bind fun m₁ v w₁ hv => ?_
  obtain ⟨hR₁, rfl⟩ := hv
  refine (attains_push hR₁.stands hR₁.position hc.right.left).bind fun m₂ u w₂ hP₂ => ?_
  refine (hs (x - 4) m₂ w₂ _ hP₂.stands hP₂.position hc.right.right).bind fun m₃ ws w₃ hws => ?_
  obtain ⟨hP₃, hlen⟩ := hws
  have hP : Piled s place floor f x m _ (m₁.get r :: ws) m₃ w₃ := hR₁.trans_piled (hP₂.append hP₃)
  have ho : o + extent (first ++ ([Code.push r] ++ second)) =
      o + extent first + extent [Code.push r] + extent second := by
    simp only [extent_append, Nat.add_assoc]
  rw [ho]
  exact attains_pure ⟨hP, by rw [List.length_cons, hlen]⟩

theorem attains_call (hD : c.Describes s.labels s.program floor) (out : Option Register)
    (hout : ∀ r, out = some r → r.General)
    (h : Piles s place floor f es.length code (c.arguments place floor es))
    (hS : Stands s place floor f x w m) (ha : m.At o)
    (hc : s.Has o (code ++ (Code.call (.function ⟨callee, es.length⟩) :: afterCall out es.length))) :
    Attains s m w (fun m' v w' => Rests s place floor f x m (o + extent
      (code ++ (Code.call (.function ⟨callee, es.length⟩) :: afterCall out es.length))) m' w' ∧
        ∀ r, out = some r → m'.get r = v)
      ((c.arguments place floor es x >>= fun ws =>
        c.invoke ⟨⟨callee, es.length⟩, ws⟩ (x - 4 * es.length)) w) := by
  refine (h x m w o hS ha hc.left).bind fun m₁ ws w₁ hws => ?_
  obtain ⟨hP, hlen⟩ := hws
  have hcall := hc.right
  rw [extent_append, extent_cons, size_call, ← hlen] at *
  rw [← Nat.add_assoc, ← Nat.add_assoc]
  exact hP.attains_invoke hD hout rfl hcall

theorem gives_call (hD : c.Describes s.labels s.program floor) (hr : r.General)
    (h : Piles s place floor f es.length code (c.arguments place floor es)) :
    Gives s place floor f r
      (code ++ [Code.call (.function ⟨callee, es.length⟩)] ++ [Code.mov r .result] ++
        Code.release .result es.length) (c.value place floor (.call callee es)) := by
  intro x m w o hS ha hc
  simp only [List.append_assoc] at hc ⊢
  rw [Callees.value]
  have hout : ∀ q, some r = some q → q.General := by
    intro q hq
    cases hq
    exact hr
  exact ((attains_call hD _ hout h hS ha hc).imp fun m' v w' hg => ⟨hg.1, hg.2 r rfl⟩).duringCall

theorem acts_call (hD : c.Describes s.labels s.program floor)
    (h : Piles s place floor f es.length code (c.arguments place floor es)) :
    Acts s place floor f
      (code ++ [Code.call (.function ⟨callee, es.length⟩)] ++ Code.release .result es.length)
      (c.effects place floor (.call callee es)) := by
  intro x m w o hS ha hc
  simp only [List.append_assoc] at hc ⊢
  have hout : ∀ q, (none : Option Register) = some q → q.General := by
    intro q hq
    cases hq
  have hcall : Attains s m w (fun m' _ w' => Rests s place floor f x m
      (o + extent (code ++ ([Code.call (.function ⟨callee, es.length⟩)] ++ Code.release .result es.length)))
      m' w')
      (((c.arguments place floor es x >>= fun ws =>
        c.invoke ⟨⟨callee, es.length⟩, ws⟩ (x - 4 * es.length)) >>= fun _ => (pure () : Evaluation σ Unit)) w) :=
    (attains_call hD none hout h hS ha hc).bind fun m₁ v w₁ hg => attains_pure hg.1
  rw [Evaluation.bind_assoc] at hcall
  rw [Callees.effects]
  exact hcall.duringCall

theorem acts_binary {op : BinaryOp} (h₂ : Acts s place floor f second (c.effects place floor right))
    (h₁ : Acts s place floor f first (c.effects place floor left)) :
    Acts s place floor f (second ++ first) (c.effects place floor (.binary op left right)) := by
  intro x m w o hS ha hc
  rw [Callees.effects]
  refine (h₂ x m w o hS ha hc.left).bind fun m₁ u w₁ hR₁ => ?_
  refine (h₁ x m₁ w₁ _ hR₁.stands hR₁.position hc.right).imp fun m₂ u₂ w₂ hR₂ => ?_
  refine (hR₁.trans hR₂).of_eq ?_
  rw [extent_append, Nat.add_assoc]

end

/-! ### All expressions -/

def Traced {σ : Type} [Host σ] (c : Callees σ) (s : Stretch) (place : String → Option Word) (floor : Int)
    (f : Frame) (code : Code) : Part → Prop
  | .value e none => Acts s place floor f code (c.effects place floor e)
  | .value e (some r) => r.General → Gives s place floor f r code (c.value place floor e)
  | .arguments es r => r.General → Piles s place floor f es.length code (c.arguments place floor es)
  | .place e none => Acts s place floor f code (c.effects place floor e)
  | .place e (some r) => r.General → Gives s place floor f r code (c.address place floor e)
  | _ => True

section

variable {σ : Type} [Host σ] {c : Callees σ} {s : Stretch} {place : String → Option Word} {floor : Int}
  {f : Frame} {l : Option Loop} {part : Part} {n n₁ : Nat} {code : Code}

theorem traced_of_emits (hD : c.Describes s.labels s.program floor) (hE : Emits l f part n code n₁) :
    Traced c s place floor f code part := by
  induction hE with
  | @int _ f _ w out =>
    cases out with
    | none => exact acts_nothing f
    | some r => exact fun hr => gives_int hr w
  | unusedName => exact acts_nothing _
  | name hk => exact fun hr => gives_name hr hk
  | unusedBinary _ _ ihr ihl => exact acts_binary ihr ihl
  | binary _ _ ihr ihl => exact fun hr => gives_binary hr (ihr hr) (ihl hr)
  | @addressOf _ _ _ _ e out _ _ ih =>
    cases out with
    | none => exact ih
    | some r => exact ih
  | @negate _ _ _ _ e out code _ ih =>
    cases out with
    | none =>
      rw [Option.map_none, Option.toList_none, List.append_nil]
      exact ih
    | some r => exact fun hr => gives_converted .neg hr (ih hr)
  | @bitNot _ _ _ _ e out code _ ih =>
    cases out with
    | none =>
      rw [Option.map_none, Option.toList_none, List.append_nil]
      exact ih
    | some r => exact fun hr => gives_converted .not hr (ih hr)
  | unusedNot _ ih => exact ih
  | logicalNot _ ih => exact fun hr => gives_not hr (ih hr)
  | @dereference _ _ _ _ e out code _ ih =>
    cases out with
    | none =>
      rw [Option.map_none, Option.toList_none, List.append_nil]
      exact ih
    | some r => exact fun hr => gives_load hr (ih hr)
  | @call _ _ _ _ callee es out code _ ih =>
    have hs := ih (Register.general_adjacent _)
    cases out with
    | none =>
      rw [Option.map_none, Option.toList_none, List.append_nil]
      exact acts_call hD hs
    | some r => exact fun hr => gives_call hD hr hs
  | noArguments => exact fun _ => piles_nil _
  | argument _ _ ih ihs => exact fun hr => piles_cons (ih hr) (ihs hr)
  | unusedPlace => exact acts_nothing _
  | namePlace hk => exact fun hr => gives_place hr hk
  | @pointer _ _ _ _ e out _ _ ih =>
    cases out with
    | none => exact ih
    | some r => exact ih
  | _ => trivial

end

/-! ### Expression statements -/

section

variable {σ : Type} {labels : Labels} {program : List UInt8} {m m' : Machine} {o o' : Nat} {code : Code}
  {w : World σ} {f : Frame}

/-- The world of a machine that has made no calls yet. -/
def world (m : Machine) (h : σ) : World σ := ⟨m.memory, h, m.get .result, []⟩

/-- The evaluation of an expression for a machine, with variables at the places of a frame. -/
def valueOf (m : Machine) (c : Callees σ) (f : Frame) (e : Expr) : Evaluation σ Word :=
  c.value (f.place (m.get .stack)) (m.get .stack).toNat e (m.get .stack).toNat

def effectsOf (m : Machine) (c : Callees σ) (f : Frame) (e : Expr) : Evaluation σ Unit :=
  c.effects (f.place (m.get .stack)) (m.get .stack).toNat e (m.get .stack).toNat

def stretch (m : Machine) (labels : Labels) (program : List UInt8) (o : Nat) (code : Code) : Stretch :=
  ⟨labels, program, m.programOffset.toNat, o, o + extent code⟩

/-- The machine has come to an offset with its stack as it was, and from the top of the stack on memory
is that of a world. -/
structure Finishes (m : Machine) (o : Nat) (m' : Machine) (w : World σ) : Prop where
  position : m'.At o
  stack : m'.get .stack = m.get .stack
  result : m'.get .result = w.result
  agree : w.memory.AgreeFrom m'.memory (m.get .stack).toNat

theorem stretch_has (hp : Placed labels program o code) : (m.stretch labels program o code).Has o code :=
  ⟨hp, Nat.le_refl _, Nat.le_refl _⟩

theorem stands_goto (hl : m.Loaded program) (hs : (m.get .stack).toNat ≤ m.programOffset.toNat)
    (f : Frame) (h : σ) (next : Word) :
    Stands (m.stretch labels program o code) (f.place (m.get .stack)) (m.get .stack).toNat f
      (m.get .stack).toNat (m.world h) (m.goto next) where
  loaded := hl.of_agree (.refl _ _) (Int.le_refl _) rfl
  stack := by
    rw [get_goto, if_neg Register.stack_ne_instruction, Word.ofInt_toNat]
  places name := by
    rw [Word.ofInt_toNat]
  agree := .refl _ _
  nonneg := Int.natCast_nonneg _
  le_floor := Int.le_refl _
  floor_le := Int.ofNat_le.2 hs
  start := rfl
  result := by
    rw [get_goto, if_neg (by decide)]
    rfl

theorem Rests.finishes {s : Stretch} {place : String → Option Word} {m₁ : Machine}
    (hR : Rests s place (m.get .stack).toNat f (m.get .stack).toNat m₁ o m' w) : Finishes m o m' w :=
  ⟨hR.position, hR.stands.stack.trans (Word.ofInt_toNat _), hR.stands.result, hR.stands.agree⟩

/-- The code of an expression follows its evaluation, with the value and without. If the evaluation comes
to a value, the one without comes to the same world after the same calls. What stops it in a call or in
the arguments of one stops both alike, and if something else does or the stack is too small, the calls
until then are the first ones of those made without the value. -/
theorem discarding_keeps_calls [Host σ] (c : Callees σ) {e : Expr} {r : Register} {l l' : Option Loop}
    {n n' : Nat} {kept discarded : Code} {after after' : Context}
    (hk : expression e (some r) ⟨n, f, l⟩ = .ok (kept, after))
    (hd : expression e none ⟨n', f, l'⟩ = .ok (discarded, after')) (hr : r.General)
    (hl : m.Loaded program) (hp : Placed labels program o kept) (hp' : Placed labels program o' discarded)
    (hs : (m.get .stack).toNat ≤ m.programOffset.toNat)
    (hD : c.Describes labels program (m.get .stack).toNat) (h : σ) :
    Attains (m.stretch labels program o kept) (m.goto (m.absolute (UInt32.ofNat o))) (m.world h)
      (fun m' v w => Finishes m (o + extent kept) m' w ∧ m'.get r = v) (m.valueOf c f e (m.world h)) ∧
    Attains (m.stretch labels program o' discarded) (m.goto (m.absolute (UInt32.ofNat o'))) (m.world h)
      (fun m' _ w => Finishes m (o' + extent discarded) m' w) (m.effectsOf c f e (m.world h)) ∧
    Sheds (m.valueOf c f e (m.world h)) (m.effectsOf c f e (m.world h)) := by
  obtain ⟨_, _, hE⟩ := emits_of_expression e (some r) hk
  obtain ⟨_, _, hE'⟩ := emits_of_expression e none hd
  have hgives : Gives (m.stretch labels program o kept) (f.place (m.get .stack)) (m.get .stack).toNat f r
      kept (c.value (f.place (m.get .stack)) (m.get .stack).toNat e) := traced_of_emits hD hE hr
  have hacts : Acts (m.stretch labels program o' discarded) (f.place (m.get .stack)) (m.get .stack).toNat f
      discarded (c.effects (f.place (m.get .stack)) (m.get .stack).toNat e) := traced_of_emits hD hE'
  have hvalue := hgives _ _ _ o (stands_goto hl hs f h _) (arrives_goto m o).position (stretch_has hp)
  have heffects := hacts _ _ _ o' (stands_goto hl hs f h _) (arrives_goto m o').position (stretch_has hp')
  exact ⟨hvalue.imp fun m' v w hg => ⟨hg.1.finishes, hg.2⟩, heffects.imp fun m' u w hg => hg.finishes,
    value_sheds c _ _ e (Int.le_refl _) _⟩

/-- Characters are printed and there are no other functions. -/
def printing : Callees WordQueue where
  reply call memory q _ :=
    .returns memory { q with output := q.output.push (call.arguments.headD 0) } (call.arguments.headD 0)
  need _ _ _ _ := 0

theorem printing_describes {floor : Int} (hp : Placed labels program o printcharCode)
    (hl : ∀ g entry, labels.get? (Label.function g).text = some entry →
      g = .printchar ∧ entry = UInt32.ofNat o) : printing.Describes labels program floor := by
  intro call entry back x memory m q hentry hlen hI _
  rcases call with ⟨g, args⟩
  obtain ⟨rfl, he⟩ := hl g entry hentry
  obtain ⟨v, rfl⟩ := List.length_eq_one_iff.1 hlen
  have hle : x + 4 * (1 + 1) ≤ floor := hI.le_floor
  have hfloor := hI.floor_le
  have hback : x + 8 - 4 * (1 + 1) = x := by omega
  let c : Caller [] program := ⟨m, x + 8, back, hI.loaded, by omega, fun f hf => by cases hf⟩
  have hentered : Entered c [v] entry m := by
    refine ⟨hI.position, rfl, ?_, .refl _ _, ?_, fun i u hi => ?_⟩
    · show m.get .stack = Word.ofInt (x + 8 - 4 * (1 + 1))
      rw [hback, hI.stack]
    · show m.memory.word? (x + 8 - 4 * (1 + 1)) = some back
      rw [hback, hI.back]
    · cases i with
      | zero =>
        have hv := hI.arguments 0 v rfl
        cases hi
        have he : x + 4 * (1 - 0) = x + 8 - 4 * (0 + 1) := by omega
        have hv : m.memory.word? (x + 4 * (1 - 0)) = some v := hv
        rw [he] at hv
        exact hv
      | succ i => simp at hi
  obtain ⟨m', p, hR⟩ := (follows_printchar (y := 0) (q := q) hp he hentered).realizes (fits_zero 0)
  have hm : m.memory.AgreeFrom m'.memory (x + 8) := hR.agree
  have hstack : m'.get .stack = Word.ofInt (x + 8 - 4 * 1) := hR.stack
  have hx : x + 8 - 4 * 1 = x + 4 := by omega
  rw [hx] at hstack
  exact ⟨m', p, ⟨hI.loaded.of_agree hm (by omega) hR.programOffset, hR.programOffset, hR.position,
    hstack, .of_agree hm, hI.agree.trans (hm.mono (by omega))⟩, hR.result v rfl⟩

/-- `printchar(65) + 1` prints a character with its value and without. -/
theorem discarding_keeps_calls_printing : ∃ (m : Machine) (kept discarded : Code) (c c' : Context)
    (labels : Labels) (program : List UInt8),
    expression (.binary .add (.call "printchar" [.int 65]) (.int 1)) (some ⟨1⟩) ⟨0, ⟨[], [], 0⟩, none⟩ =
      .ok (kept, c) ∧
    expression (.binary .add (.call "printchar" [.int 65]) (.int 1)) none ⟨0, ⟨[], [], 0⟩, none⟩ =
      .ok (discarded, c') ∧
    m.Loaded program ∧ Placed labels program 15 kept ∧ Placed labels program 53 discarded ∧
    ∀ q : WordQueue,
      (∃ m', Course (m.stretch labels program 15 kept) (m.goto (m.absolute 15)) q [] m'
        { q with output := q.output.push 65 } [⟨.printchar, [65]⟩] ∧ m'.At 53 ∧ m'.get ⟨1⟩ = 66) ∧
      ∃ m', Course (m.stretch labels program 53 discarded) (m.goto (m.absolute 53)) q [] m'
        { q with output := q.output.push 65 } [⟨.printchar, [65]⟩] ∧ m'.At 75 := by
  obtain ⟨program, hplaced⟩ : ∃ program : List UInt8, ((Machine.empty 200).install program).toOption.any
      (fun m => decide (m.programOffset = 125 ∧
        Placed ⟨[("@func_printchar_1", 0)]⟩ program 0 printcharCode ∧
        Placed ⟨[("@func_printchar_1", 0)]⟩ program 15 [Code.set ⟨1⟩ 1, Code.push ⟨1⟩, Code.set ⟨2⟩ 65,
          Code.push ⟨2⟩, Code.call (.function .printchar), Code.mov ⟨1⟩ .result, Code.set .result 4,
          Code.add .stack .result, Code.pop ⟨2⟩, Code.add ⟨1⟩ ⟨2⟩] ∧
        Placed ⟨[("@func_printchar_1", 0)]⟩ program 53 [Code.set ⟨1⟩ 65, Code.push ⟨1⟩,
          Code.call (.function .printchar), Code.set .result 4, Code.add .stack .result])) = true :=
    ⟨[2, 0, 4, 0, 0, 0, 14, 0, 254, 10, 0, 0, 4, 0, 29, 2, 1, 1, 0, 0, 0, 11, 1, 2, 2, 65, 0, 0, 0, 11, 2,
      28, 0, 0, 0, 0, 13, 1, 0, 2, 0, 4, 0, 0, 0, 14, 254, 0, 12, 2, 14, 1, 2, 2, 1, 65, 0, 0, 0, 11, 1,
      28, 0, 0, 0, 0, 2, 0, 4, 0, 0, 0, 14, 254, 0], by decide +kernel⟩
  obtain ⟨m, hinstall, hm⟩ := exists_of_any hplaced
  obtain ⟨hoffset, hprint, hkept, hdiscarded⟩ := of_decide_eq_true hm
  obtain ⟨hl, _, hs, _⟩ := Installed.of_install hinstall
  have hstack : m.get .stack = 125 := hs.trans hoffset
  have hlabels : ∀ g entry, Labels.get? ⟨[("@func_printchar_1", 0)]⟩ (Label.function g).text = some entry →
      g = .printchar ∧ entry = UInt32.ofNat 0 := by
    intro g entry hg
    by_cases ht : (Label.function g).text = "@func_printchar_1"
    · rw [ht] at hg
      cases hg
      exact ⟨eq_of_text_function (g := .printchar) ht, rfl⟩
    · have hb : ((Label.function g).text == "@func_printchar_1") = false := beq_false_of_ne ht
      simp [Labels.get?, List.lookup_cons, hb] at hg
  have hk : expression (.binary .add (.call "printchar" [.int 65]) (.int 1)) (some ⟨1⟩)
      ⟨0, ⟨[], [], 0⟩, none⟩ = .ok (_, ⟨0, ⟨[], [], 0⟩, none⟩) := rfl
  have hd : expression (.binary .add (.call "printchar" [.int 65]) (.int 1)) none
      ⟨0, ⟨[], [], 0⟩, none⟩ = .ok (_, ⟨0, ⟨[], [], 0⟩, none⟩) := rfl
  refine ⟨m, _, _, _, _, _, program, hk, hd, hl, hkept, hdiscarded, fun q => ?_⟩
  have hboth := discarding_keeps_calls printing hk hd (by decide) hl hkept hdiscarded
    (Nat.le_of_eq (congrArg UInt32.toNat hs)) (printing_describes hprint hlabels) q
  rw [valueOf, effectsOf, hstack] at hboth
  obtain ⟨⟨m₁, p₁, hf₁, hv₁⟩, ⟨m₂, p₂, hf₂⟩, _⟩ := hboth
  exact ⟨⟨m₁, p₁, hf₁.position, hv₁⟩, m₂, p₂, hf₂.position⟩

/-- Without their values `1 / 0` and `1 + 1` have no code. With its value the first divides by zero, and
the second leaves memory if there is no room on the stack. A function that returns the address of its local
variable returns another one when the value of `printchar(f()) + 1` is wanted, as a word lies on the stack
meanwhile. -/
theorem discarding_changes_behaviour :
    (∃ (m : Machine) (kept : Code) (c c' : Context) (program : List UInt8),
      expression (.binary .divide (.int 1) (.int 0)) (some ⟨1⟩) ⟨0, ⟨[], [], 0⟩, none⟩ = .ok (kept, c) ∧
      expression (.binary .divide (.int 1) (.int 0)) none ⟨0, ⟨[], [], 0⟩, none⟩ = .ok ([], c') ∧
      (Machine.empty 64).install program = .ok m ∧ Placed .empty program 0 kept ∧
      (run 5 m (WordQueue.ofWords [])).2.2 = .fault (.divisionByZero (m.absolute 16))) ∧
    (∃ (m : Machine) (kept : Code) (c c' : Context) (program : List UInt8),
      expression (.binary .add (.int 1) (.int 1)) (some ⟨1⟩) ⟨0, ⟨[], [], 0⟩, none⟩ = .ok (kept, c) ∧
      expression (.binary .add (.int 1) (.int 1)) none ⟨0, ⟨[], [], 0⟩, none⟩ = .ok ([], c') ∧
      (Machine.empty 19).install program = .ok m ∧ Placed .empty program 0 kept ∧
      (run 2 m (WordQueue.ofWords [])).2.2 = .fault (.outOfBounds 4294967292 4)) ∧
    ∃ (m : Machine) (code kept discarded : Code) (n : Nat) (c c' : Context) (labels : Labels)
        (program : List UInt8),
      function ⟨"f", [], [.ret (some (.unary .addressOf (.name "a")))]⟩ 0 = .ok (code, n) ∧
      expression (.binary .add (.call "printchar" [.call "f" []]) (.int 1)) (some ⟨1⟩)
        ⟨0, ⟨[], [], 0⟩, none⟩ = .ok (kept, c) ∧
      expression (.binary .add (.call "printchar" [.call "f" []]) (.int 1)) none
        ⟨0, ⟨[], [], 0⟩, none⟩ = .ok (discarded, c') ∧
      (Machine.empty 200).install program = .ok m ∧ Placed labels program 0 printcharCode ∧
      Placed labels program 15 code ∧ Placed labels program 50 kept ∧ Placed labels program 90 discarded ∧
      (run 23 (m.goto (m.absolute 50)) (WordQueue.ofWords [])).1.get .instruction = m.absolute 90 ∧
      (run 23 (m.goto (m.absolute 50)) (WordQueue.ofWords [])).2.1.output = #[74] ∧
      (run 21 (m.goto (m.absolute 90)) (WordQueue.ofWords [])).1.get .instruction = m.absolute 114 ∧
      (run 21 (m.goto (m.absolute 90)) (WordQueue.ofWords [])).2.1.output = #[78] := by
  refine ⟨?_, ?_, ?_⟩
  · obtain ⟨program, hfaults⟩ : ∃ program : List UInt8, ((Machine.empty 64).install program).toOption.any
        (fun m => decide (Placed .empty program 0 [Code.set ⟨1⟩ 0, Code.push ⟨1⟩, Code.set ⟨1⟩ 1,
          Code.pop ⟨2⟩, Code.sdiv ⟨1⟩ ⟨2⟩] ∧
          (run 5 m (WordQueue.ofWords [])).2.2 = .fault (.divisionByZero (m.absolute 16)))) = true :=
      ⟨[2, 1, 0, 0, 0, 0, 11, 1, 2, 1, 1, 0, 0, 0, 12, 2, 18, 1, 2], by decide +kernel⟩
    obtain ⟨m, hinstall, hm⟩ := exists_of_any hfaults
    exact ⟨m, _, _, _, program, rfl, rfl, hinstall, of_decide_eq_true hm⟩
  · obtain ⟨program, hfaults⟩ : ∃ program : List UInt8, ((Machine.empty 19).install program).toOption.any
        (fun m => decide (Placed .empty program 0 [Code.set ⟨1⟩ 1, Code.push ⟨1⟩, Code.set ⟨1⟩ 1,
          Code.pop ⟨2⟩, Code.add ⟨1⟩ ⟨2⟩] ∧
          (run 2 m (WordQueue.ofWords [])).2.2 = .fault (.outOfBounds 4294967292 4))) = true :=
      ⟨[2, 1, 1, 0, 0, 0, 11, 1, 2, 1, 1, 0, 0, 0, 12, 2, 14, 1, 2], by decide +kernel⟩
    obtain ⟨m, hinstall, hm⟩ := exists_of_any hfaults
    exact ⟨m, _, _, _, program, rfl, rfl, hinstall, of_decide_eq_true hm⟩
  · obtain ⟨program, hprints⟩ : ∃ program : List UInt8, ((Machine.empty 200).install program).toOption.any
        (fun m => decide (Placed ⟨[("@func_f_0", 15), ("@func_printchar_1", 0)]⟩ program 0 printcharCode ∧
          Placed ⟨[("@func_f_0", 15), ("@func_printchar_1", 0)]⟩ program 15 [.blank,
            Code.label (.function ⟨"f", 0⟩), Code.set frameSize 4, Code.sub .stack frameSize,
            Code.mov returnValue .stack, Code.set .result 4, Code.add .stack .result,
            Code.mov .result returnValue, Code.ret, Code.set frameSize 4, Code.add .stack frameSize,
            Code.ret] ∧
          Placed ⟨[("@func_f_0", 15), ("@func_printchar_1", 0)]⟩ program 50 [Code.set ⟨1⟩ 1, Code.push ⟨1⟩,
            Code.call (.function ⟨"f", 0⟩), Code.mov ⟨2⟩ .result, Code.push ⟨2⟩,
            Code.call (.function .printchar), Code.mov ⟨1⟩ .result, Code.set .result 4,
            Code.add .stack .result, Code.pop ⟨2⟩, Code.add ⟨1⟩ ⟨2⟩] ∧
          Placed ⟨[("@func_f_0", 15), ("@func_printchar_1", 0)]⟩ program 90 [
            Code.call (.function ⟨"f", 0⟩), Code.mov ⟨1⟩ .result, Code.push ⟨1⟩,
            Code.call (.function .printchar), Code.set .result 4, Code.add .stack .result] ∧
          (run 23 (m.goto (m.absolute 50)) (WordQueue.ofWords [])).1.get .instruction = m.absolute 90 ∧
          (run 23 (m.goto (m.absolute 50)) (WordQueue.ofWords [])).2.1.output = #[74] ∧
          (run 21 (m.goto (m.absolute 90)) (WordQueue.ofWords [])).1.get .instruction = m.absolute 114 ∧
          (run 21 (m.goto (m.absolute 90)) (WordQueue.ofWords [])).2.1.output = #[78])) = true :=
      ⟨[2, 0, 4, 0, 0, 0, 14, 0, 254, 10, 0, 0, 4, 0, 29, 2, 5, 4, 0, 0, 0, 15, 254, 5, 13, 3, 254, 2, 0, 4,
        0, 0, 0, 14, 254, 0, 13, 0, 3, 29, 2, 5, 4, 0, 0, 0, 14, 254, 5, 29, 2, 1, 1, 0, 0, 0, 11, 1, 28, 15,
        0, 0, 0, 13, 2, 0, 11, 2, 28, 0, 0, 0, 0, 13, 1, 0, 2, 0, 4, 0, 0, 0, 14, 254, 0, 12, 2, 14, 1, 2, 28,
        15, 0, 0, 0, 13, 1, 0, 11, 1, 28, 0, 0, 0, 0, 2, 0, 4, 0, 0, 0, 14, 254, 0], by decide +kernel⟩
    obtain ⟨m, hinstall, hm⟩ := exists_of_any hprints
    exact ⟨m, _, _, _, _, _, _, _, program, rfl, rfl, rfl, hinstall, of_decide_eq_true hm⟩

end

end Machine

end WordMachine
