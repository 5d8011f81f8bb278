import WordMachine.Proofs.Compiler.Activation
import WordMachine.Proofs.Machine.Installation

/-!
# Running programs keep to their code

A compiled program that stores to variables alone never changes its code and never leaves it: each
instruction takes an intact machine to an intact one, and what stops the machine is an instruction that
could be read.
-/

namespace WordMachine.Compiler

open Assembly Source Machine

variable {σ : Type} [Host σ] {I : Image} {p : Signature → Prop} {E : Machine → Prop} {m m' : Machine}
  {h h' : σ} {b : Body} {base x : Int} {w : List Content} {k k' : Option (Register × Fact)} {o o' : Nat}
  {line : Line} {rest rest' : Code} {i : Instruction Value} {rs : List Register} {r : Register}

/-! ### Steps that keep the stack -/

theorem Intact.after (hi : Intact I p m) (ha : Arrives x m m' rs o) (hx : x ≤ m.programOffset.toNat)
    (hp : Phase I p m') : Intact I p m' :=
  ⟨ha.loaded hx hi.loaded, ha.agree.1.trans hi.size, hp⟩

/-- Words that the lines of a body leave alone while so many words are pushed: the return address, all
words beyond the parameters, and pushed words other than the local variables. -/
def Body.Spares (b : Body) (base : Int) (n : Nat) (y : Int) : Prop :=
  y = base ∨ base + 4 + 4 * b.setting.arity ≤ y ∨
    base - 4 * n ≤ y ∧ y + 4 * b.setting.locals + 4 ≤ base

/-- The machine is still in the function, and the words to be left alone are as they were. -/
structure Stays (I : Image) (p : Signature → Prop) (m m' : Machine) (b : Body) (base : Int) (n : Nat)
    (s : Shape) (o : Nat) (rest : Code) : Prop where
  intact : Intact I p m'
  active : Active I p m' b base s o rest
  spared : ∀ y, b.Spares base n y → m'.memory.word? y = m.memory.word? y

theorem Active.moved {w' : List Content} (hA : Active I p m b base ⟨w, k⟩ o rest) (hi : Intact I p m)
    (ha : Arrives 0 m m' rs o') (hat : b.At o' ⟨w', k'⟩ rest')
    (hstack : m'.get .stack = Word.ofInt (base - 4 * w'.length))
    (hlow : b.Low I base w'.length)
    (hst : Stacked b.setting.locals m.memory base w')
    (hk : ∀ r f, k' = some (r, f) → m'.get r = f.value base) (n : Nat) :
    Stays I p m m' b base n ⟨w', k'⟩ o' rest' := by
  have hA' : Active I p m' b base ⟨w', k'⟩ o' rest' := by
    refine ⟨hA.sound, hat, ha.position, hstack, hA.room, hlow, ?_, hk, ?_⟩
    · rw [ha.memory]
      exact hst
    · rw [ha.memory, ha.programOffset]
      exact hA.suspended
  refine ⟨hi.after ha (Int.natCast_nonneg _) (.active hA'), hA', fun y _ => ?_⟩
  rw [ha.memory]

theorem Active.kept (hA : Active I p m b base ⟨w, k⟩ o rest) (hi : Intact I p m)
    (ha : Arrives 0 m m' rs o') (hr : .stack ∉ rs) (hat : b.At o' ⟨w, k'⟩ rest')
    (hk : ∀ r f, k' = some (r, f) → m'.get r = f.value base) (n : Nat) :
    Stays I p m m' b base n ⟨w, k'⟩ o' rest' :=
  hA.moved hi ha hat ((ha.others .stack hr Register.stack_ne_instruction).trans hA.stack) hA.low
    hA.stacked hk n

theorem arrives_of_quiet {labels : Labels} {program : List UInt8} (hl : m.Loaded program) (ha : m.At o)
    (hp : Placed labels program o (.instruction i :: rest)) (hq : Quiet i)
    (hs : m.step h = (m', h', .running)) : Arrives 0 m m' i.written (o + i.size) := by
  obtain ⟨⟨j, hj, hcode⟩, _⟩ := hp
  obtain ⟨hw, hst⟩ := Instruction.written_of_traverse hj
  rw [hl.step ha hcode] at hs
  cases he : m.execute h (m.absolute (UInt32.ofNat o)) (m.absolute (UInt32.ofNat (o + j.size))) j with
  | mk m₁ p =>
    rcases p with ⟨h₁, result⟩
    have hc := changes_execute he
    rw [he] at hs
    cases result with
    | error f => cases hs
    | ok next =>
      cases hs
      rw [hw, hst] at hc
      have hnext := hc.next hq.instruction next rfl
      refine ⟨?_, ?_, hc.programOffset, ?_⟩
      · show (m₁.registers.set .instruction next).get .instruction = _
        rw [RegisterFile.get_set, if_pos rfl, hnext, Instruction.size_of_traverse hj]
        show _ = UInt32.ofNat (o + i.size) + m₁.programOffset
        rw [hc.programOffset]
        rfl
      · show m.memory.AgreeFrom m₁.memory 0
        rw [hc.memory hq.stores]
        exact .refl _ _
      · intro q hq' hi
        show (m₁.registers.set .instruction next).get q = _
        rw [RegisterFile.get_set, if_neg hi]
        exact hc.get q hq'

/-! ### Steps that move the stack pointer -/

theorem Active.top (hA : Active I p m b base ⟨w, k⟩ o rest) :
    m.get .stack = Word.ofInt (base - 4 * w.length) := hA.stack

theorem Active.le_start (hA : Active I p m b base ⟨w, k⟩ o rest) :
    base - 4 * w.length + 4 ≤ m.programOffset.toNat := by
  have hb := hA.suspended.bounds
  omega

theorem Active.four_le (hA : Active I p m b base ⟨w, k⟩ o rest) (hi : Intact I p m)
    (hb : m.memory.Holds (m.get .stack - 4) 4) : 4 ≤ base - 4 * (w.length : Int) := by
  have hlow : b.Low I base w.length := hA.low
  unfold Body.Low at hlow
  have hle := hA.le_start
  have hsize := hi.size
  have hlt : m.memory.size < 4294967296 := m.memory.size_lt
  have hstart := m.programOffset.toNat_lt
  rw [top_sub_four hA.top, Memory.holds_ofInt_iff (by omega) (by omega) (by omega)] at hb
  omega

theorem Active.pushed (hA : Active I p m b base ⟨w, k⟩ o rest) (hi : Intact I p m) {c : Content}
    (hb : m.memory.Holds (m.get .stack - 4) 4) {v : Word}
    (hat : b.At o' ⟨c :: w, none⟩ rest')
    (hc : ∀ z, c = .slot z → b.setting.locals ≤ w.length ∧ v = Word.ofInt (base - 4 * z)) :
    Stays I p m (m.pushed v (m.absolute (UInt32.ofNat o'))) b base w.length ⟨c :: w, none⟩ o'
      rest' := by
  have h4 := hA.four_le hi hb
  have hle := hA.le_start
  have hsize := hi.loaded.size_eq
  obtain ⟨ha, hstack, hword⟩ := arrives_pushed hA.top h4 (by omega) v o'
  have hlen : base - 4 * (w.length : Int) - 4 = base - 4 * ((c :: w).length : Int) := by
    rw [List.length_cons]
    omega
  have hA' : Active I p (m.pushed v (m.absolute (UInt32.ofNat o'))) b base ⟨c :: w, none⟩ o' rest' := by
    refine ⟨hA.sound, hat, ha.position, ?_, hA.room, .inl ?_, ?_, ?_, ?_⟩
    · rw [hstack, hlen]
    · show 0 ≤ base - 4 * ((c :: w).length : Int)
      omega
    · refine (hA.stacked.congr fun top z rest hw _ => ?_).push fun z hz => ?_
      · refine ha.agree.word? ?_
        have hl := congrArg List.length hw
        simp only [List.length_append, List.length_cons] at hl
        omega
      · obtain ⟨hl, rfl⟩ := hc z hz
        refine ⟨hl, ?_⟩
        have he : base - 4 * ((w.length : Int) + 1) = base - 4 * (w.length : Int) - 4 := by omega
        rw [he, hword]
    · intro r f hf
      cases hf
    · rw [ha.programOffset]
      refine hA.suspended.congr fun y hy => ha.agree.word? ?_
      omega
  refine ⟨hi.after ha (by omega) (.active hA'), hA', fun y hy => ha.agree.word? ?_⟩
  unfold Body.Spares at hy
  omega

theorem Active.top_slot {z : Int} (hA : Active I p m b base ⟨.slot z :: w, k⟩ o rest) :
    m.memory.Holds (m.get .stack) 4 ∧ m.memory.read (m.get .stack) 4 = Word.ofInt (base - 4 * z) := by
  obtain ⟨_, hword⟩ := hA.stacked [] z w rfl
  have htop := hA.top
  rw [List.length_cons, Int.natCast_succ] at htop
  rw [htop]
  exact ⟨Memory.holds_of_word? hword, Memory.read_of_word? hword⟩

theorem Active.popped {c : Content} (hA : Active I p m b base ⟨c :: w, k⟩ o (Code.pop r :: rest))
    (hi : Intact I p m) (hr : r ≠ .stack) (hr' : r ≠ .instruction)
    (hp : Placed I.labels I.program o (Code.pop r :: rest)) (hat : b.At (o + 2) ⟨w, k'⟩ rest')
    (hk : ∀ q f, k' = some (q, f) → ∃ z, c = .slot z ∧ q = r ∧ f = .slot z)
    (hs : m.step h = (m', h', .running)) (n : Nat) :
    Stays I p m m' b base n ⟨w, k'⟩ (o + 2) rest' := by
  by_cases hb : m.memory.Holds (m.get .stack) 4
  · rw [step_pop hi.loaded hA.pointer hp hb h] at hs
    cases hs
    have ha := arrives_popped m r (m.memory.read (m.get .stack) 4) (o + 2)
    have hlen : (c :: w).length = w.length + 1 := List.length_cons
    have htop := hA.top
    rw [hlen] at htop
    have hlow : b.Low I base (c :: w).length := hA.low
    have hst : Stacked b.setting.locals m.memory base ([c] ++ w) := hA.stacked
    refine hA.moved hi ha hat ?_ (hlow.mono (by omega)) hst.drop ?_ n
    · rw [get_settle, if_neg Register.stack_ne_instruction, if_neg hr.symm, get_set, if_pos rfl,
        top_add_four htop]
      congr 1
      omega
    · intro q f hf
      obtain ⟨z, rfl, rfl, rfl⟩ := hk q f hf
      rw [get_settle_self _ _ _ _ hr', hA.top_slot.2]
      rfl
  · rw [step_pop_fault hi.loaded hA.pointer hp hb h] at hs
    cases hs

theorem Active.reserved (hA : Active I p m b base ⟨[], some (r, .number (4 * b.setting.locals))⟩ o rest)
    (hi : Intact I p m) (g : Flags) (hat : b.At o' ⟨List.replicate b.setting.locals .any, none⟩ rest')
    (n : Nat) :
    Stays I p m (m.settle .stack (m.get .stack - m.get r) g (m.absolute (UInt32.ofNat o'))) b base n
      ⟨List.replicate b.setting.locals .any, none⟩ o' rest' := by
  have hr : m.get r = UInt32.ofNat (4 * b.setting.locals) := hA.known _ _ rfl
  have hlen : (List.replicate b.setting.locals Content.any).length = b.setting.locals :=
    List.length_replicate
  refine hA.moved hi (arrives_settle ..) hat ?_ ?_ (stacked_any _) (by rintro _ _ ⟨⟩) n
  · rw [get_settle_self _ _ _ _ Register.stack_ne_instruction, hA.top, hr, hlen, ← Word.ofInt_natCast,
      ← Word.ofInt_sub]
    congr 1
    simp
  · have hb := hA.suspended.bounds
    have hroom := hA.room
    unfold Body.Room at hroom
    unfold Body.Low
    rw [hlen]
    omega

theorem Active.released {top : List Content}
    (hA : Active I p m b base ⟨top ++ w, some (r, .number (4 * top.length))⟩ o rest) (hi : Intact I p m)
    (g : Flags) (hat : b.At o' ⟨w, none⟩ rest') (n : Nat) :
    Stays I p m (m.settle .stack (m.get .stack + m.get r) g (m.absolute (UInt32.ofNat o'))) b base n
      ⟨w, none⟩ o' rest' := by
  have hr : m.get r = UInt32.ofNat (4 * top.length) := hA.known _ _ rfl
  have hlen : (top ++ w).length = top.length + w.length := List.length_append
  have hlow : b.Low I base (top ++ w).length := hA.low
  refine hA.moved hi (arrives_settle ..) hat ?_ (hlow.mono (by omega)) hA.stacked.drop
    (by rintro _ _ ⟨⟩) n
  rw [get_settle_self _ _ _ _ Register.stack_ne_instruction, hA.top, hr, hlen, ← Word.ofInt_natCast,
    ← Word.ofInt_add]
  congr 1
  omega

/-- A word is stored to a variable of the function: no word that is known to be an address and no
return address lies there. -/
theorem Active.stored (hA : Active I p m b base ⟨w, k⟩ o rest) (hi : Intact I p m) {z : Int}
    (hz : b.setting.Variable z) (hb : m.memory.Holds (Word.ofInt (base - 4 * z)) 4) (v : Word)
    (hat : b.At o' ⟨w, none⟩ rest') (n : Nat) :
    Stays I p m (m.deposit (Word.ofInt (base - 4 * z)) v (m.absolute (UInt32.ofNat o'))) b base n
      ⟨w, none⟩ o' rest' := by
  have hroom := hA.room
  unfold Body.Room at hroom
  have hsize := hi.size
  have hlt : m.memory.size < 4294967296 := m.memory.size_lt
  have hstart := m.programOffset.toNat_lt
  obtain ⟨hbase, hle⟩ := hA.suspended.bounds
  have hrange : -(b.setting.arity : Int) ≤ z ∧ z ≤ b.setting.locals := by
    unfold Setting.Variable at hz
    omega
  rw [Memory.holds_ofInt_iff (by omega) (by omega) (by omega)] at hb
  obtain ⟨hy, hy'⟩ := hb
  have hkeep : ∀ y, y + 4 ≤ base - 4 * z ∨ base - 4 * z + 4 ≤ y →
      (m.memory.write (Word.ofInt (base - 4 * z)) 4 v).word? y = m.memory.word? y :=
    fun y hne => Memory.word?_write_outside v hy hy' hne
  have hA' : Active I p (m.deposit (Word.ofInt (base - 4 * z)) v (m.absolute (UInt32.ofNat o'))) b base
      ⟨w, none⟩ o' rest' := by
    refine ⟨hA.sound, hat, ?_, ?_, hA.room, hA.low, ?_, ?_, ?_⟩
    · rw [At, get_deposit, if_pos rfl]
      rfl
    · rw [get_deposit, if_neg Register.stack_ne_instruction]
      exact hA.top
    · refine hA.stacked.congr fun top y rest _ hl => hkeep _ ?_
      unfold Setting.Variable at hz
      omega
    · intro r f hf
      cases hf
    · refine hA.suspended.congr fun y hy => hkeep _ ?_
      unfold Setting.Variable at hz
      omega
  refine ⟨⟨hi.loaded.of_agree (Memory.agreeFrom_write v hy hy' (Int.le_refl _)) (by omega) rfl,
    (Memory.size_write ..).trans hsize, .active hA'⟩, hA', fun y hy => hkeep y ?_⟩
  unfold Setting.Variable at hz
  unfold Body.Spares at hy
  omega

/-! ### Calls and returns -/

/-- A call has entered the body of a function. The return address lies at the base, and beyond it
memory is as it was. -/
structure Activates (I : Image) (p : Signature → Prop) (m m' : Machine) (g : Signature) (b : Body)
    (base : Int) (o : Nat) : Prop where
  arity : b.setting.arity = g.arity
  entry : I.labels.get? (Label.function g).text = some (UInt32.ofNat b.start)
  intact : Intact I p m'
  active : ∃ rest, Active I p m' b base ⟨[], none⟩ b.start rest
  back : m'.memory.word? base = some (m.absolute (UInt32.ofNat o))
  stack : m.get .stack = Word.ofInt (base + 4)
  agree : m.memory.AgreeFrom m'.memory (base + 4)

/-- A call enters the body of its function if what waits for the return is in order. -/
theorem Intact.enters (hI : I.CompleteFor p E) (hE : E m') (hi : Intact I p m) {g : Signature}
    (hg : p g) (ha : m.At o) (hp : Placed I.labels I.program o (Code.call (.function g) :: rest))
    (hs : m.step h = (m', h', .running)) (hx : m.get .stack = Word.ofInt (x + 4))
    (hlow : m.memory.Holds (Word.ofInt x) 4 → 0 ≤ x) (hle : x + 4 ≤ m.programOffset.toNat)
    (hsus : m.memory.AgreeFrom m'.memory (x + 4) →
      m'.memory.word? x = some (m.absolute (UInt32.ofNat (o + 5))) →
      Suspended I p m.programOffset m'.memory x g.arity) :
    ∃ b', Activates I p m m' g b' x (o + 5) := by
  have htop := top_sub_four hx
  rw [Int.add_sub_cancel] at htop
  obtain ⟨b', hb', harity, hget, hroom, entry, hent⟩ := hI.bodies g hg
  by_cases hb : m.memory.Holds (m.get .stack - 4) 4
  · rw [step_call hi.loaded ha hp hget hb h] at hs
    cases hs
    rw [htop] at hb
    have h0 := hlow hb
    have hsize := hi.loaded.size_eq
    obtain ⟨ha', hstack, hword⟩ :=
      arrives_pushed hx (by omega) (by omega) (m.absolute (UInt32.ofNat (o + 5))) b'.start
    rw [Int.add_sub_cancel] at hstack hword
    have hr : b'.Room I x := by
      have hsize' := ha'.agree.1
      have hstart := m.programOffset.toNat_lt
      have hn := Word.toNat_ofInt_of_nonneg h0 (by omega)
      rw [← hstack] at hn
      have hr := hroom _ hE (hsize'.trans hi.size) ha'.position
      unfold HasRoom at hr
      rw [hsize', hi.size] at hr
      unfold Body.Room
      omega
    have hA : Active I p (m.pushed (m.absolute (UInt32.ofNat (o + 5)))
        (m.absolute (UInt32.ofNat b'.start))) b' x ⟨[], none⟩ b'.start entry := by
      refine ⟨hb', hent, ha'.position, ?_, hr, .inl ?_, stacked_any 0, ?_, ?_⟩
      · rw [hstack]
        congr 1
        exact (Int.sub_zero _).symm
      · show 0 ≤ x - 4 * ((0 : Nat) : Int)
        omega
      · intro r f hf
        cases hf
      · rw [ha'.programOffset, harity]
        exact hsus ha'.agree hword
    exact ⟨b', harity, hget, hi.after ha' hle (.active hA), ⟨entry, hA⟩, hword, hx, ha'.agree⟩
  · rw [step_call_fault hi.loaded ha hp hget hb h] at hs
    cases hs

theorem Active.enters (hI : I.CompleteFor p E) (hE : E m') (hi : Intact I p m) {g : Signature}
    {s : Shape} (hA : Active I p m b base s o (Code.call (.function g) :: rest))
    (hany : ∀ i < g.arity, s.words[i]? = some .any) (hat : b.At (o + 5) ⟨s.words, none⟩ rest)
    (hs : m.step h = (m', h', .running)) :
    ∃ b', Activates I p m m' g b' (base - 4 * s.words.length - 4) (o + 5) := by
  have hg : p g := (hA.sound.ordinary _ hA.position.mem).of_call
  have hle := hA.le_start
  have htop : m.get .stack = Word.ofInt (base - 4 * s.words.length - 4 + 4) := by
    rw [Int.sub_add_cancel]
    exact hA.stack
  refine hi.enters hI hE hg hA.pointer (hA.position.placed hA.sound) hs htop ?_ (by omega) ?_
  · intro hb
    have h4 := hA.four_le hi (by rwa [top_sub_four htop, Int.add_sub_cancel])
    omega
  · intro hagree hword
    refine .call hA.sound hA.room hat hany hword (hA.stacked.congr fun top z rest hw _ => ?_)
      (hA.suspended.congr fun y hy => hagree.word? ?_)
    · refine hagree.word? ?_
      have hl := congrArg List.length hw
      simp only [List.length_append, List.length_cons] at hl
      omega
    · omega

theorem enters_of_start (hI : I.CompleteFor p E) (hE : E m') (hi : Intact I p m) (ha : m.At 0)
    (htop : m.get .stack = m.programOffset) (hs : m.step h = (m', h', .running)) :
    ∃ b', Activates I p m m' .main b' (m.programOffset.toNat - 4) 5 := by
  obtain ⟨middle, hcode⟩ := hI.code
  have hp := hI.placed
  rw [hcode] at hp
  have hstart := m.programOffset.toNat_lt
  have hsize := hi.loaded.size_eq
  have hlt : m.memory.size < 4294967296 := m.memory.size_lt
  have hx : m.get .stack = Word.ofInt (m.programOffset.toNat - 4 + 4) := by
    rw [htop, Int.sub_add_cancel, Word.ofInt_toNat]
  refine hi.enters hI hE hI.main ha hp hs hx ?_ (by omega) fun _ hword => .bottom hword
  intro hb
  rw [Memory.holds_ofInt_iff (by omega) (by omega) (by omega)] at hb
  exact hb.1

theorem Active.ended (hA : Active I p m b base ⟨[], k⟩ o rest) (hi : Intact I p m) :
    Intact I p ((m.set .stack (m.get .stack + 4)).goto (m.memory.read (m.get .stack) 4)) := by
  have htop : m.get .stack = Word.ofInt base := by
    rw [hA.top]
    congr 1
    exact Int.sub_zero _
  have hstack : ∀ next, ((m.set .stack (m.get .stack + 4)).goto next).get .stack =
      Word.ofInt (base + 4) := by
    intro next
    rw [get_goto, if_neg Register.stack_ne_instruction, get_set, if_pos rfl, top_add_four htop]
  have hpos : ∀ next, ((m.set .stack (m.get .stack + 4)).goto next).get .instruction = next := by
    intro next
    rw [get_goto, if_pos rfl]
  refine ⟨⟨hi.loaded.size_eq, hi.loaded.byte_eq⟩, hi.size, ?_⟩
  have hread : ∀ {v}, m.memory.word? base = some v → m.memory.read (m.get .stack) 4 = v := by
    intro v hv
    rw [htop]
    exact Memory.read_of_word? hv
  have hsus := hA.suspended
  generalize b.setting.arity = n at hsus
  cases hsus with
  | bottom hw =>
    rw [hread hw]
    refine .returned (hpos _) ?_
    rw [hstack, Int.sub_add_cancel, Word.ofInt_toNat]
    rfl
  | @call b' o' w' rest' base' _ hb hr hat _ hw hst hsus' =>
    have hbounds := Memory.bounds_of_word? hw
    rw [hread hw]
    refine .active (show Active I p _ b' base' ⟨w', none⟩ o' rest' from
      ⟨hb, hat, hpos _, ?_, hr, .inl ?_, hst, ?_, hsus'⟩)
    · rw [hstack]
      congr 1
      exact Int.sub_add_cancel _ _
    · show 0 ≤ base' - 4 * (w'.length : Int)
      omega
    · intro r f hf
      cases hf

/-! ### All steps -/

theorem not_quiet (hc : i.opcode = .call ∨ i.opcode = .ret) : ¬Quiet i := by
  intro hq
  refine hq.stack ?_
  rcases hc with hc | hc <;> simp [Instruction.written, hc]

theorem Allowed.of_call {s : Setting} {shapeOf : Nat → List Content} {σ₁ σ₂ : Shape}
    (ha : Allowed s shapeOf σ₁ line σ₂) (hline : line = .instruction i) (hc : i.opcode = .call) :
    ∃ g, line = Code.call (.function g) ∧ (∀ j < g.arity, σ₁.words[j]? = some .any) ∧
      σ₂ = ⟨σ₁.words, none⟩ := by
  cases ha with
  | call hany => exact ⟨_, rfl, hany, rfl⟩
  | quiet hq | keep hq =>
    cases hline
    exact absurd hq (not_quiet (.inl hc))
  | branch hb => cases hb <;> cases hline <;> cases hc
  | _ =>
    cases hline
    try cases hc

theorem Allowed.of_ret {s : Setting} {shapeOf : Nat → List Content} {σ₁ σ₂ : Shape}
    (ha : Allowed s shapeOf σ₁ line σ₂) (hline : line = .instruction i) (hc : i.opcode = .ret) :
    line = Code.ret ∧ σ₁.words = [] := by
  cases ha with
  | ret => exact ⟨rfl, rfl⟩
  | quiet hq | keep hq =>
    cases hline
    exact absurd hq (not_quiet (.inr hc))
  | branch hb => cases hb <;> cases hline <;> cases hc
  | _ =>
    cases hline
    try cases hc

theorem Active.advance {s : Shape} (hi : Intact I p m) (hA : Active I p m b base s o (line :: rest))
    (hline : line = .instruction i) (hcall : i.opcode ≠ .call) (hret : i.opcode ≠ .ret)
    (hs : m.step h = (m', h', .running)) : ∃ s' o' rest', Allowed b.setting b.shapeOf s line s' ∧
      b.Leads line rest rest' ∧ Stays I p m m' b base s.words.length s' o' rest' := by
  obtain ⟨s₁, ha, hn⟩ := hA.position.next
  have hallowed := ha
  have hp := hA.position.placed hA.sound
  have hl := hi.loaded
  have hat := hA.pointer
  cases ha with
  | blank | label | entry => cases hline
  | @number w k r n hr hr' =>
    rw [step_set hl hat hp h] at hs
    cases hs
    refine ⟨_, _, _, hallowed, .next, hA.kept hi (arrives_settle ..) (by simpa using hr.symm)
      (hn (by rintro ⟨⟩)) ?_ _⟩
    rintro _ _ ⟨⟩
    exact get_settle_self _ _ _ _ hr'
  | reserve =>
    obtain ⟨g, _, hstep⟩ := step_combine .sub hl hat hp h
    rw [hstep] at hs
    cases hs
    exact ⟨_, _, _, hallowed, .next, hA.reserved hi g (hn (by rintro ⟨⟩)) _⟩
  | release =>
    obtain ⟨g, _, hstep⟩ := step_combine .add hl hat hp h
    rw [hstep] at hs
    cases hs
    exact ⟨_, _, _, hallowed, .next, hA.released hi g (hn (by rintro ⟨⟩)) _⟩
  | @top w k r hr hr' =>
    rw [step_mov hl hat hp h] at hs
    cases hs
    refine ⟨_, _, _, hallowed, .next, hA.kept hi (arrives_settle ..) (by simpa using hr.symm)
      (hn (by rintro ⟨⟩)) ?_ _⟩
    rintro _ _ ⟨⟩
    rw [get_settle_self _ _ _ _ hr']
    exact hA.top
  | @address w r n hr hr' =>
    obtain ⟨g, _, hstep⟩ := step_combine .add hl hat hp h
    rw [hstep] at hs
    cases hs
    refine ⟨_, _, _, hallowed, .next, hA.kept hi (arrives_settle ..) (by simpa using hr.symm)
      (hn (by rintro ⟨⟩)) ?_ _⟩
    rintro _ _ ⟨⟩
    have hnum : m.get r = UInt32.ofNat (4 * n) := hA.known _ _ rfl
    rw [get_settle_self _ _ _ _ hr', hA.top, hnum, ← Word.ofInt_natCast, ← Word.ofInt_add, Fact.value]
    congr 1
    omega
  | @push w k r hloc =>
    by_cases hb : m.memory.Holds (m.get .stack - 4) 4
    · rw [step_push hl hat hp hb h] at hs
      cases hs
      exact ⟨_, _, _, hallowed, .next, hA.pushed hi hb (hn (by rintro ⟨⟩)) (by rintro z ⟨⟩)⟩
    · rw [step_push_fault hl hat hp hb h] at hs
      cases hs
  | @pushSlot w r z hloc =>
    by_cases hb : m.memory.Holds (m.get .stack - 4) 4
    · rw [step_push hl hat hp hb h] at hs
      cases hs
      refine ⟨_, _, _, hallowed, .next, hA.pushed hi hb (hn (by rintro ⟨⟩)) ?_⟩
      rintro z ⟨⟩
      exact ⟨hloc, hA.known _ _ rfl⟩
    · rw [step_push_fault hl hat hp hb h] at hs
      cases hs
  | @pop c w k r hr hr' =>
    refine ⟨_, _, _, hallowed, .next, hA.popped hi hr hr' hp (hn (by rintro ⟨⟩)) ?_ hs _⟩
    rintro _ _ ⟨⟩
  | @popSlot z w k r hr hr' =>
    refine ⟨_, _, _, hallowed, .next, hA.popped hi hr hr' hp (hn (by rintro ⟨⟩)) ?_ hs _⟩
    rintro _ _ ⟨⟩
    exact ⟨z, rfl, rfl, rfl⟩
  | @loadSlot z w k r hr hr' =>
    obtain ⟨hb, hread⟩ := hA.top_slot
    rw [step_load hl hat hp hb h] at hs
    cases hs
    refine ⟨_, _, _, hallowed, .next, hA.kept hi (arrives_settle ..) (by simpa using hr.symm)
      (hn (by rintro ⟨⟩)) ?_ _⟩
    rintro _ _ ⟨⟩
    rw [get_settle_self _ _ _ _ hr', hread]
    rfl
  | @store w k a c hstore =>
    obtain ⟨z, rfl, hz⟩ := hstore hA.sound.safe
    have haddr : m.get a = Word.ofInt (base - 4 * z) := hA.known _ _ rfl
    by_cases hb : m.memory.Holds (m.get a) 4
    · rw [step_store hl hat hp hb h] at hs
      cases hs
      rw [haddr] at hb ⊢
      exact ⟨_, _, _, hallowed, .next, hA.stored hi hz hb _ (hn (by rintro ⟨⟩)) _⟩
    · rw [step_store_fault hl hat hp hb h] at hs
      cases hs
  | call =>
    cases hline
    exact absurd rfl hcall
  | @jump l i k w hid =>
    obtain ⟨o', rest', hget, hat', hleads⟩ := hA.position.jump hA.sound hid rfl
    rw [step_jmp hl hat hp hget h] at hs
    cases hs
    exact ⟨_, _, _, .jump hid, hleads,
      hA.kept hi (arrives_goto m o') (by simp) hat' (by rintro _ _ ⟨⟩) _⟩
  | @branch line c i k l hb hid =>
    obtain ⟨o', rest', hget, hat', hleads⟩ := hA.position.jump hA.sound hid (by cases hb <;> rfl)
    have hnext := hn (by cases hb <;> rintro ⟨⟩)
    have hsize : (line l).size = 5 := by cases hb <;> rfl
    rw [hsize] at hnext
    rw [step_branch hb hl hat hp hget h] at hs
    cases hs
    by_cases hc : c m.flags = true
    · rw [if_pos hc]
      exact ⟨_, _, _, hallowed, hleads,
        hA.kept hi (arrives_goto m o') (by simp) hat' (by rintro _ _ ⟨⟩) _⟩
    · rw [if_neg hc]
      exact ⟨_, _, _, hallowed, .next,
        hA.kept hi (arrives_goto m (o + 5)) (by simp) hnext (by rintro _ _ ⟨⟩) _⟩
  | ret =>
    cases hline
    exact absurd rfl hret
  | @quiet w k i hq =>
    have hne : Line.instruction i ≠ Code.ret := by
      rintro ⟨⟩
      exact absurd hq.stack (by decide)
    exact ⟨_, _, _, hallowed, .next, hA.kept hi (arrives_of_quiet hl hat hp hq hs) hq.stack (hn hne)
      (by rintro _ _ ⟨⟩) _⟩
  | @keep w r z i hq hr hr' =>
    have hne : Line.instruction i ≠ Code.ret := by
      rintro ⟨⟩
      exact absurd hq.stack (by decide)
    have ha := arrives_of_quiet hl hat hp hq hs
    refine ⟨_, _, _, hallowed, .next, hA.kept hi ha hq.stack (hn hne) ?_ _⟩
    rintro _ _ ⟨⟩
    rw [ha.others r hr hr']
    exact hA.known _ _ rfl

theorem Active.step {s : Shape} (hI : I.CompleteFor p E) (hE : E m') (hi : Intact I p m)
    (hA : Active I p m b base s o (.instruction i :: rest)) (hs : m.step h = (m', h', .running)) :
    Intact I p m' := by
  obtain ⟨s₁, ha, hn⟩ := hA.position.next
  by_cases hcall : i.opcode = .call
  · obtain ⟨g, hline, hany, rfl⟩ := ha.of_call rfl hcall
    rw [hline] at hA hn
    obtain ⟨b', he⟩ := hA.enters hI hE hi hany (hn (by rintro ⟨⟩)) hs
    exact he.intact
  · by_cases hret : i.opcode = .ret
    · obtain ⟨hline, hw⟩ := ha.of_ret rfl hret
      rw [hline] at hA
      by_cases hb : m.memory.Holds (m.get .stack) 4
      · rw [step_ret hi.loaded hA.pointer (hA.position.placed hA.sound) hb h] at hs
        cases hs
        rcases s with ⟨w, k⟩
        cases hw
        exact hA.ended hi
      · rw [step_ret_fault hi.loaded hA.pointer (hA.position.placed hA.sound) hb h] at hs
        cases hs
    · obtain ⟨s', o', rest', _, _, hstays⟩ := hA.advance hi rfl hcall hret hs
      exact hstays.intact

theorem Active.instruction {s : Shape} (hA : Active I p m b base s o rest) :
    ∃ i ls k, Active I p m b base ⟨s.words, k⟩ o (.instruction i :: ls) := by
  obtain ⟨i, ls, k, hat, hk⟩ := hA.position.instruction
  refine ⟨i, ls, k, hA.sound, hat, hA.pointer, hA.stack, hA.room, hA.low, hA.stacked, ?_, hA.suspended⟩
  intro r f hf
  cases hk with
  | inl hn =>
    subst hn
    cases hf
  | inr hk =>
    subst hk
    exact hA.known r f hf

theorem eq_of_halted (hs : m.step h = (m', h', .halted)) : m' = m := by
  rw [Machine.step] at hs
  split at hs
  · cases hs
    rfl
  · split at hs
    · cases hs
    · split at hs <;> cases hs

theorem Intact.ends (hI : I.CompleteFor p E) (hi : Intact I p m) (ha : m.At 5)
    (htop : m.get .stack = m.programOffset) (hs : m.step h = (m', h', .running)) :
    Intact I p m' ∧ m'.At I.program.length := by
  obtain ⟨middle, hcode⟩ := hI.code
  have hp := hI.placed
  have hlen := hI.length
  rw [hcode] at hp hlen
  have hend := hp.right.1
  rw [extent_append, extent_cons, extent_nil] at hlen
  have he : 0 + extent (bootstrap ++ middle) = I.program.length := by
    rw [hlen]
    exact Nat.zero_add _
  rw [he] at hend
  rw [step_jmp hi.loaded ha hp.tail hend h] at hs
  cases hs
  have hm := arrives_goto m I.program.length
  refine ⟨hi.after hm (Int.natCast_nonneg _) (.finished hm.position ?_), hm.position⟩
  rw [hm.others .stack (by simp) Register.stack_ne_instruction, htop, hm.programOffset]

/-- A step takes an intact machine to an intact one, if a function that is entered has room. -/
theorem Intact.step (hI : I.CompleteFor p E) (hE : E m') (hi : Intact I p m)
    (hs : m.step h = (m', h', .running)) : Intact I p m' := by
  cases hi.phase with
  | starting ha htop =>
    obtain ⟨b, he⟩ := enters_of_start hI hE hi ha htop hs
    exact he.intact
  | active hA =>
    obtain ⟨i, ls, k, hA⟩ := hA.instruction
    exact hA.step hI hE hi hs
  | returned ha htop => exact (hi.ends hI ha htop hs).1
  | finished ha =>
    rw [halts_of_end hi.loaded ha] at hs
    cases hs

/-! ### Runs -/

/-- An intact machine stands at an instruction of its program, or at the end. -/
theorem Intact.position (hI : I.CompleteFor p E) (hi : Intact I p m) :
    (∃ before i after, I.code = before ++ .instruction i :: after ∧ m.At (extent before)) ∨
      m.At I.program.length := by
  obtain ⟨middle, hcode⟩ := hI.code
  cases hi.phase with
  | starting ha => exact .inl ⟨[], _, _, hcode, ha⟩
  | active hA =>
    obtain ⟨i, ls, k, hA⟩ := hA.instruction
    obtain ⟨before, after, hsplit, rfl⟩ := hA.position.boundary hA.sound
    exact .inl ⟨before, i, ls ++ after, hsplit, hA.pointer⟩
  | returned ha => exact .inl ⟨[Code.call (.function .main)], _, _, hcode, ha⟩
  | finished ha => exact .inr ha

theorem Intact.fault (hI : I.CompleteFor p E) (hi : Intact I p m) {f : Fault}
    (hs : m.step h = (m', h', .fault f)) : f.Ordinary ∧ m'.memory = m.memory ∧
      m'.get .instruction = m.get .instruction := by
  obtain ⟨before, i, after, hcode, ha⟩ | ha := hi.position hI
  · have hp := hI.placed
    rw [hcode] at hp
    obtain ⟨⟨j, _, hj⟩, _⟩ := hp.right
    rw [Nat.zero_add] at hj
    rw [hi.loaded.step ha hj] at hs
    cases he : m.execute h (m.absolute (UInt32.ofNat (extent before)))
        (m.absolute (UInt32.ofNat (extent before + j.size))) j with
    | mk m₁ q =>
      rcases q with ⟨h₁, result⟩
      have hc := changes_execute he
      rw [he] at hs
      cases result with
      | ok next => cases hs
      | error g =>
        cases hs
        exact hc.fault _ rfl
  · rw [halts_of_end hi.loaded ha] at hs
    cases hs

/-- However a run goes on, it leaves the memory and the instruction pointer of an intact machine, and
what stops it is an instruction that could be read. -/
theorem Intact.run (hI : I.Complete p) (hi : Intact I p m) {n : Nat} {out : Outcome}
    (hr : run n m h = (m', h', out)) : ∃ m₁, Intact I p m₁ ∧ m'.memory = m₁.memory ∧
      m'.get .instruction = m₁.get .instruction ∧ ∀ f, out = .fault f → f.Ordinary := by
  induction n generalizing m h with
  | zero =>
    cases hr
    exact ⟨_, hi, rfl, rfl, by rintro f ⟨⟩⟩
  | succ n ih =>
    rw [Machine.run] at hr
    cases hs : m.step h with
    | mk m₂ q =>
      rcases q with ⟨h₂, o⟩
      rw [hs] at hr
      cases o with
      | running => exact ih (hi.step hI trivial hs) hr
      | halted =>
        cases hr
        exact ⟨m, hi, by rw [eq_of_halted hs], by rw [eq_of_halted hs], by rintro f ⟨⟩⟩
      | fault f =>
        cases hr
        obtain ⟨hf, hm, hp⟩ := hi.fault hI hs
        refine ⟨m, hi, hm, hp, ?_⟩
        rintro _ ⟨⟩
        exact hf

theorem intact_of_installed {size : Nat} (hsize : size = I.size)
    (hm : m.Installed size I.program) : Intact I p m :=
  ⟨hm.loaded, hm.size_eq.trans hsize, .starting hm.position hm.stack⟩

/-- Whatever a compiled program reads, and however long it has run: if its assignments go to variables
alone, its code is as it was installed, and the machine stands at one of its instructions or at the end
of memory. What stops it is never an instruction that cannot be read. -/
theorem code_intact {text : String} {fs : List Function} {code : Code} {program : List UInt8}
    {m₀ : Machine} (hp : parse text = .ok fs) (hc : compile text = .ok code)
    (ha : assemble (render code) = .ok program)
    (hdirect : ∀ f ∈ fs, Direct (Stmt.allTargets f.body)) (hm : m₀.install program = .ok m)
    (hroom : ∀ f ∈ fs, m₀.memory.size + 4 * f.locals.length < 4294967296) {n : Nat} {out : Outcome}
    (hr : run n m h = (m', h', out)) :
    m'.memory.size = m₀.memory.size ∧
    m'.memory.bytes.toList.drop m.programOffset.toNat = program ∧
    ((∃ before i after, code = before ++ .instruction i :: after ∧
        m'.get .instruction = m.absolute (UInt32.ofNat (extent before))) ∨
      (m'.get .instruction).toNat = m'.memory.size) ∧
    ∀ f, out = .fault f → f.Ordinary := by
  obtain ⟨codes, labels, hlinked, hcode⟩ := linked_of_compile hp hc ha
  have hI : (Image.ofCodes codes labels program m₀.memory.size).Complete (· ∈ defined fs) :=
    hlinked.complete hdirect hroom
  have hinst := Installed.of_install hm
  have hi : Intact (Image.ofCodes codes labels program m₀.memory.size) (· ∈ defined fs) m :=
    intact_of_installed rfl hinst
  obtain ⟨m₁, hi₁, hmem, hpos, hfault⟩ := hi.run hI hr
  have hstart : m.programOffset = m₁.programOffset := by
    have h₀ := hi.loaded.size_eq
    have h₁ := hi₁.loaded.size_eq
    rw [hi.size] at h₀
    rw [hi₁.size] at h₁
    exact UInt32.toNat_inj.1 (by omega)
  refine ⟨?_, ?_, ?_, hfault⟩
  · rw [hmem]
    exact hi₁.size
  · rw [hmem, hstart]
    exact hi₁.loaded.drop_eq
  · obtain ⟨before, i, after, hsplit, hat⟩ | hat := hi₁.position hI
    · refine .inl ⟨before, i, after, by rw [hcode]; exact hsplit, ?_⟩
      rw [hpos, hat, Machine.absolute, Machine.absolute, hstart]
    · refine .inr ?_
      rw [hmem, hpos, hat, hi₁.loaded.toNat_absolute (Nat.le_refl _)]
      exact hi₁.loaded.size_eq

/-- A program that calls itself until the stack leaves memory. -/
theorem code_intact_endless_recursion : ∃ fs code program m,
    parse "DEF main() x := 1; main(); END;" = .ok fs ∧
    compile "DEF main() x := 1; main(); END;" = .ok code ∧
    assemble (render code) = .ok program ∧ (Machine.empty 300).install program = .ok m ∧
    ∀ (h : WordQueue) n m' h' out, run n m h = (m', h', out) →
      m'.memory.size = 300 ∧ m'.memory.bytes.toList.drop m.programOffset.toNat = program ∧
      ((∃ before i after, code = before ++ .instruction i :: after ∧
          m'.get .instruction = m.absolute (UInt32.ofNat (extent before))) ∨
        (m'.get .instruction).toNat = m'.memory.size) ∧
      ∀ f, out = .fault f → f.Ordinary := by
  have hfits : fitsIn 300 "DEF main() x := 1; main(); END;" = true := by decide +kernel
  obtain ⟨fs, code, program, m, hp, hc, ha, hm⟩ := installed_of_fitsIn hfits
  have hsmall : (parse "DEF main() x := 1; main(); END;").toOption.any (fun fs => decide (∀ f ∈ fs,
      Direct (Stmt.allTargets f.body) ∧ 300 + 4 * f.locals.length < 4294967296)) = true := by
    decide +kernel
  rw [hp] at hsmall
  have hsmall := of_decide_eq_true hsmall
  have hsize : (Machine.empty 300).memory.size = 300 := Memory.size_zeros 300
  refine ⟨fs, code, program, m, hp, hc, ha, hm, fun h n m' h' out hr => ?_⟩
  have hkept := code_intact hp hc ha (fun f hf => (hsmall f hf).1) hm
    (fun f hf => hsize ▸ (hsmall f hf).2) hr
  rw [hsize] at hkept
  exact hkept

end WordMachine.Compiler
