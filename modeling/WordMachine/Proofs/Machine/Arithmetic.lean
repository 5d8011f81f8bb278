import Mathlib.Algebra.Ring.Int.Defs
import Mathlib.Algebra.Ring.Nat
import WordMachine.Proofs.Machine.Transfer
import WordMachine.Proofs.Source.Operators

/-!
# The arithmetic of the machine

Every arithmetic opcode has a meaning in the integers, unsigned or signed, and leaves the word that is
congruent to it modulo 2^32. The flags say of that word whether it is zero and whether its highest bit is
set, and of a sum or a difference whether it lies outside the unsigned words.
-/

namespace WordMachine

namespace Word

variable {w b : Word}

theorem ofInt_eq_zero_iff {x : Int} : ofInt x = 0 ↔ x % 4294967296 = 0 := by
  have hx := toNat_ofInt x
  have h0 : (0 : Word).toNat = 0 := rfl
  rw [← UInt32.toNat_inj]
  omega

theorem signed_ofInt_lt_zero_iff {x : Int} :
    (ofInt x).signed < 0 ↔ 2147483648 ≤ x % 4294967296 := by
  have hx := toNat_ofInt x
  rw [signed_lt_zero_iff]
  omega

/-! ### Shifts -/

theorem mul_two_pow_mod {n k : Nat} (hk : 32 ≤ k) : n * 2 ^ k % 4294967296 = 0 := by
  obtain ⟨j, rfl⟩ := Nat.exists_eq_add_of_le hk
  have h : n * 2 ^ (32 + j) = 4294967296 * (n * 2 ^ j) := by rw [Nat.pow_add, Nat.mul_left_comm]
  rw [h, Nat.mul_mod_right]

theorem lt_thirtytwo_iff : b < 32 ↔ b.toNat < 32 := UInt32.lt_iff_toNat_lt

theorem shift_eq_mul (hb : 0 ≤ b.signed) : w.shift b = UInt32.ofNat (w.toNat * 2 ^ b.toNat) := by
  apply UInt32.toNat_inj.1
  rw [shift, if_pos hb, UInt32.toNat_ofNat']
  by_cases hlt : b < 32
  · have hn := lt_thirtytwo_iff.1 hlt
    rw [if_pos hlt, UInt32.toNat_shiftLeft, Nat.mod_eq_of_lt hn, Nat.shiftLeft_eq]
  · have hn : 32 ≤ b.toNat := Nat.not_lt.1 fun h => hlt (lt_thirtytwo_iff.2 h)
    rw [if_neg hlt, mul_two_pow_mod hn]
    rfl

theorem toNat_neg_of_signed (hb : b.signed < 0) : (-b).toNat = b.signed.natAbs := by
  have hlt := b.toNat_lt
  have hs := signed_eq b
  have hsize : UInt32.size = 4294967296 := rfl
  rw [UInt32.toNat_neg, hsize]
  split at hs <;> omega

theorem shift_eq_div (hb : b.signed < 0) :
    w.shift b = UInt32.ofNat (w.toNat / 2 ^ b.signed.natAbs) := by
  have hw := w.toNat_lt
  rw [← toNat_neg_of_signed hb]
  have hle : w.toNat / 2 ^ (-b).toNat ≤ w.toNat := Nat.div_le_self _ _
  apply UInt32.toNat_inj.1
  rw [shift, if_neg (Int.not_le.2 hb), toNat_ofNat_of_lt (by omega)]
  by_cases hlt : -b < 32
  · have hn := lt_thirtytwo_iff.1 hlt
    rw [if_pos hlt, UInt32.toNat_shiftRight, Nat.mod_eq_of_lt hn, Nat.shiftRight_eq_div_pow]
  · have hn : 32 ≤ (-b).toNat := Nat.not_lt.1 fun h => hlt (lt_thirtytwo_iff.2 h)
    have hpow : 2 ^ 32 ≤ 2 ^ (-b).toNat := Nat.pow_le_pow_right (by decide) hn
    rw [if_neg hlt, Nat.div_eq_of_lt (by omega)]
    rfl

/-! ### Quotients and remainders -/

theorem signed_ne_zero (hb : b ≠ 0) : b.signed ≠ 0 := fun h => hb (signed_inj.1 h)

/-- The signed quotient and remainder that are left in words make up the dividend again, though the
quotient of the least word by minus one is not that of a word. -/
theorem eq_tdiv_mul_add_tmod (w b : Word) :
    w = ofInt (w.signed.tdiv b.signed) * b + ofInt (w.signed.tmod b.signed) := by
  have h : w.signed.tdiv b.signed * b.signed + w.signed.tmod b.signed = w.signed := by
    rw [Int.mul_comm, Int.mul_tdiv_add_tmod]
  calc w = ofInt (w.signed.tdiv b.signed * b.signed + w.signed.tmod b.signed) := by
        rw [h, ofInt_signed]
    _ = ofInt (w.signed.tdiv b.signed) * b + ofInt (w.signed.tmod b.signed) := by
        rw [ofInt_add, ofInt_mul, ofInt_signed]

theorem natAbs_tmod_lt (w : Word) (hb : b ≠ 0) :
    (w.signed.tmod b.signed).natAbs < b.signed.natAbs := by
  rw [Int.natAbs_tmod]
  exact Nat.mod_lt _ (Int.natAbs_pos.2 (signed_ne_zero hb))

theorem signed_tmod (w : Word) (hb : b ≠ 0) :
    (ofInt (w.signed.tmod b.signed)).signed = w.signed.tmod b.signed := by
  have hlt := natAbs_tmod_lt w hb
  have hn := b.toNat_lt
  have hs := signed_eq b
  have hle : b.signed.natAbs ≤ 2147483648 := by split at hs <;> omega
  exact signed_ofInt (by omega) (by omega)

theorem sign_tmod (w : Word) (hr : w.signed.tmod b.signed ≠ 0) :
    (w.signed.tmod b.signed).sign = w.signed.sign := by
  have h := Int.sign_tmod w.signed b.signed
  split at h
  · next hdvd => exact absurd (Int.tmod_eq_zero_of_dvd hdvd) hr
  · exact h

end Word

/-! ### The opcodes -/

/-- The integer that an opcode makes of two words, or of the first if it has one operand. -/
def Opcode.integer? (o : Opcode) (a b : Word) : Option Int :=
  match o with
  | .add => some (a.toNat + b.toNat)
  | .sub => some (a.toNat - b.toNat)
  | .smul => some (a.signed * b.signed)
  | .umul => some (a.toNat * b.toNat)
  | .sdiv => some (a.signed.tdiv b.signed)
  | .udiv => some (a.toNat / b.toNat)
  | .smod => some (a.signed.tmod b.signed)
  | .umod => some (a.toNat % b.toNat)
  | .neg => some (-a.toNat)
  | .not => some (-a.toNat - 1)
  | .shift =>
    some (if 0 ≤ b.signed then a.toNat * 2 ^ b.toNat else a.toNat / 2 ^ b.signed.natAbs)
  | _ => none

/-- The overflow flag after an opcode that makes an integer, and the flag before. -/
def Opcode.overflow (o : Opcode) (x : Int) (before : Bool) : Bool :=
  match o with
  | .add => 4294967296 ≤ x
  | .sub => x < 0
  | _ => before

namespace Machine

def integer? (m : Machine) (i : Instruction Word) : Option Int :=
  match i.operands.first?, i.operands.second? with
  | some a, some b => i.opcode.integer? (m.get a) (m.get b)
  | some a, none => i.opcode.integer? (m.get a) 0
  | none, _ => none

/-- What a step leaves that makes an integer. -/
structure Leaves (m : Machine) (i : Instruction Word) (x : Int) (m' : Machine) : Prop where
  result : ∀ r, i.operands.first? = some r → r ≠ .instruction → m'.get r = Word.ofInt x
  zero : m'.flags.zero = decide (x % 4294967296 = 0)
  sign : m'.flags.sign = decide (2147483648 ≤ x % 4294967296)
  overflow : m'.flags.overflow = i.opcode.overflow x m.flags.overflow

variable {m m' : Machine} {i : Instruction Word} {x : Int} {r : Register} {v : Word}

theorem eq_add (a b : Word) : a + b = Word.ofInt (a.toNat + b.toNat) := by
  rw [Word.ofInt_add, Word.ofInt_toNat, Word.ofInt_toNat]

theorem add_lt_iff (a b : Word) : a + b < b ↔ (4294967296 : Int) ≤ a.toNat + b.toNat := by
  have ha := a.toNat_lt
  have hb := b.toNat_lt
  rw [UInt32.lt_iff_toNat_lt, UInt32.toNat_add]
  omega

theorem lt_iff_sub_lt_zero (a b : Word) : a < b ↔ (a.toNat : Int) - b.toNat < 0 := by
  rw [UInt32.lt_iff_toNat_lt]
  omega

theorem eq_sub (a b : Word) : a - b = Word.ofInt (a.toNat - b.toNat) := by
  rw [Word.ofInt_sub, Word.ofInt_toNat, Word.ofInt_toNat]

theorem eq_mul (a b : Word) : a * b = Word.ofInt (a.toNat * b.toNat) := by
  rw [Word.ofInt_mul, Word.ofInt_toNat, Word.ofInt_toNat]

theorem eq_mul_signed (a b : Word) : a * b = Word.ofInt (a.signed * b.signed) := by
  rw [Word.ofInt_mul, Word.ofInt_signed, Word.ofInt_signed]

theorem eq_div (a b : Word) : a / b = Word.ofInt (a.toNat / b.toNat) := by
  rw [← Int.natCast_ediv, Word.ofInt_natCast]
  apply UInt32.toNat_inj.1
  have hle : a.toNat / b.toNat ≤ a.toNat := Nat.div_le_self _ _
  have ha := a.toNat_lt
  rw [UInt32.toNat_div, Word.toNat_ofNat_of_lt (by omega)]

theorem eq_mod (a b : Word) : a % b = Word.ofInt (a.toNat % b.toNat) := by
  rw [← Int.natCast_emod, Word.ofInt_natCast]
  apply UInt32.toNat_inj.1
  have hle : a.toNat % b.toNat ≤ a.toNat := Nat.mod_le _ _
  have ha := a.toNat_lt
  rw [UInt32.toNat_mod, Word.toNat_ofNat_of_lt (by omega)]

theorem eq_neg (a : Word) : -a = Word.ofInt (-a.toNat) := by
  rw [Word.ofInt_neg, Word.ofInt_toNat]

theorem eq_not (a : Word) : ~~~a = Word.ofInt (-a.toNat - 1) := by
  have h1 : Word.ofInt 1 = 1 := rfl
  rw [Word.ofInt_sub, Word.ofInt_neg, Word.ofInt_toNat, UInt32.not_eq_neg_sub, h1]

theorem eq_shift (a b : Word) : a.shift b = Word.ofInt
    (if 0 ≤ b.signed then a.toNat * 2 ^ b.toNat else a.toNat / 2 ^ b.signed.natAbs) := by
  by_cases hb : 0 ≤ b.signed
  · rw [if_pos hb, Word.shift_eq_mul hb, ← Word.ofInt_natCast]
    push_cast
    rfl
  · rw [if_neg hb, Word.shift_eq_div (Int.not_le.1 hb), ← Word.ofInt_natCast]
    push_cast
    rfl

/-! ### Instructions -/

section

variable {σ : Type} [Host σ] {h h' : σ}

theorem result?_of_integer? (h : σ) (hx : m.integer? i = some x) :
    ∃ r, i.operands.first? = some r ∧ m.result? h i = some (r, Word.ofInt x) := by
  rcases i with ⟨o, y⟩
  cases o <;> cases y
  case add a b =>
    cases hx
    exact ⟨a, rfl, by rw [result?, eq_add]⟩
  case sub a b =>
    cases hx
    exact ⟨a, rfl, by rw [result?, eq_sub]⟩
  case smul a b =>
    cases hx
    exact ⟨a, rfl, by rw [result?, Source.multiply_signed, eq_mul_signed]⟩
  case umul a b =>
    cases hx
    exact ⟨a, rfl, by rw [result?, eq_mul]⟩
  case sdiv a b =>
    cases hx
    exact ⟨a, rfl, by rw [result?, Source.ofInt_tdiv]⟩
  case udiv a b =>
    cases hx
    exact ⟨a, rfl, by rw [result?, eq_div]⟩
  case smod a b =>
    cases hx
    exact ⟨a, rfl, by rw [result?, Source.ofInt_tmod]⟩
  case umod a b =>
    cases hx
    exact ⟨a, rfl, by rw [result?, eq_mod]⟩
  case neg a =>
    cases hx
    exact ⟨a, rfl, by rw [result?, eq_neg]⟩
  case not a =>
    cases hx
    exact ⟨a, rfl, by rw [result?, eq_not]⟩
  case shift a b =>
    cases hx
    exact ⟨a, rfl, by rw [result?, eq_shift]⟩
  all_goals cases hx

theorem setsFlags_of_integer? (hx : m.integer? i = some x) : i.opcode.setsFlags = true := by
  rcases i with ⟨o, y⟩
  cases o <;> cases y <;> first | rfl | cases hx

theorem access?_of_integer? (hx : m.integer? i = some x) :
    m.access? i = none ∧ i.opcode.asksHost = false := by
  rcases i with ⟨o, y⟩
  cases o <;> cases y <;> first | exact ⟨rfl, rfl⟩ | cases hx

theorem overflow_of_compute {n : Machine} {address next k : Word} (hx : m.integer? i = some x)
    (hc : m.compute address next i = (n, .ok k)) :
    n.flags.overflow = i.opcode.overflow x m.flags.overflow := by
  by_cases ha : i.opcode = .add
  · rcases i with ⟨o, y⟩
    cases ha
    cases y with
    | regReg a b =>
      cases hx
      cases hc
      exact decide_eq_decide.2 (add_lt_iff _ _)
  · by_cases hs : i.opcode = .sub
    · rcases i with ⟨o, y⟩
      cases hs
      cases y with
      | regReg a b =>
        cases hx
        cases hc
        exact decide_eq_decide.2 (lt_iff_sub_lt_zero _ _)
    · rw [flags_of_compute ha hs hc]
      rcases i with ⟨o, y⟩
      cases o with
      | add => exact absurd rfl ha
      | sub => exact absurd rfl hs
      | _ => rfl

/-- An instruction that makes an integer has the word of that integer put into its first register, and
the flags describe it, whatever the registers are. -/
theorem leaves_of_integer? (hf : m.Fetches i) (hd : ∀ r, i.divisor? = some r → m.get r ≠ 0)
    (hx : m.integer? i = some x) (h : σ) : ∃ m', m.step h = (m', h, .running) ∧ m.Leaves i x m' := by
  have ha := access?_of_integer? hx
  have hruns : (m.step h).2.2 = .running := by
    have hin : ∀ a width, m.access? i = some (a, width) → a.toNat + width ≤ m.memory.size := by
      intro a width he
      rw [ha.1] at he
      cases he
    rw [step_outcome_iff, ends_running_iff]
    exact ⟨i, hf, hin, hd, not_refuses ha.2⟩
  have hstep := hf.step h
  rw [execute_eq_compute ha.2] at hstep
  cases hc : m.compute (m.get .instruction) (m.get .instruction + UInt32.ofNat i.size) i with
  | mk n answer =>
    rw [hc] at hstep
    cases answer with
    | error f =>
      rw [hstep] at hruns
      cases hruns
    | ok k =>
      have he := hf.effect hstep
      rcases result?_of_integer? h hx with ⟨r, hr, hv⟩
      rcases he.described (setsFlags_of_integer? hx) with ⟨q, w, hw, hflags⟩
      rw [hv] at hw
      cases hw
      refine ⟨_, hstep, ?_, ?_, ?_, ?_⟩
      · -- in the instruction pointer the next address replaces the result
        intro q hq hne
        rw [hr] at hq
        cases hq
        exact he.result _ _ hv hne
      · rw [hflags.1]
        exact decide_eq_decide.2 Word.ofInt_eq_zero_iff
      · rw [hflags.2]
        exact decide_eq_decide.2 Word.signed_ofInt_lt_zero_iff
      · have ho : (n.flagsAfter i).overflow = n.flags.overflow := overflow_flagsAfter
        exact ho.trans (overflow_of_compute hx hc)

end

/-- Every arithmetic instruction computes in the integers modulo 2^32, and its flags describe the word
that is left; both operands may be one register. Signed and unsigned products are the same. A signed
quotient and its remainder make up the dividend, and the remainder is nearer to zero than the divisor
and on the dividend's side of zero. -/
theorem arithmetic_exact :
    (∀ (m : Machine) (i : Instruction Word) (x : Int) (σ : Type) [Host σ] (h : σ), m.Fetches i →
      (∀ r, i.divisor? = some r → m.get r ≠ 0) → m.integer? i = some x →
      ∃ m', m.step h = (m', h, .running) ∧ m.Leaves i x m') ∧
    (∀ a b : Word, Word.ofInt (a.signed * b.signed) = Word.ofInt (a.toNat * b.toNat)) ∧
    ∀ a b : Word, b ≠ 0 →
      a = Word.ofInt (a.signed.tdiv b.signed) * b + Word.ofInt (a.signed.tmod b.signed) ∧
      (Word.ofInt (a.signed.tmod b.signed)).signed = a.signed.tmod b.signed ∧
      (a.signed.tmod b.signed).natAbs < b.signed.natAbs ∧
      (a.signed.tmod b.signed ≠ 0 → (a.signed.tmod b.signed).sign = a.signed.sign) := by
  refine ⟨fun m i x σ _ h hf hd hx => leaves_of_integer? hf hd hx h, fun a b => ?_, fun a b hb => ?_⟩
  · rw [← eq_mul_signed, eq_mul]
  · exact ⟨Word.eq_tdiv_mul_add_tmod a b, Word.signed_tmod a hb, Word.natAbs_tmod_lt a hb,
      Word.sign_tmod a⟩

/-- The least signed word divided by minus one is itself, and makes up the dividend. -/
theorem arithmetic_exact_least_by_minus_one : ∃ m m', (empty 3).install [18, 1, 2] = .ok m ∧
    ((m.set ⟨1⟩ 2147483648).set ⟨2⟩ 4294967295).step (WordQueue.ofWords []) =
      (m', .ofWords [], .running) ∧
    m'.get ⟨1⟩ = 2147483648 ∧ m'.flags.zero = false ∧ m'.flags.sign = true ∧
    (2147483648 : Word) = 2147483648 * 4294967295 + 0 := by
  have hcode : ((empty 3).install [18, 1, 2]).toOption.any (fun m => decide (
      [18, 1, 2] <+: m.memory.bytes.toList.drop
        (((m.set ⟨1⟩ 2147483648).set ⟨2⟩ 4294967295).get .instruction).toNat)) = true := by
    decide +kernel
  cases hm : (empty 3).install [18, 1, 2] with
  | error f =>
    rw [hm] at hcode
    cases hcode
  | ok m =>
    rw [hm] at hcode
    have hf : ((m.set ⟨1⟩ 2147483648).set ⟨2⟩ 4294967295).Fetches ⟨.sdiv, .regReg ⟨1⟩ ⟨2⟩⟩ := by
      show [18, 1, 2] <+: _
      exact of_decide_eq_true hcode
    have ha : ((m.set ⟨1⟩ 2147483648).set ⟨2⟩ 4294967295).get ⟨1⟩ = 2147483648 := by
      rw [get_set, if_neg (by decide), get_set, if_pos rfl]
    have hb : ((m.set ⟨1⟩ 2147483648).set ⟨2⟩ 4294967295).get ⟨2⟩ = 4294967295 := by
      rw [get_set, if_pos rfl]
    have hd : ∀ r, Instruction.divisor? (⟨.sdiv, .regReg ⟨1⟩ ⟨2⟩⟩ : Instruction Word) = some r →
        ((m.set ⟨1⟩ 2147483648).set ⟨2⟩ 4294967295).get r ≠ 0 := by
      intro r hr
      cases hr
      rw [hb]
      decide
    have hx : ((m.set ⟨1⟩ 2147483648).set ⟨2⟩ 4294967295).integer? ⟨.sdiv, .regReg ⟨1⟩ ⟨2⟩⟩ =
        some 2147483648 := by
      show some (Int.tdiv (Word.signed _) (Word.signed _)) = _
      rw [ha, hb]
      decide
    rcases arithmetic_exact.1 _ _ _ _ (WordQueue.ofWords []) hf hd hx with ⟨m', hs, hl⟩
    have hdivides := (arithmetic_exact.2.2 2147483648 4294967295 (by decide)).1
    exact ⟨m, m', rfl, hs, hl.result ⟨1⟩ rfl (by decide), hl.zero, hl.sign, hdivides⟩

end Machine
end WordMachine
