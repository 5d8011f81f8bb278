import Mathlib.Algebra.Ring.Nat
import WordMachine.Proofs.Machine.Memory
import WordMachine.Proofs.Machine.Transfer

/-!
# Memory and the stack

A store changes the bytes of its access to those of the word, least significant first, and no others, so
that a load finds new bytes where it overlaps the store and old ones beside it. Pushes and pops that
take off no more than was pushed treat the words below the stack pointer as a list of which the last
word pushed is the first, and touch nothing else.
-/

namespace WordMachine

/-- The byte of a word at a distance from the least significant one, which is zero past the fourth. -/
def Word.byteAt (w : Word) (i : Nat) : UInt8 := UInt8.ofNat (w.toNat / 256 ^ i)

/-- The byte at a place in memory once the bytes of a word have been put from an address on. -/
def Memory.overlaid (m : Memory) (a : Word) (width : Nat) (w : Word) (p : Nat) : Option UInt8 :=
  if a.toNat ≤ p ∧ p < a.toNat + width then some (w.byteAt (p - a.toNat)) else m.bytes[p]?

namespace Word

theorem byteAt_zero (w : Word) : w.byteAt 0 = w.toUInt8 := by
  rw [byteAt, Nat.pow_zero, Nat.div_one]
  rfl

theorem byteAt_succ (w : Word) (i : Nat) : w.byteAt (i + 1) = (w / 256).byteAt i := by
  rw [byteAt, byteAt, UInt32.toNat_div, Nat.pow_succ', Nat.div_div_eq_div_mul]
  rfl

theorem getElem?_lowBytes (n : Nat) (w : Word) (i : Nat) :
    (w.lowBytes n)[i]? = if i < n then some (w.byteAt i) else none := by
  induction n generalizing w i with
  | zero => rfl
  | succ n ih =>
    cases i with
    | zero => rw [lowBytes, List.getElem?_cons_zero, byteAt_zero, if_pos (Nat.succ_pos n)]
    | succ i =>
      rw [lowBytes, List.getElem?_cons_succ, ih, byteAt_succ]
      by_cases hi : i < n
      · rw [if_pos hi, if_pos (Nat.succ_lt_succ hi)]
      · rw [if_neg hi, if_neg (by omega)]

theorem toNat_ofBytes_cons (b : UInt8) {bs : List UInt8} (h : (ofBytes bs).toNat < 256 ^ 3) :
    (ofBytes (b :: bs)).toNat = b.toNat + 256 * (ofBytes bs).toNat := by
  have hb := b.toNat_lt
  rw [ofBytes, UInt32.toNat_add, UInt32.toNat_mul, UInt8.toNat_toUInt32]
  simp only [UInt32.reduceToNat]
  omega

theorem toNat_ofBytes_lt {bs : List UInt8} (h : bs.length ≤ 4) :
    (ofBytes bs).toNat < 256 ^ bs.length := by
  induction bs with
  | nil => decide
  | cons b bs ih =>
    have hlen : bs.length ≤ 3 := Nat.le_of_succ_le_succ h
    have hrest := ih (by omega)
    have hpow : 256 ^ bs.length ≤ 256 ^ 3 := Nat.pow_le_pow_right (by decide) hlen
    have hb := b.toNat_lt
    rw [toNat_ofBytes_cons b (Nat.lt_of_lt_of_le hrest hpow), List.length_cons, Nat.pow_succ]
    omega

theorem byteAt_ofBytes {bs : List UInt8} (h : bs.length ≤ 4) (i : Nat) :
    (ofBytes bs).byteAt i = bs[i]?.getD 0 := by
  induction bs generalizing i with
  | nil =>
    rw [byteAt, ofBytes, UInt32.toNat_zero, Nat.zero_div]
    rfl
  | cons b bs ih =>
    have hlen : bs.length ≤ 3 := Nat.le_of_succ_le_succ h
    have hrest : (ofBytes bs).toNat < 256 ^ bs.length := toNat_ofBytes_lt (by omega)
    have hpow : 256 ^ bs.length ≤ 256 ^ 3 := Nat.pow_le_pow_right (by decide) hlen
    have hcons := toNat_ofBytes_cons b (Nat.lt_of_lt_of_le hrest hpow)
    have hb := b.toNat_lt
    cases i with
    | zero =>
      have hmod : (b.toNat + 256 * (ofBytes bs).toNat) % 256 = b.toNat := by omega
      apply UInt8.toNat_inj.1
      rw [byteAt, hcons, Nat.pow_zero, Nat.div_one, UInt8.toNat_ofNat', hmod]
      rfl
    | succ i =>
      have hdiv : (b.toNat + 256 * (ofBytes bs).toNat) / 256 = (ofBytes bs).toNat := by omega
      rw [List.getElem?_cons_succ, ← ih (by omega), byteAt, byteAt, hcons, Nat.pow_succ',
        ← Nat.div_div_eq_div_mul, hdiv]

end Word

namespace Memory

variable {m : Memory} {a b w : Word} {width wide : Nat}

theorem getElem?_write_eq_overlaid (h : m.Holds a width) (p : Nat) :
    (m.write a width w).bytes[p]? = m.overlaid a width w p := by
  have hs : a.toNat + width ≤ m.size := h
  rw [getElem?_write, overlaid]
  by_cases hp : a.toNat ≤ p ∧ p < a.toNat + width
  · rw [if_pos hp, if_pos ⟨hp.1, hp.2, by omega⟩, Word.getElem?_lowBytes, if_pos (by omega)]
  · rw [if_neg hp, if_neg fun h => hp ⟨h.1, h.2.1⟩]

/-- The bytes of a word that is read are those of memory, and zero past its width. -/
theorem byteAt_read (h : m.Holds b wide) (hw : wide ≤ 4) (i : Nat) :
    some ((m.read b wide).byteAt i) = if i < wide then m.bytes[b.toNat + i]? else some 0 := by
  have hs : b.toNat + wide ≤ m.size := h
  have hlen : (m.window b wide).length ≤ 4 := by
    rw [window_eq, Array.length_toList, Array.size_extract]
    omega
  rw [read, Word.byteAt_ofBytes hlen, getElem?_window]
  by_cases hi : i < wide
  · have hlt : b.toNat + i < m.bytes.size := Nat.lt_of_lt_of_le (by omega) hs
    rw [if_pos hi, if_pos hi, Array.getElem?_eq_getElem hlt, Option.getD_some]
  · rw [if_neg hi, if_neg hi, Option.getD_none]

end Memory

namespace Machine

/-! ### Stores and loads -/

/-- A store of a word has changed its bytes in memory and no others, and what is loaded next is made of
the bytes stored and of old ones. -/
structure Stored (m : Machine) (a : Word) (width : Nat) (w : Word) (m' : Machine) : Prop where
  size : m'.memory.size = m.memory.size
  inside : ∀ i < width, m'.memory.bytes[a.toNat + i]? = some (w.byteAt i)
  outside : ∀ p, p < a.toNat ∨ a.toNat + width ≤ p → m'.memory.bytes[p]? = m.memory.bytes[p]?
  loaded : ∀ r b wide next, wide ≤ 4 → b.toNat + wide ≤ m.memory.size →
    ∃ n, m'.load r b wide next = (n, .ok next) ∧ ∀ i, some ((n.get r).byteAt i) =
      if i < wide then m.memory.overlaid a width w (b.toNat + i) else some 0

variable {m m' n : Machine} {a w next k : Word} {width : Nat} {f : Fault}

theorem holds_of_store (h : m.store a width w next = (m', .ok k)) : m.memory.Holds a width := by
  by_cases hb : m.memory.Holds a width
  · exact hb
  · rw [store_of_not_holds hb] at h
    cases h

theorem stored_of_store (h : m.store a width w next = (m', .ok k)) : m.Stored a width w m' := by
  have hb := holds_of_store h
  obtain ⟨rfl, _⟩ := store_eq_ok h
  have hbytes := Memory.getElem?_write_eq_overlaid (w := w) hb
  refine ⟨Memory.size_write .., fun i hi => ?_, fun p hp => ?_, fun r b wide next hw hwide => ?_⟩
  · rw [hbytes, Memory.overlaid, if_pos (by omega), Nat.add_sub_cancel_left]
  · exact Memory.getElem?_write_outside _ _ _ _ hp
  · have hholds : (m.memory.write a width w).Holds b wide := by rwa [Memory.Holds, Memory.size_write]
    refine ⟨_, load_of_holds hholds, fun i => ?_⟩
    rw [get_set_self, Memory.byteAt_read hholds hw, hbytes]

end Machine

/-! ### Pushes and pops -/

inductive StackAct
  /-- a word is pushed, by an instruction that goes on at `next` -/
  | push (w next : Word)
  | pop

namespace StackAct

def isPush : StackAct → Bool
  | push _ _ => true
  | pop => false

@[simp] theorem isPush_push (w next : Word) : (push w next).isPush = true := rfl
@[simp] theorem isPush_pop : pop.isPush = false := rfl

/-- The words that are popped from a list of words, the last one pushed first, and those that are left on
it in the end. There are none if a word is popped from an empty list. -/
def lastInFirstOut : List StackAct → List Word → Option (List Word × List Word)
  | [], held => some ([], held)
  | push w _ :: acts, held => lastInFirstOut acts (w :: held)
  | pop :: _, [] => none
  | pop :: acts, w :: held => (lastInFirstOut acts held).map fun p => (w :: p.1, p.2)

/-- At no time more words have been popped than were pushed and are there at first. -/
def Covered (held : Nat) (acts : List StackAct) : Prop :=
  ∀ n, (acts.take n).countP (!·.isPush) ≤ held + (acts.take n).countP isPush

/-- The greatest number of words held at any time, if there are so many at first. -/
def deepest : List StackAct → Nat → Nat
  | [], held => held
  | push _ _ :: acts, held => max held (deepest acts (held + 1))
  | pop :: acts, held => max held (deepest acts (held - 1))

variable {acts : List StackAct} {held : List Word}

theorem le_deepest (acts : List StackAct) (held : Nat) : held ≤ deepest acts held := by
  cases acts with
  | nil => exact Nat.le_refl held
  | cons act acts => cases act <;> exact Nat.le_max_left ..

theorem Covered.of_push {k : Nat} {w next : Word} (h : Covered k (.push w next :: acts)) :
    Covered (k + 1) acts := by
  intro n
  have hn := h (n + 1)
  simp only [List.take_succ_cons, List.countP_cons, isPush_push, Bool.not_true, Bool.false_eq_true,
    if_true, if_false] at hn
  omega

theorem Covered.of_pop {k : Nat} (h : Covered k (.pop :: acts)) : 1 ≤ k ∧ Covered (k - 1) acts := by
  have hcount : ∀ n, (acts.take n).countP (!·.isPush) + 1 ≤ k + (acts.take n).countP isPush := by
    intro n
    have hn := h (n + 1)
    simpa only [List.take_succ_cons, List.countP_cons, isPush_pop, Bool.not_false, Bool.false_eq_true,
      if_true, if_false, Nat.add_zero] using hn
  have hzero : 1 ≤ k := by simpa using hcount 0
  refine ⟨hzero, fun n => ?_⟩
  have hn := hcount n
  omega

/-- A list that starts with enough words never lacks one. -/
theorem exists_lastInFirstOut (h : Covered held.length acts) :
    ∃ popped left, lastInFirstOut acts held = some (popped, left) := by
  induction acts generalizing held with
  | nil => exact ⟨[], held, rfl⟩
  | cons act acts ih =>
    cases act with
    | push w next => exact ih h.of_push
    | pop =>
      obtain ⟨hone, hrest⟩ := h.of_pop
      cases held with
      | nil => cases hone
      | cons w held =>
        obtain ⟨popped, left, hl⟩ := ih hrest
        exact ⟨w :: popped, left, by rw [lastInFirstOut, hl]; rfl⟩

end StackAct

namespace Machine

open StackAct

/-- The machine does one thing after another without a fault, and pops these words. -/
inductive Performs : Machine → List StackAct → List Word → Machine → Prop
  | nil {m} : Performs m [] [] m
  | push {m m₁ n w next k acts popped} : m.push w next = (m₁, .ok k) → Performs m₁ acts popped n →
      Performs m (.push w next :: acts) popped n
  | pop {m m₁ n w acts popped} : m.pop = (m₁, .ok w) → Performs m₁ acts popped n →
      Performs m (.pop :: acts) (w :: popped) n

/-- The words of a list lie below an address one above the other, the first one on top of the stack. -/
structure Carries (m : Machine) (base : Nat) (held : List Word) : Prop where
  stack : (m.get .stack).toNat + 4 * held.length = base
  words : ∀ (i : Nat) w, held[i]? = some w → m.memory.word? ((m.get .stack).toNat + 4 * i) = some w

/-- Of a machine only the stack pointer and the bytes from one address up to another have changed. -/
structure Beside (m : Machine) (lo hi : Nat) (n : Machine) : Prop where
  size : n.memory.size = m.memory.size
  bytes : ∀ p, p < lo ∨ hi ≤ p → n.memory.bytes[p]? = m.memory.bytes[p]?
  registers : ∀ r, r ≠ .stack → n.get r = m.get r
  flags : n.flags = m.flags
  programOffset : n.programOffset = m.programOffset

variable {m m₁ n : Machine} {w v next k : Word} {held left popped popped' : List Word}
  {acts : List StackAct} {base lo hi lo' hi' : Nat}

theorem Beside.refl (m : Machine) (lo hi : Nat) : m.Beside lo hi m :=
  ⟨rfl, fun _ _ => rfl, fun _ _ => rfl, rfl, rfl⟩

theorem Beside.trans (h : m.Beside lo hi m₁) (h' : m₁.Beside lo hi n) : m.Beside lo hi n where
  size := h'.size.trans h.size
  bytes p hp := (h'.bytes p hp).trans (h.bytes p hp)
  registers r hr := (h'.registers r hr).trans (h.registers r hr)
  flags := h'.flags.trans h.flags
  programOffset := h'.programOffset.trans h.programOffset

theorem Beside.mono (h : m.Beside lo hi n) (hlo : lo' ≤ lo) (hhi : hi ≤ hi') : m.Beside lo' hi' n :=
  ⟨h.size, fun p hp => h.bytes p (by omega), h.registers, h.flags, h.programOffset⟩

/-- The next word pushed has room if the stack pointer lies in memory or just past it, and not among the
first bytes. -/
theorem holds_push_iff : m.memory.Holds (m.get .stack - 4) 4 ↔
    4 ≤ (m.get .stack).toNat ∧ (m.get .stack).toNat ≤ m.memory.size := by
  have hs : m.memory.size < 4294967296 := m.memory.size_lt
  have hlt := (m.get .stack).toNat_lt
  rw [Memory.Holds, UInt32.toNat_sub]
  simp only [UInt32.reduceToNat]
  omega

theorem toNat_stack_sub (h : 4 ≤ (m.get .stack).toNat) :
    (m.get .stack - 4).toNat = (m.get .stack).toNat - 4 := by
  have hlt := (m.get .stack).toNat_lt
  rw [UInt32.toNat_sub]
  simp only [UInt32.reduceToNat]
  omega

theorem holds_of_push (h : m.push w next = (m₁, .ok k)) :
    4 ≤ (m.get .stack).toNat ∧ (m.get .stack).toNat ≤ m.memory.size := by
  by_cases hb : m.memory.Holds (m.get .stack - 4) 4
  · exact holds_push_iff.1 hb
  · rw [push_of_not_holds hb] at h
    cases h

theorem memory_of_push (h : m.push w next = (m₁, .ok k)) :
    m₁.memory = m.memory.write (m.get .stack - 4) 4 w := by
  rw [(push_eq_ok h).1]

theorem get_of_push (h : m.push w next = (m₁, .ok k)) (r : Register) :
    m₁.get r = if r = .stack then m.get .stack - 4 else m.get r := by
  have hregisters : m₁.registers = m.registers.set .stack (m.get .stack - 4) := by
    rw [(push_eq_ok h).1]
    rfl
  have hget := m.registers.get_set .stack r (m.get .stack - 4)
  rw [← hregisters] at hget
  exact hget

theorem stack_of_push (h : m.push w next = (m₁, .ok k)) : m₁.get .stack = m.get .stack - 4 :=
  (get_of_push h .stack).trans (if_pos rfl)

theorem beside_of_push (h : m.push w next = (m₁, .ok k)) :
    m.Beside ((m.get .stack).toNat - 4) (m.get .stack).toNat m₁ := by
  obtain ⟨hlo, _⟩ := holds_of_push h
  have htop := toNat_stack_sub hlo
  have hmemory := memory_of_push h
  refine ⟨?_, fun p hp => ?_, fun r hr => ?_, ?_, ?_⟩
  · rw [hmemory]
    exact Memory.size_write ..
  · rw [hmemory]
    exact Memory.getElem?_write_outside m.memory (m.get .stack - 4) 4 w (by omega)
  · rw [get_of_push h, if_neg hr]
  · rw [(push_eq_ok h).1]
    rfl
  · rw [(push_eq_ok h).1]
    rfl

theorem Carries.push (hp : m.Carries base held) (h : m.push w next = (m₁, .ok k)) :
    m₁.Carries base (w :: held) := by
  obtain ⟨hlo, hhi⟩ := holds_of_push h
  have hbase := hp.stack
  have htop : (m₁.get .stack).toNat + 4 = (m.get .stack).toNat := by
    have hsub := toNat_stack_sub hlo
    rw [stack_of_push h]
    omega
  have hmemory : m₁.memory = m.memory.write (Word.ofInt (m₁.get .stack).toNat) 4 w := by
    rw [Word.ofInt_toNat, stack_of_push h, memory_of_push h]
  refine ⟨?_, fun i v hv => ?_⟩
  · rw [List.length_cons]
    omega
  · rw [hmemory]
    cases i with
    | zero =>
      cases hv
      simpa using Memory.word?_write_self (m := m.memory) (x := (m₁.get .stack).toNat) w (by omega)
        (by omega)
    | succ i =>
      have hplace : ((m₁.get .stack).toNat : Int) + 4 * (i + 1 : Nat) = (m.get .stack).toNat + 4 * i := by
        omega
      rw [hplace, Memory.word?_write_outside w (by omega) (by omega) (by omega)]
      exact hp.words i v hv

theorem Carries.pop (hp : m.Carries base (v :: held)) (h : m.pop = (m₁, .ok w)) :
    w = v ∧ m₁.Carries base held ∧ m.Beside base base m₁ := by
  have hbase := hp.stack
  have hword := hp.words 0 v rfl
  have hs : m.memory.size < 4294967296 := m.memory.size_lt
  obtain ⟨_, hbound⟩ := Memory.bounds_of_word? hword
  have htop : (m.get .stack + 4).toNat = (m.get .stack).toNat + 4 := by
    rw [UInt32.toNat_add]
    simp only [UInt32.reduceToNat]
    omega
  have hafter := (pop_eq_ok h).1
  have hstack : m₁.get .stack = m.get .stack + 4 := by rw [hafter, get_set_self]
  refine ⟨?_, ⟨?_, fun i v' hv => ?_⟩, ?_⟩
  · have hread := Memory.read_of_word? hword
    have haddress : Word.ofInt ((m.get .stack).toNat + 4 * (0 : Nat)) = m.get .stack := by
      rw [Int.natCast_zero, Int.mul_zero, Int.add_zero, Word.ofInt_toNat]
    rw [(pop_eq_ok h).2, ← hread, haddress]
  · rw [List.length_cons] at hbase
    rw [hstack]
    omega
  · have hplace : ((m.get .stack + 4).toNat : Int) + 4 * i = (m.get .stack).toNat + 4 * (i + 1 : Nat) := by
      omega
    rw [hafter, memory_set, get_set_self, hplace]
    exact hp.words (i + 1) v' hv
  · rw [hafter]
    exact ⟨rfl, fun _ _ => rfl, fun r hr => by rw [get_set, if_neg hr], rfl, rfl⟩

theorem Performs.carries (h : Performs m acts popped n) (hp : m.Carries base held)
    (hl : lastInFirstOut acts held = some (popped', left)) :
    popped = popped' ∧ n.Carries base left ∧ m.Beside (base - 4 * deepest acts held.length) base n := by
  induction h generalizing held popped' with
  | nil =>
    cases hl
    exact ⟨rfl, hp, .refl _ _ _⟩
  | @push m m₁ n w next k acts popped hpush _ ih =>
    have hp₁ := hp.push hpush
    have hb := beside_of_push hpush
    obtain ⟨hpopped, hn, hb₁⟩ := ih hp₁ hl
    have hbase := hp.stack
    have hdeep := le_deepest acts (held.length + 1)
    have hmax : deepest (.push w next :: acts) held.length =
        max held.length (deepest acts (held.length + 1)) := rfl
    rw [List.length_cons] at hb₁
    exact ⟨hpopped, hn, (hb.mono (by omega) (by omega)).trans (hb₁.mono (by omega) (Nat.le_refl _))⟩
  | @pop m m₁ n w acts popped hpop _ ih =>
    cases held with
    | nil => cases hl
    | cons v held =>
      obtain ⟨⟨words, rest⟩, hrest, hpair⟩ := Option.map_eq_some_iff.1 hl
      cases hpair
      obtain ⟨rfl, hp₁, hb⟩ := hp.pop hpop
      obtain ⟨rfl, hn, hb₁⟩ := ih hp₁ hrest
      have hmax : deepest (.pop :: acts) (held.length + 1) =
          max (held.length + 1) (deepest acts held.length) := rfl
      rw [List.length_cons, hmax]
      exact ⟨rfl, hn, (hb.mono (by omega) (Nat.le_refl _)).trans (hb₁.mono (by omega) (Nat.le_refl _))⟩

theorem Carries.exists_pop (hp : m.Carries base (w :: held)) : ∃ n, m.pop = (n, .ok w) := by
  have hword := hp.words 0 w rfl
  have hread := Memory.read_of_word? hword
  obtain ⟨_, hbound⟩ := Memory.bounds_of_word? hword
  rw [Int.natCast_zero, Int.mul_zero, Int.add_zero] at hread hbound
  rw [Word.ofInt_toNat] at hread
  have hholds : m.memory.Holds (m.get .stack) 4 := by
    rw [Memory.Holds]
    omega
  exact ⟨_, by rw [pop_of_holds hholds, hread]⟩

/-- With room for as many words as are held at any time, nothing faults. -/
theorem Carries.exists_performs (hp : m.Carries base held) (hs : base ≤ m.memory.size)
    (hl : lastInFirstOut acts held = some (popped, left)) (hd : 4 * deepest acts held.length ≤ base) :
    ∃ n, Performs m acts popped n := by
  induction acts generalizing m held popped with
  | nil =>
    cases hl
    exact ⟨m, .nil⟩
  | cons act acts ih =>
    have hbase := hp.stack
    cases act with
    | push w next =>
      have hdeep := le_deepest acts (held.length + 1)
      have hmax : deepest (.push w next :: acts) held.length =
          max held.length (deepest acts (held.length + 1)) := rfl
      rw [hmax] at hd
      have hroom : m.memory.Holds (m.get .stack - 4) 4 := holds_push_iff.2 ⟨by omega, by omega⟩
      obtain ⟨m₁, hpush⟩ : ∃ m₁, m.push w next = (m₁, .ok next) := ⟨_, push_of_holds hroom⟩
      have hp₁ := hp.push hpush
      have hb := beside_of_push hpush
      obtain ⟨n, hn⟩ := ih hp₁ (hb.size ▸ hs) hl (by rw [List.length_cons]; omega)
      exact ⟨n, .push hpush hn⟩
    | pop =>
      cases held with
      | nil => cases hl
      | cons v held =>
        obtain ⟨⟨words, rest⟩, hrest, hpair⟩ := Option.map_eq_some_iff.1 hl
        cases hpair
        have hmax : deepest (.pop :: acts) (held.length + 1) =
            max (held.length + 1) (deepest acts held.length) := rfl
        rw [List.length_cons, hmax] at hd
        obtain ⟨m₁, hpop⟩ := hp.exists_pop
        obtain ⟨_, hp₁, hb⟩ := hp.pop hpop
        obtain ⟨n, hn⟩ := ih hp₁ (hb.size ▸ hs) hrest (by omega)
        exact ⟨n, .pop hpop hn⟩

theorem carries_nil (m : Machine) : m.Carries (m.get .stack).toNat [] := ⟨rfl, fun i w hw => by cases hw⟩

/-- After pushes and pops a machine has popped the words of a last-in first-out list, and those that are
left on the list lie on the stack, the last one pushed on top. From the least address that was pushed to
up to where the stack began memory may have changed, and of the rest only the stack pointer. -/
structure Stacked (m : Machine) (acts : List StackAct) (popped : List Word) (n : Machine) : Prop where
  words : ∃ held, lastInFirstOut acts [] = some (popped, held) ∧
    (n.get .stack).toNat + 4 * held.length = (m.get .stack).toNat ∧
    (∀ (i : Nat) w, held[i]? = some w → n.memory.word? ((n.get .stack).toNat + 4 * i) = some w) ∧
    ∀ w rest, held = w :: rest → ∃ n', n.pop = (n', .ok w)
  bytes : ∀ p, p + 4 * deepest acts 0 < (m.get .stack).toNat ∨ (m.get .stack).toNat ≤ p →
    n.memory.bytes[p]? = m.memory.bytes[p]?
  size : n.memory.size = m.memory.size
  registers : ∀ r, r ≠ .stack → n.get r = m.get r
  flags : n.flags = m.flags
  programOffset : n.programOffset = m.programOffset

theorem Performs.stacked (h : Performs m acts popped n) (hc : Covered 0 acts) :
    m.Stacked acts popped n := by
  have hempty : Covered ([] : List Word).length acts := hc
  obtain ⟨popped', held, hl⟩ := exists_lastInFirstOut hempty
  obtain ⟨rfl, hn, hb⟩ := h.carries m.carries_nil hl
  refine ⟨⟨held, hl, hn.stack, hn.words, ?_⟩, fun p hp => hb.bytes p ?_, hb.size, hb.registers,
    hb.flags, hb.programOffset⟩
  · rintro w rest rfl
    exact hn.exists_pop
  · rw [List.length_nil]
    omega

theorem push_eq_error_iff_stack {f : Fault} : (m.push w next).2 = .error f ↔
    f = .outOfBounds (m.get .stack - 4) 4 ∧
      ((m.get .stack).toNat < 4 ∨ m.memory.size < (m.get .stack).toNat) := by
  rw [push_eq_error_iff, holds_push_iff, and_comm]
  refine and_congr_right fun _ => ?_
  omega

/-- A store that succeeds changes the bytes of its access and no others, and loads show the bytes that are
there then. Pushes and pops that succeed and never take off more than was pushed treat the stack as a
list, and a push fails exactly if the stack pointer is among the first four bytes of memory or past the
end. -/
theorem memory_and_stack (m : Machine) :
    (∀ a width w next m' k, m.store a width w next = (m', .ok k) → m.Stored a width w m') ∧
    (∀ acts popped n, Performs m acts popped n → Covered 0 acts → m.Stacked acts popped n) ∧
    ∀ w next f, (m.push w next).2 = .error f ↔ f = .outOfBounds (m.get .stack - 4) 4 ∧
      ((m.get .stack).toNat < 4 ∨ m.memory.size < (m.get .stack).toNat) :=
  ⟨fun _ _ _ _ _ _ h => stored_of_store h, fun _ _ _ h hc => h.stacked hc,
    fun _ _ _ => push_eq_error_iff_stack⟩

/-- A store of two bytes into memory of eight, and three words that are pushed of which two are popped. -/
theorem memory_and_stack_eight_bytes : ∃ m m' n, m = (empty 8).set .stack 8 ∧
    m.store 3 2 0x11223344 0 = (m', .ok 0) ∧ m.Stored 3 2 0x11223344 m' ∧
    Performs m [.push 1 0, .pop, .push 2 0, .push 3 0, .pop] [1, 3] n ∧
    Covered 0 [.push 1 0, .pop, .push 2 0, .push 3 0, .pop] ∧
    m.Stacked [.push 1 0, .pop, .push 2 0, .push 3 0, .pop] [1, 3] n := by
  have hsize : ((empty 8).set .stack 8).memory.size = 8 := Memory.size_zeros 8
  have hstack : ((empty 8).set .stack 8).get .stack = 8 := get_set_self ..
  have hstore : ((empty 8).set .stack 8).store 3 2 0x11223344 0 = (_, .ok 0) := store_of_holds (by
    rw [Memory.Holds, hsize]
    decide)
  have hcovered : Covered 0 [.push 1 0, .pop, .push 2 0, .push 3 0, .pop] := by
    intro n
    rcases n with _ | _ | _ | _ | _ | n <;> simp [List.countP_cons]
  have hlist : lastInFirstOut [.push 1 0, .pop, .push 2 0, .push 3 0, .pop] [] =
      some ([1, 3], [2]) := rfl
  obtain ⟨n, hn⟩ := (carries_nil ((empty 8).set .stack 8)).exists_performs
    (by rw [hstack, hsize]; decide) hlist (by rw [hstack]; decide)
  have hlaws := memory_and_stack ((empty 8).set .stack 8)
  exact ⟨_, _, n, rfl, hstore, hlaws.1 _ _ _ _ _ _ hstore, hn, hcovered, hlaws.2.1 _ _ _ hn hcovered⟩

end Machine

end WordMachine
