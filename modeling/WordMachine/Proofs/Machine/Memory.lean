import WordMachine.Machine.Memory
import WordMachine.Proofs.Word

/-!
# Reading what was written

A word that is written is read back, and a word that does not overlap it is left as it was. Code and
stack lie apart in memory, so most of what follows needs only that memory agrees from an address on.
-/

namespace WordMachine.Memory

/-! ### Windows -/

theorem getElem?_window (m : Memory) (a : Word) (width i : Nat) :
    (m.window a width)[i]? = if i < width then m.bytes[a.toNat + i]? else none := by
  rw [window_eq, Array.getElem?_toList, Array.getElem?_extract]
  by_cases hi : i < width
  · by_cases hs : a.toNat + i < m.bytes.size
    · have h : i < min (a.toNat + width) m.bytes.size - a.toNat := by omega
      rw [if_pos h, if_pos hi]
    · have h : ¬i < min (a.toNat + width) m.bytes.size - a.toNat := by omega
      rw [if_neg h, if_pos hi, Array.getElem?_eq_none (by omega)]
  · have h : ¬i < min (a.toNat + width) m.bytes.size - a.toNat := by omega
    rw [if_neg h, if_neg hi]

theorem window_congr {m n : Memory} {a : Word} {width : Nat}
    (h : ∀ i, a.toNat ≤ i → i < a.toNat + width → n.bytes[i]? = m.bytes[i]?) :
    n.window a width = m.window a width := by
  apply List.ext_getElem?
  intro i
  rw [getElem?_window, getElem?_window]
  by_cases hi : i < width
  · rw [if_pos hi, if_pos hi, h (a.toNat + i) (by omega) (by omega)]
  · rw [if_neg hi, if_neg hi]

theorem read_congr {m n : Memory} {a : Word} {width : Nat}
    (h : ∀ i, a.toNat ≤ i → i < a.toNat + width → n.bytes[i]? = m.bytes[i]?) :
    n.read a width = m.read a width := by
  rw [read, read, window_congr h]

/-! ### Writes -/

theorem getElem?_write_outside (m : Memory) (a : Word) (width : Nat) (v : Word) {i : Nat}
    (h : i < a.toNat ∨ a.toNat + width ≤ i) : (m.write a width v).bytes[i]? = m.bytes[i]? := by
  rw [getElem?_write, if_neg (by omega)]

theorem read_write_outside (m : Memory) (a b v : Word)
    (h : b.toNat + 4 ≤ a.toNat ∨ a.toNat + 4 ≤ b.toNat) :
    (m.write a 4 v).read b 4 = m.read b 4 := by
  apply read_congr
  intro i hi hlt
  exact getElem?_write_outside m a 4 v (by omega)

theorem window_write_self {m : Memory} {a : Word} {width : Nat} (v : Word) (h : m.Holds a width) :
    (m.write a width v).window a width = v.lowBytes width := by
  apply List.ext_getElem?
  intro i
  rw [getElem?_window, getElem?_write]
  by_cases hi : i < width
  · have hs : a.toNat + width ≤ m.size := h
    rw [if_pos hi, if_pos (by omega), Nat.add_sub_cancel_left]
  · rw [if_neg hi, List.getElem?_eq_none (by rw [Word.length_lowBytes]; omega)]

theorem read_write_self {m : Memory} {a : Word} (v : Word) (h : m.Holds a 4) :
    (m.write a 4 v).read a 4 = v := by
  rw [read, window_write_self v h, Word.ofBytes_lowBytes]

/-! ### Words at integer addresses

The stack pointer can leave memory at its lower end, so the addresses of a frame are integers. -/

def word? (m : Memory) (x : Int) : Option Word :=
  if 0 ≤ x ∧ x + 4 ≤ m.size then some (m.read (Word.ofInt x) 4) else none

/-- Memory holds the same bytes from an address on. -/
def AgreeFrom (m n : Memory) (x : Int) : Prop :=
  n.size = m.size ∧ ∀ i : Nat, x ≤ i → n.bytes[i]? = m.bytes[i]?

theorem AgreeFrom.refl (m : Memory) (x : Int) : m.AgreeFrom m x := ⟨rfl, fun _ _ => rfl⟩

theorem AgreeFrom.trans {m n k : Memory} {x : Int} (h : m.AgreeFrom n x) (h' : n.AgreeFrom k x) :
    m.AgreeFrom k x :=
  ⟨h'.1.trans h.1, fun i hi => (h'.2 i hi).trans (h.2 i hi)⟩

theorem AgreeFrom.mono {m n : Memory} {x y : Int} (h : m.AgreeFrom n x) (hxy : x ≤ y) :
    m.AgreeFrom n y :=
  ⟨h.1, fun i hi => h.2 i (by omega)⟩

theorem AgreeFrom.eq {m n : Memory} (h : m.AgreeFrom n 0) : n = m :=
  ext_bytes fun i => h.2 i (by omega)

theorem toNat_ofInt_of_holds {m : Memory} {x : Int} (h : 0 ≤ x) (hx : x + 4 ≤ m.size) :
    ((Word.ofInt x).toNat : Int) = x := by
  have hs : m.size < 4294967296 := m.size_lt
  exact Word.toNat_ofInt_of_nonneg h (by omega)

theorem holds_ofInt {m : Memory} {x : Int} (h : 0 ≤ x) (hx : x + 4 ≤ m.size) : m.Holds (Word.ofInt x) 4 := by
  have hn := toNat_ofInt_of_holds h hx
  rw [Holds]
  omega

/-- An address that has left memory by less than what lies above memory is not in memory. -/
theorem holds_ofInt_iff {m : Memory} {x : Int} (hneg : -4294967296 ≤ x)
    (hlo : (m.size : Int) < x + 4294967300) (hhi : x < 4294967296) :
    m.Holds (Word.ofInt x) 4 ↔ 0 ≤ x ∧ x + 4 ≤ m.size := by
  have hs : m.size < 4294967296 := m.size_lt
  rw [Holds]
  by_cases hx : 0 ≤ x
  · have h := Word.toNat_ofInt_of_nonneg hx hhi
    omega
  · have h := Word.toNat_ofInt_of_neg (x := x) (by omega) (by omega)
    omega

theorem word?_eq_some {m : Memory} {x : Int} (h : 0 ≤ x) (hx : x + 4 ≤ m.size) :
    m.word? x = some (m.read (Word.ofInt x) 4) := if_pos ⟨h, hx⟩

theorem bounds_of_word? {m : Memory} {x : Int} {v : Word} (h : m.word? x = some v) :
    0 ≤ x ∧ x + 4 ≤ m.size := by
  by_cases hx : 0 ≤ x ∧ x + 4 ≤ m.size
  · exact hx
  · rw [word?, if_neg hx] at h
    cases h

theorem holds_of_word? {m : Memory} {x : Int} {v : Word} (h : m.word? x = some v) :
    m.Holds (Word.ofInt x) 4 :=
  holds_ofInt (bounds_of_word? h).1 (bounds_of_word? h).2

theorem read_of_word? {m : Memory} {x : Int} {v : Word} (h : m.word? x = some v) :
    m.read (Word.ofInt x) 4 = v := by
  obtain ⟨h0, hx⟩ := bounds_of_word? h
  rw [word?_eq_some h0 hx] at h
  exact Option.some.inj h

theorem AgreeFrom.word? {m n : Memory} {x y : Int} (h : m.AgreeFrom n x) (hxy : x ≤ y) :
    n.word? y = m.word? y := by
  unfold Memory.word?
  rw [h.1]
  by_cases hy : 0 ≤ y ∧ y + 4 ≤ m.size
  · have ha := toNat_ofInt_of_holds hy.1 hy.2
    rw [if_pos hy, if_pos hy, read_congr]
    intro i hi hlt
    exact h.2 i (by omega)
  · rw [if_neg hy, if_neg hy]

theorem word?_write_self {m : Memory} {x : Int} (v : Word) (h : 0 ≤ x) (hx : x + 4 ≤ m.size) :
    (m.write (Word.ofInt x) 4 v).word? x = some v := by
  rw [word?_eq_some h (by rwa [size_write]), read_write_self v (holds_ofInt h hx)]

theorem word?_write_outside {m : Memory} {x y : Int} (v : Word) (h : 0 ≤ x) (hx : x + 4 ≤ m.size)
    (hy : y + 4 ≤ x ∨ x + 4 ≤ y) : (m.write (Word.ofInt x) 4 v).word? y = m.word? y := by
  have ha := toNat_ofInt_of_holds h hx
  unfold Memory.word?
  rw [size_write]
  by_cases hb : 0 ≤ y ∧ y + 4 ≤ m.size
  · have hb' := toNat_ofInt_of_holds hb.1 hb.2
    rw [if_pos hb, if_pos hb, read_write_outside _ _ _ _ (by omega)]
  · rw [if_neg hb, if_neg hb]

theorem agreeFrom_write {m : Memory} {x y : Int} (v : Word) (h : 0 ≤ x) (hx : x + 4 ≤ m.size)
    (hy : x + 4 ≤ y) : m.AgreeFrom (m.write (Word.ofInt x) 4 v) y := by
  have ha := toNat_ofInt_of_holds h hx
  refine ⟨size_write .., fun i hi => ?_⟩
  exact getElem?_write_outside m _ 4 v (by omega)

end WordMachine.Memory
