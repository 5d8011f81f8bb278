import WordMachine.Proofs.Machine.Placement

/-!
# Installed programs

A machine on which a program was installed stands at the start of the program, with an empty stack
just below it.
-/

namespace WordMachine.Machine

variable {program : List UInt8} {m m' : Machine}

theorem size_boot (m : Machine) (program : List UInt8) :
    (m.boot program).memory.size = m.memory.size := by
  show ((m.memory.clear _).put _ program).size = m.memory.size
  rw [Memory.size_put, Memory.size_clear]

/-- Every byte of memory is overwritten: there are zeros below the program. -/
theorem getElem?_boot (hp : program.length ≤ m.memory.size) (i : Nat) :
    (m.boot program).memory.bytes[i]? =
      if i < m.memory.size - program.length then some 0
      else program[i - (m.memory.size - program.length)]? := by
  show ((m.memory.clear (m.memory.size - program.length)).put (m.memory.size - program.length)
    program).bytes[i]? = _
  rw [Memory.getElem?_put, Memory.size_clear, Memory.getElem?_clear]
  by_cases hi : i < m.memory.size - program.length
  · rw [if_neg (by omega), if_pos (by omega), if_pos hi]
  · rw [if_neg hi]
    by_cases hs : i < m.memory.size
    · rw [if_pos (by omega)]
    · rw [if_neg (by omega), if_neg (by omega), List.getElem?_eq_none (by omega)]
      exact Array.getElem?_eq_none (Nat.not_lt.1 hs)

theorem bytes_boot (hp : program.length ≤ m.memory.size) : (m.boot program).memory.bytes.toList =
    List.replicate (m.memory.size - program.length) 0 ++ program := by
  apply List.ext_getElem?
  intro i
  rw [Array.getElem?_toList, getElem?_boot hp, List.getElem?_append, List.length_replicate]
  by_cases hi : i < m.memory.size - program.length
  · rw [if_pos hi, if_pos hi, List.getElem?_replicate_of_lt hi]
  · rw [if_neg hi, if_neg hi]

theorem programOffset_boot (hp : program.length ≤ m.memory.size) :
    (m.boot program).programOffset.toNat + program.length = m.memory.size := by
  have hlt : m.memory.size < 4294967296 := m.memory.size_lt
  have hstart : (m.boot program).programOffset.toNat = m.memory.size - program.length :=
    Word.toNat_ofNat_of_lt (by omega)
  rw [hstart]
  exact Nat.sub_add_cancel hp

theorem get_boot (m : Machine) (program : List UInt8) (r : Register) : (m.boot program).get r =
    if r = .stack ∨ r = .instruction then (m.boot program).programOffset else 0 := by
  show ((RegisterFile.zeros.set .instruction (m.boot program).programOffset).set .stack
    (m.boot program).programOffset).get r = _
  rw [RegisterFile.get_set, RegisterFile.get_set, RegisterFile.get_zeros]
  by_cases hs : r = .stack
  · rw [if_pos hs, if_pos (.inl hs)]
  · simp [hs]

theorem install_eq_ok_iff : m.install program = .ok m' ↔
    program.length ≤ m.memory.size ∧ m' = m.boot program := by
  rw [install]
  split
  · next h => simp [h, eq_comm]
  · next h => simp [h]

/-- What is known of a machine on which a program was installed. -/
structure Installed (size : Nat) (program : List UInt8) (m : Machine) : Prop where
  loaded : m.Loaded program
  position : m.At 0
  stack : m.get .stack = m.programOffset
  size_eq : m.memory.size = size

theorem Installed.of_install (h : m.install program = .ok m') :
    m'.Installed m.memory.size program := by
  obtain ⟨hp, rfl⟩ := install_eq_ok_iff.1 h
  have hstart := programOffset_boot hp
  refine ⟨⟨?_, fun i => ?_⟩, ?_, ?_, size_boot m program⟩
  · rw [size_boot, hstart]
  · rw [Nat.eq_sub_of_add_eq hstart, getElem?_boot hp, if_neg (by omega), Nat.add_sub_cancel_left]
  · rw [At, get_boot, if_pos (.inr rfl), absolute]
    exact (UInt32.zero_add _).symm
  · rw [get_boot, if_pos (.inl rfl)]

end WordMachine.Machine
