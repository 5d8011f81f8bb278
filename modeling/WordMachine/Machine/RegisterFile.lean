import WordMachine.Register
import WordMachine.Word

/-!
# The register file

A word for each of the 256 registers. Setting a register changes that register alone (`get_set`).
-/

namespace WordMachine

structure RegisterFile where
  words : Vector Word 256
deriving DecidableEq

namespace RegisterFile

def zeros : RegisterFile := ⟨Vector.replicate 256 0⟩

def get (f : RegisterFile) (r : Register) : Word :=
  have := r.index.toNat_lt
  f.words[r.index.toNat]

def set (f : RegisterFile) (r : Register) (w : Word) : RegisterFile :=
  ⟨f.words.set r.index.toNat w r.index.toNat_lt⟩

/-- Every register with its word, in the order of their indices. -/
def toList (f : RegisterFile) : List (Register × Word) :=
  (f.words.toList.zipIdx).map fun p => (⟨UInt8.ofNat p.2⟩, p.1)

@[simp] theorem get_zeros (r : Register) : zeros.get r = 0 := by
  simp [zeros, get]

theorem get_set (f : RegisterFile) (r q : Register) (w : Word) :
    (f.set r w).get q = if q = r then w else f.get q := by
  have hr : r.index.toNat = q.index.toNat ↔ q = r := by
    rcases r with ⟨i⟩
    rcases q with ⟨j⟩
    simp [UInt8.toNat_inj, eq_comm]
  by_cases h : q = r <;> simp [get, set, hr, h]

theorem ext_get {f g : RegisterFile} (h : ∀ r, f.get r = g.get r) : f = g := by
  rcases f with ⟨v⟩
  rcases g with ⟨w⟩
  congr 1
  ext i hi
  have := congrArg UInt32.toNat (h ⟨UInt8.ofNat i⟩)
  simpa [get, Nat.mod_eq_of_lt hi, UInt32.toNat_inj] using this

end RegisterFile

end WordMachine
