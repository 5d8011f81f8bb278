import WordMachine.Word

/-!
# Memory

Memory is a row of fewer than 2^32 bytes, each at the address of its place. All that changes it puts
bytes at places of the row, one after another: those change in their range and no others
(`getElem?_put`, `getElem?_clear`), and the size never does.
-/

namespace WordMachine

/-- Fewer than 2^32 bytes. -/
structure Memory where
  row : ByteArray
  size_lt : row.size < 4294967296

namespace Memory

/-- The bytes in the order of their addresses. -/
def bytes (m : Memory) : Array UInt8 := m.row.data

def size (m : Memory) : Nat := m.row.size

def growFrom (row : ByteArray) : Nat → ByteArray
  | 0 => row
  | n + 1 => growFrom (row.push 0) n

def addBlocks (row block : ByteArray) : Nat → ByteArray
  | 0 => row
  | n + 1 => addBlocks (row ++ block) block n

/-- So many zeros, most of them added in blocks. -/
def zeroRow (n : Nat) : ByteArray :=
  growFrom (addBlocks (.emptyWithCapacity n) (growFrom .empty 65536) (n / 65536)) (n % 65536)

/-- Puts bytes into a row one after another, from a place on. -/
def putFrom (row : ByteArray) : Nat → List UInt8 → ByteArray
  | _, [] => row
  | place, b :: bs => putFrom (row.set! place b) (place + 1) bs

def clearFrom (row : ByteArray) : Nat → Nat → ByteArray
  | _, 0 => row
  | place, n + 1 => clearFrom (row.set! place 0) (place + 1) n

theorem data_growFrom (row : ByteArray) (n : Nat) :
    (growFrom row n).data = row.data ++ Array.replicate n 0 := by
  induction n generalizing row with
  | zero => simp [growFrom]
  | succ n ih =>
    rw [growFrom, ih, ByteArray.data_push]
    apply Array.ext'
    simp [List.replicate_succ]

theorem data_addBlocks (row : ByteArray) (k n : Nat) :
    (addBlocks row (growFrom .empty k) n).data = row.data ++ Array.replicate (n * k) 0 := by
  induction n generalizing row with
  | zero => simp [addBlocks]
  | succ n ih =>
    rw [addBlocks, ih, ByteArray.data_append, data_growFrom, Array.append_assoc, Nat.succ_mul,
      Nat.add_comm, ← Array.replicate_append_replicate]
    simp

theorem data_zeroRow (n : Nat) : (zeroRow n).data = Array.replicate n 0 := by
  rw [zeroRow, data_growFrom, data_addBlocks, Array.append_assoc, Array.replicate_append_replicate,
    Nat.div_add_mod']
  exact Array.empty_append

theorem size_zeroRow (n : Nat) : (zeroRow n).size = n := by
  rw [← ByteArray.size_data, data_zeroRow, Array.size_replicate]

theorem size_set! (row : ByteArray) (place : Nat) (b : UInt8) :
    (row.set! place b).size = row.size := Array.size_setIfInBounds

@[simp] theorem size_putFrom (row : ByteArray) (place : Nat) (bs : List UInt8) :
    (putFrom row place bs).size = row.size := by
  induction bs generalizing row place with
  | nil => rfl
  | cons b bs ih => rw [putFrom, ih, size_set!]

@[simp] theorem size_clearFrom (row : ByteArray) (place n : Nat) :
    (clearFrom row place n).size = row.size := by
  induction n generalizing row place with
  | zero => rfl
  | succ n ih => rw [clearFrom, ih, size_set!]

def zeros (size : Word) : Memory :=
  ⟨zeroRow size.toNat, by
    rw [size_zeroRow]
    exact size.toNat_lt⟩

def put (m : Memory) (place : Nat) (bs : List UInt8) : Memory :=
  ⟨putFrom m.row place bs, by simpa using m.size_lt⟩

def clear (m : Memory) (n : Nat) : Memory := ⟨clearFrom m.row 0 n, by simpa using m.size_lt⟩

/-- Whether all bytes of an access lie in memory. -/
def Holds (m : Memory) (address : Word) (width : Nat) : Prop := address.toNat + width ≤ m.size

instance (m : Memory) (address : Word) (width : Nat) : Decidable (m.Holds address width) :=
  inferInstanceAs (Decidable (address.toNat + width ≤ m.size))

/-- The bytes at an address, as many of a number of them as lie in memory. -/
def window (m : Memory) (address : Word) (width : Nat) : List UInt8 :=
  (m.row.extract address.toNat (address.toNat + width)).data.toList

/-- The word spelled by the bytes at an address. -/
def read (m : Memory) (address : Word) (width : Nat) : Word := Word.ofBytes (m.window address width)

/-- Writes the lowest bytes of a word at an address. -/
def write (m : Memory) (address : Word) (width : Nat) (value : Word) : Memory :=
  m.put address.toNat (value.lowBytes width)

/-! ### What overwriting changes -/

@[simp] theorem size_bytes (m : Memory) : m.bytes.size = m.size := rfl

@[simp] theorem size_zeros (size : Word) : (zeros size).size = size.toNat := by
  rw [Memory.size, zeros, size_zeroRow]

@[simp] theorem size_put (m : Memory) (place : Nat) (bs : List UInt8) : (m.put place bs).size = m.size :=
  size_putFrom m.row place bs

@[simp] theorem size_clear (m : Memory) (n : Nat) : (m.clear n).size = m.size :=
  size_clearFrom m.row 0 n

@[simp] theorem size_write (m : Memory) (address : Word) (width : Nat) (value : Word) :
    (m.write address width value).size = m.size := m.size_put _ _

theorem window_eq (m : Memory) (address : Word) (width : Nat) :
    m.window address width = (m.bytes.extract address.toNat (address.toNat + width)).toList := by
  rw [window, ByteArray.data_extract, bytes]

theorem getElem?_set! (row : ByteArray) (place : Nat) (b : UInt8) (i : Nat) :
    (row.set! place b).data[i]? =
      if place = i then if place < row.size then some b else none else row.data[i]? :=
  Array.getElem?_setIfInBounds

theorem getElem?_putFrom (row : ByteArray) (place : Nat) (bs : List UInt8) (i : Nat) :
    (putFrom row place bs).data[i]? =
      if place ≤ i ∧ i < place + bs.length ∧ i < row.size then bs[i - place]? else row.data[i]? := by
  induction bs generalizing row place with
  | nil =>
    have h : ¬(place ≤ i ∧ i < place + ([] : List UInt8).length ∧ i < row.size) := by
      simp only [List.length_nil]
      omega
    rw [if_neg h, putFrom]
  | cons b bs ih =>
    rw [putFrom, ih, getElem?_set!, size_set!, List.length_cons]
    by_cases hi : place = i
    · subst hi
      have h : ¬(place + 1 ≤ place ∧ place < place + 1 + bs.length ∧ place < row.size) := by omega
      rw [if_neg h]
      by_cases hs : place < row.size
      · simp [hs]
      · simp [hs]
    · by_cases h : place ≤ i ∧ i < place + (bs.length + 1) ∧ i < row.size
      · have h' : place + 1 ≤ i ∧ i < place + 1 + bs.length ∧ i < row.size := by omega
        obtain ⟨k, hk⟩ : ∃ k, i - place = k + 1 := ⟨i - place - 1, by omega⟩
        have hk' : i - (place + 1) = k := by omega
        simp [h, h', hk, hk']
      · have h' : ¬(place + 1 ≤ i ∧ i < place + 1 + bs.length ∧ i < row.size) := by omega
        rw [if_neg h, if_neg h', if_neg hi]

/-- To put zeros one after another is to put a list of them. -/
theorem clearFrom_eq_putFrom (row : ByteArray) (place n : Nat) :
    clearFrom row place n = putFrom row place (List.replicate n 0) := by
  induction n generalizing row place with
  | zero => rfl
  | succ n ih => rw [clearFrom, ih, List.replicate_succ, putFrom]

theorem getElem?_put (m : Memory) (place : Nat) (bs : List UInt8) (i : Nat) :
    (m.put place bs).bytes[i]? =
      if place ≤ i ∧ i < place + bs.length ∧ i < m.size then bs[i - place]? else m.bytes[i]? :=
  getElem?_putFrom m.row place bs i

theorem getElem?_clear (m : Memory) (n i : Nat) :
    (m.clear n).bytes[i]? = if i < n ∧ i < m.size then some 0 else m.bytes[i]? := by
  have h := getElem?_putFrom m.row 0 (List.replicate n 0) i
  rw [← clearFrom_eq_putFrom, List.length_replicate, Nat.zero_add, Nat.sub_zero] at h
  refine h.trans ?_
  by_cases hi : i < n ∧ i < m.size
  · rw [if_pos ⟨Nat.zero_le i, hi⟩, if_pos hi, List.getElem?_replicate_of_lt hi.1]
  · have hn : ¬(0 ≤ i ∧ i < n ∧ i < m.row.size) := fun hc => hi hc.2
    rw [if_neg hn, if_neg hi]
    rfl

theorem getElem?_write (m : Memory) (address : Word) (width : Nat) (value : Word) (i : Nat) :
    (m.write address width value).bytes[i]? =
      if address.toNat ≤ i ∧ i < address.toNat + width ∧ i < m.size then
        (value.lowBytes width)[i - address.toNat]?
      else m.bytes[i]? := by
  have h := m.getElem?_put address.toNat (value.lowBytes width) i
  rw [Word.length_lowBytes] at h
  exact h

theorem ext_bytes {m n : Memory} (h : ∀ i : Nat, m.bytes[i]? = n.bytes[i]?) : m = n := by
  rcases m with ⟨⟨bytes⟩, hm⟩
  rcases n with ⟨⟨bytes'⟩, hn⟩
  have hb : bytes = bytes' := Array.ext_getElem? h
  subst hb
  rfl

end Memory

end WordMachine
