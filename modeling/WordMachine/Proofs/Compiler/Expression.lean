import WordMachine.Proofs.Compiler.Fragments
import WordMachine.Proofs.Machine.Installation
import WordMachine.Proofs.Source.Evaluation

/-!
# The code of expressions without calls

The code of an expression leaves its value in a register, or faults for the reason for which the
expression has no value. It pushes words and takes them off again, and besides the register of the
value only the adjacent one is ever written, however deep the expression is.
-/

namespace WordMachine

namespace Compiler

/-! ### Places -/

/-- The address of a variable while the top of the stack is at an address. -/
def Frame.place (f : Frame) (top : Word) (x : String) : Option Word :=
  (f.offset? x).map fun k => top + UInt32.ofNat (4 * k)

theorem Frame.offset?_push (f : Frame) (n : Nat) (x : String) :
    (f.push n).offset? x = (f.offset? x).map (· + n) := by
  simp only [offset?, push, Option.map_map]
  congr 1
  funext k
  exact (Nat.add_assoc k f.pushed n).symm

theorem Frame.place_push (f : Frame) (x : Int) (name : String) :
    (f.push 1).place (Word.ofInt (x - 4)) name = f.place (Word.ofInt x) name := by
  rw [place, place, offset?_push, Option.map_map]
  congr 1
  funext k
  have hk : UInt32.ofNat (4 * (k + 1)) = 4 + UInt32.ofNat (4 * k) := by
    rw [Nat.mul_add, Nat.add_comm, UInt32.ofNat_add]
    rfl
  show Word.ofInt (x - 4) + UInt32.ofNat (4 * (k + 1)) = Word.ofInt x + UInt32.ofNat (4 * k)
  rw [hk, ← UInt32.add_assoc, Word.ofInt_sub, Word.ofInt_four, UInt32.sub_add_cancel]

def Part.computes? : Part → Option (Source.Expr × Register)
  | .value e (some r) => some (e, r)
  | .place e (some r) => some (.unary .addressOf e, r)
  | _ => none

end Compiler

namespace Machine

open Assembly Compiler Source

variable {σ : Type} [Host σ] {labels : Labels} {program : List UInt8} {m m₁ : Machine}
  {o o₁ o' : Nat} {rest : Code} {h : σ} {r : Register} {v w : Word} {x : Int}
  {place : String → Option Word} {memory : Memory} {floor : Int} {f : Frame}

/-- A machine about to evaluate an expression: the variables of the frame are at their places, and
memory is as it was from the floor of the frame on, below which it may grow. -/
structure Ready (program : List UInt8) (place : String → Option Word) (memory : Memory) (floor : Int)
    (f : Frame) (x : Int) (m : Machine) : Prop where
  loaded : m.Loaded program
  stack : m.get .stack = Word.ofInt x
  places : ∀ name, f.place (Word.ofInt x) name = place name
  agree : memory.AgreeFrom m.memory floor
  nonneg : 0 ≤ x
  le_floor : x ≤ floor
  floor_le : floor ≤ m.programOffset.toNat

theorem Ready.le_size (hm : Ready program place memory floor f x m) : x ≤ m.memory.size := by
  have h₁ := hm.le_floor
  have h₂ := hm.floor_le
  have h₃ := hm.loaded.size_eq
  omega

theorem Ready.after (hm : Ready program place memory floor f x m)
    (p : Runs x m h m₁ [r, r.adjacent] o o₁) (hr : r.General) :
    Ready program place memory floor f x m₁ where
  loaded := p.loaded (Int.le_trans hm.le_floor hm.floor_le) hm.loaded
  stack := by
    have ha := r.general_adjacent
    rw [p.others .stack (by simp [hr.ne_stack.symm, ha.ne_stack.symm]) (by decide), hm.stack]
  places := hm.places
  agree := hm.agree.trans (p.agree.mono hm.le_floor)
  nonneg := hm.nonneg
  le_floor := hm.le_floor
  floor_le := by
    rw [p.programOffset]
    exact hm.floor_le

/-- The code between two offsets puts a value into a register, or faults as it has none. -/
def Computes (x : Int) (m : Machine) (h : σ) (r : Register) (o o' : Nat) : Except Stop Word → Prop
  | .ok v => ∃ m', Runs x m h m' [r, r.adjacent] o o' ∧ m'.get r = v
  | .error s => ∃ f, s.Matches f ∧ Faults (Inside m.programOffset.toNat o o') m h f h

theorem Computes.bind {a : Except Stop Word} {k : Word → Except Stop Word}
    (c : Computes x m h r o o₁ a) (ho : o₁ ≤ o')
    (hk : ∀ m₁ v, a = .ok v → Runs x m h m₁ [r, r.adjacent] o o₁ → m₁.get r = v →
      Computes x m₁ h r o₁ o' (k v)) : Computes x m h r o o' (a >>= k) := by
  cases a with
  | error s =>
    obtain ⟨f, hf, hc⟩ := c
    exact ⟨f, hf, hc.mono (inside_mono (Nat.le_refl o) ho)⟩
  | ok v =>
    obtain ⟨m₁, p, hv⟩ := c
    have hc := hk m₁ v rfl p hv
    show Computes x m h r o o' (k v)
    cases hkv : k v with
    | error s =>
      rw [hkv] at hc
      obtain ⟨f, hf, hc⟩ := hc
      exact ⟨f, hf, p.faults hc ho⟩
    | ok w =>
      rw [hkv] at hc
      obtain ⟨m₂, q, hw⟩ := hc
      exact ⟨m₂, p.trans q, hw⟩

theorem Runs.computes {a : Except Stop Word} {rs : List Register} (p : Runs x m h m₁ rs o o₁)
    (hrs : ∀ q ∈ rs, q = r ∨ q = r.adjacent) (c : Computes x m₁ h r o₁ o' a) (ho : o₁ ≤ o') :
    Computes x m h r o o' a := by
  cases a with
  | error s =>
    obtain ⟨f, hf, hc⟩ := c
    exact ⟨f, hf, p.faults hc ho⟩
  | ok v =>
    obtain ⟨m₂, q, hv⟩ := c
    have p' : Runs x m h m₁ [r, r.adjacent] o o₁ := p.mono (Int.le_refl x) (by simpa using hrs)
    exact ⟨m₂, p'.trans q, hv⟩

/-! ### Loads -/

theorem Ready.holds_iff (hm : Ready program place memory floor f x m) (a : Word) :
    m.memory.Holds a 4 ↔ memory.Holds a 4 := by
  rw [Memory.Holds, Memory.Holds, hm.agree.1]

theorem Ready.read_eq (hm : Ready program place memory floor f x m) {a : Word}
    (ha : floor ≤ a.toNat) : m.memory.read a 4 = memory.read a 4 := by
  apply Memory.read_congr
  intro i hi _
  exact hm.agree.2 i (by omega)

theorem computes_load (hm : Ready program place memory floor f x m)
    (hf : memory.Holds (m.get r) 4 → floor ≤ (m.get r).toNat) (hr : r.General) (ha : m.At o)
    (hp : Placed labels program o (Code.load r r :: rest)) (h : σ) :
    Computes x m h r o (o + 3) (wordAt memory (m.get r)) := by
  by_cases hb : memory.Holds (m.get r) 4
  · obtain ⟨m₁, p, hv, _⟩ := runs_load hr.ne_instruction hm.loaded ha hp ((hm.holds_iff _).2 hb) h
    rw [wordAt, if_pos hb]
    exact ⟨m₁, p.mono hm.nonneg (by simp), hv.trans (hm.read_eq (hf hb))⟩
  · rw [wordAt, if_neg hb]
    have hs := step_load_fault hm.loaded ha hp (fun hc => hb ((hm.holds_iff _).1 hc)) h
    exact ⟨.outOfBounds (m.get r) 4, rfl, faults_of_step hm.loaded ha hp hs⟩

theorem Ready.slot_eq (hm : Ready program place memory floor f x m) {name : String} {k : Nat}
    (hk : f.offset? name = some k) : place name = some (m.slot k) := by
  rw [← hm.places, Frame.place, hk, slot, hm.stack]
  rfl

theorem computes_name (hm : Ready program place memory floor f x m)
    (hs : ∀ name a, place name = some a → floor ≤ a.toNat ∧ memory.Holds a 4) {name : String}
    {k : Nat} (hk : f.offset? name = some k) (hr : r.General) (ha : m.At o)
    (hp : Placed labels program o (valueAt k r ++ rest)) (h : σ) :
    Computes x m h r o (o + extent (valueAt k r)) (located (place name) >>= wordAt memory) := by
  have hplace := hm.slot_eq hk
  obtain ⟨hfloor, hb⟩ := hs name _ hplace
  obtain ⟨m₁, p, hv⟩ := runs_valueAt hr hm.loaded ha hp ((hm.holds_iff _).2 hb) h
  rw [hm.read_eq hfloor] at hv
  rw [hplace]
  show Computes x m h r o _ (wordAt memory (m.slot k))
  rw [wordAt, if_pos hb]
  exact ⟨m₁, p.mono hm.nonneg (by simp), hv⟩

/-! ### Operators -/

theorem computes_combination {op : BinaryOp} {id : Nat} (hx : 0 ≤ x) (hr : r.General)
    (hl : m.Loaded program) (ha : m.At o)
    (hp : Placed labels program o (combination op r r.adjacent id ++ rest)) (h : σ) :
    Computes x m h r o (o + extent (combination op r r.adjacent id))
      (quotient (op.apply (m.get r) (m.get r.adjacent))) := by
  cases hv : op.apply (m.get r) (m.get r.adjacent) with
  | none => exact ⟨.divisionByZero _, trivial, faults_combination hl ha hp hv h⟩
  | some w =>
    obtain ⟨m₁, p, hw⟩ := runs_combination hr hl ha hp hv h
    exact ⟨m₁, p.mono hx (by simp), hw⟩

theorem Ready.pushed (hm : Ready program place memory floor f x m) (h4 : 4 ≤ x)
    (p : Runs x m h m₁ [.stack] o o₁) (hs : m₁.get .stack = Word.ofInt (x - 4)) :
    Ready program place memory floor (f.push 1) (x - 4) m₁ where
  loaded := p.loaded (Int.le_trans hm.le_floor hm.floor_le) hm.loaded
  stack := hs
  places name := (f.place_push x name).trans (hm.places name)
  agree := hm.agree.trans (p.agree.mono hm.le_floor)
  nonneg := by omega
  le_floor := by
    have hle := hm.le_floor
    omega
  floor_le := by
    rw [p.programOffset]
    exact hm.floor_le

theorem computes_converted {line : Register → Line} {g : Word → Word} {code : Code}
    {a : Except Stop Word} (hg : Converts line g) (hr : r.General)
    (hm : Ready program place memory floor f x m)
    (hp : Placed labels program o (code ++ [line r] ++ rest))
    (ho : o' = o + extent (code ++ [line r])) (h : σ)
    (hc : Computes x m h r o (o + extent code) a) :
    Computes x m h r o o' (a >>= fun v => .ok (g v)) := by
  rw [List.append_assoc] at hp
  have hsize : (line r).size = 2 := by cases hg <;> rfl
  rw [extent_append, extent_cons, extent_nil, hsize] at ho
  refine hc.bind (by omega) fun m₁ v _ p₁ hv₁ => ?_
  have hm₁ := hm.after p₁ hr
  obtain ⟨m₂, p₂, hv₂⟩ := runs_convert hg hr.ne_instruction hm₁.loaded p₁.position hp.right h
  have ho₂ : o' = o + extent code + 2 := by omega
  rw [ho₂]
  rw [hv₁] at hv₂
  exact ⟨m₂, p₂.mono hm.nonneg (by simp), hv₂⟩

theorem computes_not {id : Nat} {code : Code} {a : Except Stop Word} (hr : r.General)
    (hm : Ready program place memory floor f x m)
    (hp : Placed labels program o (code ++ [Code.test r] ++ truthCode Code.jiz r id ++ rest))
    (ho : o' = o + extent (code ++ [Code.test r] ++ truthCode Code.jiz r id)) (h : σ)
    (hc : Computes x m h r o (o + extent code) a) :
    Computes x m h r o o' (a >>= fun v => .ok (truth (v = 0))) := by
  have hi := hr.ne_instruction
  have htest : (Code.test r).size = 3 := rfl
  simp only [List.append_assoc, List.cons_append, List.nil_append] at hp
  rw [extent_append, extent_append, extent_cons, extent_nil, extent_truthCode .jiz, htest] at ho
  refine hc.bind (by omega) fun m₁ v _ p₁ hv₁ => ?_
  have hm₁ := hm.after p₁ hr
  have hp₁ := hp.right
  obtain ⟨m₂, p₂, hv₂, hf₂⟩ := runs_combine .and hi hm₁.loaded p₁.position hp₁ h
  obtain ⟨m₃, p₃, hv₃⟩ := runs_truth .jiz hi (p₂.loaded_of_zero hm₁.loaded) p₂.position hp₁.tail h
  have ho₃ : o' = o + extent code + 3 + 14 := by omega
  rw [hv₁, UInt32.and_self] at hv₂
  refine ⟨m₃, ?_, hv₃.trans (truth_congr ?_)⟩
  · rw [ho₃]
    exact (p₂.trans p₃).mono hm.nonneg (by simp)
  · rw [hf₂.1, hv₂, decide_eq_true_iff]

/-- While an expression is evaluated the word of another lies on the stack, and comes back from there
into the adjacent register. -/
theorem computes_beside {first : Code} {a : Except Stop Word} {k : Word → Except Stop Word}
    (hm : Ready program place memory floor f x m) (h4 : 4 ≤ x) (hr : r.General) (ha : m.At o)
    (hp : Placed labels program o (Code.push r :: (first ++ Code.pop r.adjacent :: rest)))
    (ho₁ : o₁ = o + 2 + extent first) (ho' : o₁ + 2 ≤ o')
    (hc : ∀ m₁, Ready program place memory floor (f.push 1) (x - 4) m₁ → m₁.At (o + 2) →
      Computes (x - 4) m₁ h r (o + 2) o₁ a)
    (hk : ∀ m₁ v, m₁.Loaded program → m₁.At (o₁ + 2) → m₁.get r = v →
      m₁.get r.adjacent = m.get r → Computes x m₁ h r (o₁ + 2) o' (k v)) :
    Computes x m h r o o' (a >>= k) := by
  have hra := r.general_adjacent
  obtain ⟨m₁, p₁, hs₁, hw₁⟩ := runs_push hm.stack h4 hm.le_size hm.loaded ha hp h
  have hm₁ := hm.pushed h4 p₁ hs₁
  have c := hc m₁ hm₁ p₁.position
  cases a with
  | error s =>
    obtain ⟨f, hf, hc⟩ := c
    exact ⟨f, hf, p₁.faults (hc.mono (inside_mono (Nat.le_refl _) (by omega))) (by omega)⟩
  | ok v =>
    obtain ⟨m₂, p₂, hv⟩ := c
    have hm₂ := hm₁.after p₂ hr
    have hw₂ : m₂.memory.word? (x - 4) = some (m.get r) := by
      rw [p₂.agree.word? (Int.le_refl _), hw₁]
    have hp₂ : Placed labels program o₁ (Code.pop r.adjacent :: rest) := by
      rw [ho₁]
      exact hp.tail.right
    obtain ⟨m₃, p₃, hw₃, hs₃⟩ := runs_pop hm₂.stack hw₂ hra.ne_instruction hra.ne_stack hm₂.loaded
      p₂.position hp₂ h
    have hv₃ : m₃.get r = v := by
      rw [p₃.others r (by simp [hr.ne_stack, hr.adjacent_ne.symm]) hr.ne_instruction, hv]
    have p : Runs x m h m₃ [.stack, r, r.adjacent] o (o₁ + 2) :=
      (p₁.mono (Int.le_refl x) (by simp)).trans
        ((p₂.mono (by omega) (by simp)).trans (p₃.mono hm.nonneg (by simp)))
    have hs : m₃.get .stack = m.get .stack := by
      rw [hs₃, hm.stack]
      congr 1
      omega
    have p' := p.restore hs
    exact p'.computes (by simp)
      (hk m₃ v (p₃.loaded_of_zero hm₂.loaded) p₃.position hv₃ hw₃) ho'

/-! ### All expressions -/

theorem computes_of_emits {l : Option Loop} {f : Frame} {part : Part} {n n₁ : Nat} {code : Code}
    (hE : Emits l f part n code n₁)
    (hs : ∀ name a, place name = some a → floor ≤ a.toNat ∧ memory.Holds a 4) :
    ∀ {e : Expr} {r : Register}, part.computes? = some (e, r) → e.calls = [] → r.General →
    (∀ a ∈ e.dereferenced place memory, memory.Holds a 4 → floor ≤ a.toNat) →
    ∀ {x : Int} {m : Machine} {o o' : Nat} {rest : Code}, 4 * (e.pending : Int) ≤ x →
    Ready program place memory floor f x m → m.At o → Placed labels program o (code ++ rest) →
    o' = o + extent code → ∀ h : σ, Computes x m h r o o' (e.evaluate place memory) := by
  induction hE with
  | @int l f n w out =>
    intro e r he hc hr hd x m o o' rest hx hm ha hp ho h
    cases out with
    | none => cases he
    | some r =>
      cases he
      obtain ⟨m₁, p, hv, _⟩ := runs_set hr.ne_instruction hm.loaded ha hp h
      rw [ho]
      exact ⟨m₁, p.mono hm.nonneg (by simp), hv.trans UInt32.ofNat_toNat⟩
  | name hk =>
    intro e r he hc hr hd x m o o' rest hx hm ha hp ho h
    cases he
    rw [ho]
    exact computes_name hm hs hk hr ha hp h
  | @binary l f n n₁ n₂ op left right r first second _ _ ihr ihl =>
    intro e r' he hc hr hd x m o o' rest hx hm ha hp ho h
    cases he
    obtain ⟨hcl, hcr⟩ := List.append_eq_nil_iff.1 hc
    rw [Expr.pending] at hx
    simp only [List.append_assoc, List.cons_append, List.nil_append] at hp
    simp only [extent_append, extent_cons, extent_nil] at ho
    have hpush : (Code.push r).size = 2 := rfl
    have hpop : (Code.pop r.adjacent).size = 2 := rfl
    have hdr : ∀ a ∈ right.dereferenced place memory, memory.Holds a 4 → floor ≤ a.toNat := by
      intro a ham
      refine hd a ?_
      rw [Expr.dereferenced]
      cases right.evaluate place memory <;> simp [ham]
    have cr := ihr rfl hcr hr hdr (by omega) hm ha hp rfl h
    refine cr.bind (by omega) fun m₁ y hy p₁ hy₁ => ?_
    have hm₁ := hm.after p₁ hr
    have hdl : ∀ a ∈ left.dereferenced place memory, memory.Holds a 4 → floor ≤ a.toNat := by
      intro a ham
      refine hd a ?_
      rw [Expr.dereferenced, hy]
      simp [ham]
    have hp₁ := hp.right
    refine computes_beside hm₁ (by omega) hr p₁.position hp₁ rfl (by omega) ?_ ?_
    · intro m₂ hm₂ ha₂
      exact ihl rfl hcl hr hdl (by omega) hm₂ ha₂ hp₁.tail rfl h
    · intro m₂ v hl₂ ha₂ hv₂ hy₂
      have c := computes_combination hm.nonneg hr hl₂ ha₂ hp₁.tail.right.tail h
      rw [hv₂, hy₂, hy₁] at c
      have ho₂ : o' = o + extent second + 2 + extent first + 2 +
          extent (combination op r r.adjacent n₂) := by omega
      rwa [ho₂]
  | @addressOf l f n n₁ e₁ out code _ ih =>
    intro e r he
    cases out with
    | none => cases he
    | some r' =>
      cases he
      exact ih rfl
  | @negate l f n n₁ e₁ out code _ ih =>
    intro e r he hc hr hd x m o o' rest hx hm ha hp ho h
    cases out with
    | none => cases he
    | some r' =>
      cases he
      exact computes_converted .neg hr hm hp ho h (ih rfl hc hr hd hx hm ha hp.left rfl h)
  | @bitNot l f n n₁ e₁ out code _ ih =>
    intro e r he hc hr hd x m o o' rest hx hm ha hp ho h
    cases out with
    | none => cases he
    | some r' =>
      cases he
      exact computes_converted .not hr hm hp ho h (ih rfl hc hr hd hx hm ha hp.left rfl h)
  | @logicalNot l f n n₁ e₁ r' code _ ih =>
    intro e r he hc hr hd x m o o' rest hx hm ha hp ho h
    cases he
    exact computes_not hr hm hp ho h (ih rfl hc hr hd hx hm ha hp.left.left rfl h)
  | @dereference l f n n₁ e₁ out code _ ih =>
    intro e r he hc hr hd x m o o' rest hx hm ha hp ho h
    cases out with
    | none => cases he
    | some r' =>
      cases he
      simp only [Option.map_some, Option.toList_some, List.append_assoc, List.cons_append,
        List.nil_append] at hp
      simp only [Option.map_some, Option.toList_some, extent_append, extent_cons, extent_nil] at ho
      have hload : (Code.load r r).size = 3 := rfl
      have hd₁ : ∀ a ∈ e₁.dereferenced place memory, memory.Holds a 4 → floor ≤ a.toNat := by
        intro a ham
        refine hd a ?_
        rw [Expr.dereferenced]
        cases e₁.evaluate place memory <;> simp [ham]
      refine (ih rfl hc hr hd₁ hx hm ha hp rfl h).bind (by omega) fun m₁ v hv p₁ hv₁ => ?_
      have hm₁ := hm.after p₁ hr
      have hfloor : memory.Holds v 4 → floor ≤ v.toNat := by
        refine hd v ?_
        rw [Expr.dereferenced, hv]
        simp
      rw [← hv₁] at hfloor
      have c := computes_load hm₁ hfloor hr p₁.position hp.right h
      rw [hv₁] at c
      have ho₁ : o' = o + extent code + 3 := by omega
      rwa [ho₁]
  | call _ ih =>
    intro e r he hc
    rename_i out _ _
    cases out with
    | none => cases he
    | some r' =>
      cases he
      simp [Expr.calls] at hc
  | namePlace hk =>
    intro e r he hc hr hd x m o o' rest hx hm ha hp ho h
    cases he
    obtain ⟨m₁, p, hv⟩ := runs_addressAt hr hm.loaded ha hp h
    rw [ho, Expr.evaluate, hm.slot_eq hk]
    exact ⟨m₁, p.mono hm.nonneg (by simp), hv⟩
  | @pointer l f n n₁ e₁ out code _ ih =>
    intro e r he hc hr hd x m o o' rest hx hm ha hp ho h
    cases out with
    | none => cases he
    | some r' =>
      cases he
      exact ih (e := e₁) rfl hc hr hd hx hm ha hp ho h
  | _ =>
    intro e r he
    cases he

theorem place_bounds {f : Frame}
    (hs : ∀ name k, f.offset? name = some k → (m.get .stack).toNat + 4 * k + 4 ≤ m.memory.size)
    (name : String) (a : Word) (ha : f.place (m.get .stack) name = some a) :
    ((m.get .stack).toNat : Int) ≤ a.toNat ∧ m.memory.Holds a 4 := by
  obtain ⟨k, hk, rfl⟩ := Option.map_eq_some_iff.1 ha
  have hb := hs name k hk
  have hlt : m.memory.size < 4294967296 := m.memory.size_lt
  have hn : (m.get .stack + UInt32.ofNat (4 * k)).toNat = (m.get .stack).toNat + 4 * k := by
    rw [UInt32.toNat_add, Word.toNat_ofNat_of_lt (by omega)]
    omega
  rw [Memory.Holds, hn]
  omega

def Reaches (m : Machine) (h : σ) (o : Nat) : Prop :=
  ∃ n m' h', run n m h = (m', h', .running) ∧ m'.get .instruction = m.absolute (UInt32.ofNat o)

/-- The code of an expression is left at its end exactly if the expression has a value. Then the value
is in the register, and no other register but the adjacent one and no memory from the top of the stack
on has changed. If the expression has no value, the machine faults for the same reason. -/
theorem expression_computes {e : Expr} {out : Register} {n : Nat} {f : Frame} {l : Option Loop}
    {code : Code} {c : Context} (he : expression e (some out) ⟨n, f, l⟩ = .ok (code, c))
    (hcalls : e.calls = []) (hout : out.General) (hl : m.Loaded program) (ha : m.At o)
    (hp : Placed labels program o code) (htop : (m.get .stack).toNat ≤ m.programOffset.toNat)
    (hroom : 4 * e.pending ≤ (m.get .stack).toNat)
    (hslots : ∀ name k, f.offset? name = some k →
      (m.get .stack).toNat + 4 * k + 4 ≤ m.memory.size)
    (hderef : ∀ a ∈ e.dereferenced (f.place (m.get .stack)) m.memory,
      ¬m.memory.Holds a 4 ∨ (m.get .stack).toNat ≤ a.toNat) (h : σ) :
    (m.Reaches h (o + extent code) ↔ ∃ v, e.evaluate (f.place (m.get .stack)) m.memory = .ok v) ∧
    (∀ v, e.evaluate (f.place (m.get .stack)) m.memory = .ok v →
      ∃ n m', run n m h = (m', h, .running) ∧
        m'.get .instruction = m.absolute (UInt32.ofNat (o + extent code)) ∧ m'.get out = v ∧
        m'.get .stack = m.get .stack ∧ m.memory.AgreeFrom m'.memory (m.get .stack).toNat ∧
        ∀ q, q ≠ out → q ≠ out.adjacent → q ≠ .instruction → m'.get q = m.get q) ∧
    (∀ s, e.evaluate (f.place (m.get .stack)) m.memory = .error s →
      ∃ n m' fault, run n m h = (m', h, .fault fault) ∧ s.Matches fault) := by
  obtain ⟨_, _, hE⟩ := emits_of_expression e (some out) he
  have hm : Ready program (f.place (m.get .stack)) m.memory (m.get .stack).toNat f
      (m.get .stack).toNat m := by
    refine ⟨hl, (Word.ofInt_toNat _).symm, ?_, .refl _ _, by omega, by omega, by omega⟩
    intro name
    rw [Word.ofInt_toNat]
  have hd : ∀ a ∈ e.dereferenced (f.place (m.get .stack)) m.memory, m.memory.Holds a 4 →
      ((m.get .stack).toNat : Int) ≤ a.toNat := by
    intro a ham hb
    cases hderef a ham with
    | inl hn => exact absurd hb hn
    | inr hle => omega
  rw [← List.append_nil code] at hp
  have hc := computes_of_emits hE (place_bounds hslots) rfl hcalls hout hd (by omega) hm ha hp rfl h
  cases hv : e.evaluate (f.place (m.get .stack)) m.memory with
  | ok v =>
    rw [hv] at hc
    obtain ⟨m', p, hout'⟩ := hc
    obtain ⟨k, hk⟩ := p.path.run_running
    have hkeep : ∀ q, q ≠ out → q ≠ out.adjacent → q ≠ .instruction → m'.get q = m.get q := by
      intro q h₁ h₂ h₃
      exact p.others q (by simp [h₁, h₂]) h₃
    have hstack := hkeep .stack hout.ne_stack.symm (out.general_adjacent).ne_stack.symm (by decide)
    have hpos : m'.get .instruction = m.absolute (UInt32.ofNat (o + extent code)) := by
      rw [p.position, absolute, absolute, p.programOffset]
    refine ⟨⟨fun _ => ⟨v, rfl⟩, fun _ => ⟨k, m', h, hk, hpos⟩⟩, ?_, ?_⟩
    · intro w hw
      cases hw
      exact ⟨k, m', hk, hpos, hout', hstack, p.agree, hkeep⟩
    · intro s hs
      cases hs
  | error s =>
    rw [hv] at hc
    obtain ⟨fault, hf, hfaults⟩ := hc
    refine ⟨⟨?_, ?_⟩, ?_, ?_⟩
    · rintro ⟨k, m', h', hk, hpos⟩
      have hin := hfaults.region_of_run hk
      have hlen := hp.left.extent_le
      rw [hpos, hl.toNat_absolute hlen] at hin
      exact absurd hin.2 (Nat.lt_irrefl _)
    · rintro ⟨v, hv⟩
      cases hv
    · intro v hv
      cases hv
    · intro s' hs'
      cases hs'
      obtain ⟨k, m', hk⟩ := hfaults.run
      exact ⟨k, m', fault, hk, hf⟩

/-- The word at the address of a variable on top of the stack, less three, in a memory that holds
hardly more than the code of the expression. -/
theorem expression_computes_indirect : ∃ (m : Machine) (code : Code) (c : Context),
    m.Loaded [2, 1, 3, 0, 0, 0, 11, 1, 2, 1, 4, 0, 0, 0, 14, 1, 254, 10, 1, 1, 12, 2, 15, 1, 2] ∧
    m.At 0 ∧ expression (.binary .subtract (.unary .dereference (.unary .addressOf (.name "x"))) (.int 3))
      (some ⟨1⟩) ⟨0, ⟨[], ["x"], 0⟩, none⟩ = .ok (code, c) ∧
    ∀ h : WordQueue, ∃ n m', run n m h = (m', h, .running) ∧
      m'.get .instruction = m.absolute 25 ∧ m'.get ⟨1⟩ = m.memory.read 7 4 - 3 ∧
      m'.get .stack = m.get .stack := by
  obtain ⟨m, hinstall, hoffset⟩ : ∃ m, (Machine.empty 32).install [2, 1, 3, 0, 0, 0, 11, 1, 2, 1, 4, 0,
      0, 0, 14, 1, 254, 10, 1, 1, 12, 2, 15, 1, 2] = .ok m ∧ m.programOffset = 7 :=
    ⟨_, rfl, by decide⟩
  obtain ⟨hl, ha, hs, hsize⟩ := Installed.of_install hinstall
  have hsize : m.memory.size = 32 := hsize
  rw [hoffset] at hs
  have hp : Placed .empty [2, 1, 3, 0, 0, 0, 11, 1, 2, 1, 4, 0, 0, 0, 14, 1, 254, 10, 1, 1, 12, 2, 15,
      1, 2] 0 [Code.set ⟨1⟩ 3, Code.push ⟨1⟩, Code.set ⟨1⟩ 4, Code.add ⟨1⟩ .stack,
      Code.load ⟨1⟩ ⟨1⟩, Code.pop ⟨2⟩, Code.sub ⟨1⟩ ⟨2⟩] :=
    ⟨⟨_, rfl, by decide⟩, ⟨_, rfl, by decide⟩, ⟨_, rfl, by decide⟩, ⟨_, rfl, by decide⟩,
      ⟨_, rfl, by decide⟩, ⟨_, rfl, by decide⟩, ⟨_, rfl, by decide⟩, Nat.le_refl 25⟩
  have hplace : (⟨[], ["x"], 0⟩ : Frame).place 7 "x" = some 7 := by decide
  have hslots : ∀ name k, (⟨[], ["x"], 0⟩ : Frame).offset? name = some k →
      (m.get .stack).toNat + 4 * k + 4 ≤ m.memory.size := by
    intro name k hk
    by_cases hx : "x" = name
    · subst hx
      cases hk
      rw [hs, hsize]
      decide
    · simp [Frame.offset?, lastIndex?, hx] at hk
  have hderef : ∀ a ∈ (Expr.binary .subtract (.unary .dereference (.unary .addressOf (.name "x")))
      (.int 3)).dereferenced ((⟨[], ["x"], 0⟩ : Frame).place (m.get .stack)) m.memory,
      ¬m.memory.Holds a 4 ∨ (m.get .stack).toNat ≤ a.toNat := by
    intro a h
    rw [hs] at h ⊢
    simp only [Expr.dereferenced, Expr.evaluate, hplace, located, List.nil_append,
      List.mem_singleton] at h
    subst h
    exact .inr (Nat.le_refl _)
  refine ⟨m, _, ⟨0, ⟨[], ["x"], 0⟩, none⟩, hl, ha, rfl, fun h => ?_⟩
  have hc := (expression_computes (e := .binary .subtract (.unary .dereference (.unary .addressOf
    (.name "x"))) (.int 3)) (n := 0) (l := none) (c := ⟨0, ⟨[], ["x"], 0⟩, none⟩) rfl rfl (by decide) hl ha hp (by simp only [hs, hoffset, Nat.le_refl])
    (by rw [hs]; exact Nat.le_of_ble_eq_true rfl) hslots hderef h).2.1
  have hb : m.memory.Holds 7 4 := by
    rw [Memory.Holds, hsize]
    decide
  obtain ⟨n, m', hrun, hpos, hv, hstack, _⟩ := hc (m.memory.read 7 4 - 3) (by
    simp only [Expr.evaluate, hs, hplace, located, wordAt, bind, Except.bind, if_pos hb]
    rfl)
  exact ⟨n, m', hrun, hpos, hv, hstack⟩

end Machine

end WordMachine
