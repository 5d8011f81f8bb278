import WordMachine.Proofs.Compiler.Expression
import WordMachine.Proofs.Compiler.Moves
import WordMachine.Proofs.Source.Discarding

/-!
# Machines and the calls they make

A machine goes through a stretch of code step by step, and by calls, each of which leaves the stretch
and comes back behind the call. The calls made on the way are those that the evaluation of an expression
makes. What a called function does is described from outside: it may depend on its arguments, on memory
above the stack of the expression, on the host and on the result register, and as long as it has as much
stack as it needs not on where the stack is. It leaves the words of its caller alone.
-/

namespace WordMachine

/-- Memory is as it was from one address on, up to another. -/
structure Memory.Spares (x floor : Int) (m n : Memory) : Prop where
  size_eq : n.size = m.size
  byte_eq : ∀ i : Nat, x ≤ i → (i : Int) < floor → n.bytes[i]? = m.bytes[i]?

namespace Memory.Spares

variable {m n k : Memory} {x y floor : Int}

theorem refl (x floor : Int) (m : Memory) : Spares x floor m m := ⟨rfl, fun _ _ _ => rfl⟩

theorem trans (h : Spares x floor m n) (h' : Spares x floor n k) : Spares x floor m k :=
  ⟨h'.size_eq.trans h.size_eq, fun i hx hf => (h'.byte_eq i hx hf).trans (h.byte_eq i hx hf)⟩

theorem mono (h : Spares x floor m n) (hxy : x ≤ y) : Spares y floor m n :=
  ⟨h.size_eq, fun i hx hf => h.byte_eq i (Int.le_trans hxy hx) hf⟩

theorem lower {floor' : Int} (h : Spares x floor m n) (hf : floor' ≤ floor) : Spares x floor' m n :=
  ⟨h.size_eq, fun i hx hi => h.byte_eq i hx (Int.lt_of_lt_of_le hi hf)⟩

theorem of_agree (h : m.AgreeFrom n x) : Spares x floor m n := ⟨h.1, fun i hx _ => h.2 i hx⟩

theorem word? (h : Spares x floor m n) (hx : x ≤ y) (hf : y + 4 ≤ floor) : n.word? y = m.word? y := by
  unfold Memory.word?
  rw [h.size_eq]
  by_cases hy : 0 ≤ y ∧ y + 4 ≤ m.size
  · have ha := toNat_ofInt_of_holds hy.1 hy.2
    rw [if_pos hy, if_pos hy, read_congr]
    intro i hi hlt
    exact h.byte_eq i (by omega) (by omega)
  · rw [if_neg hy, if_neg hy]

end Memory.Spares

namespace Compiler.Frame

theorem place_pushes (f : Frame) (x : Int) (n : Nat) (name : String) :
    (f.push n).place (Word.ofInt (x - 4 * n)) name = f.place (Word.ofInt x) name := by
  induction n with
  | zero =>
    have hx : x - 4 * ((0 : Nat) : Int) = x := by omega
    rw [hx]
    rfl
  | succ n ih =>
    have hx : x - 4 * ((n + 1 : Nat) : Int) = x - 4 * n - 4 := by omega
    rw [hx, ← push_push, place_push, ih]

end Compiler.Frame

namespace Machine

open Assembly Compiler Source

/-! ### Stretches of code -/

/-- The code between two offsets of a program, which lies in memory from an address on. -/
structure Stretch where
  labels : Labels
  program : List UInt8
  start : Nat
  first : Nat
  last : Nat

structure Stretch.Has (s : Stretch) (o : Nat) (code : Code) : Prop where
  placed : Placed s.labels s.program o code
  first_le : s.first ≤ o
  le_last : o + extent code ≤ s.last

namespace Stretch.Has

variable {s : Stretch} {o : Nat} {a b : Code}

theorem left (h : s.Has o (a ++ b)) : s.Has o a where
  placed := h.placed.left
  first_le := h.first_le
  le_last := by
    have hle := h.le_last
    rw [extent_append] at hle
    omega

theorem right (h : s.Has o (a ++ b)) : s.Has (o + extent a) b where
  placed := h.placed.right
  first_le := by
    have hle := h.first_le
    omega
  le_last := by
    have hle := h.le_last
    rw [extent_append] at hle
    omega

end Stretch.Has

/-- The machine stands at a call in the stretch, with the arguments on top of its stack. -/
structure Calling (s : Stretch) (m : Machine) (call : Call) (back : Word) : Prop where
  line : ∃ o, m.At o ∧ s.Has o [Code.call (.function call.callee)] ∧
    back = m.absolute (UInt32.ofNat (o + 5))
  arity : call.arguments.length = call.callee.arity
  arguments : ∃ x : Int, m.get .stack = Word.ofInt x ∧ ∀ (i : Nat) w, call.arguments[i]? = some w →
    m.memory.word? (x + 4 * (call.arguments.length - 1 - i)) = some w

section

variable {σ : Type} [Host σ]

/-- The machine goes through the stretch. A step stays in it, and after a call the machine stands behind
the call, with its stack as it was. -/
inductive Course (s : Stretch) : Machine → σ → List Call → Machine → σ → List Call → Prop
  | done (m : Machine) (h : σ) (cs : List Call) : Course s m h cs m h cs
  | step {m m₁ m₂ : Machine} {h h₁ h₂ : σ} {cs ds : List Call} :
      Inside s.start s.first s.last (m.get .instruction).toNat → m.step h = (m₁, h₁, .running) →
      Inside s.start s.first (s.last + 1) (m₁.get .instruction).toNat →
      Course s m₁ h₁ cs m₂ h₂ ds → Course s m h cs m₂ h₂ ds
  | call {m m₁ m₂ m₃ : Machine} {h h₂ h₃ : σ} {cs ds : List Call} {call : Call} {back : Word} :
      Calling s m call back → m.step h = (m₁, h, .running) → Path Anywhere m₁ h m₂ h₂ →
      m₂.get .instruction = back → m₂.get .stack = m.get .stack →
      Course s m₂ h₂ (cs ++ [call]) m₃ h₃ ds → Course s m h cs m₃ h₃ ds

/-- The machine, in the stretch, stops as an expression does, at once or in the next call. -/
inductive Halts (s : Stretch) : Machine → σ → List Call → Ended σ → Prop
  | operation {m m₁ : Machine} {h h' : σ} {cs : List Call} {f : Fault} {reason : Stop} {b : Bool} :
      Inside s.start s.first s.last (m.get .instruction).toNat → m.step h = (m₁, h', .fault f) →
      reason.Matches f → Halts s m h cs ⟨.operation reason, h', cs, b⟩
  | overflow {m m₁ : Machine} {h h' : σ} {cs : List Call} {a : Word} {b : Bool} :
      Inside s.start s.first s.last (m.get .instruction).toNat →
      m.step h = (m₁, h', .fault (.outOfBounds a 4)) → Halts s m h cs ⟨.overflow, h', cs, b⟩
  | shortage {m : Machine} {h : σ} {cs : List Call} {call : Call} {back : Word} {b : Bool} :
      Calling s m call back → Halts s m h cs ⟨.shortage call, h, cs, b⟩
  | stray {m : Machine} {h : σ} {cs : List Call} {o : Nat} {r q : Register} {b : Bool} :
      m.At o → s.Has o [Code.load r q] → m.memory.Holds (m.get q) 4 →
      Halts s m h cs ⟨.stray (m.get q), h, cs, b⟩
  | fault {m m₁ : Machine} {h h' : σ} {cs : List Call} {call : Call} {back : Word} {f : Fault} {b : Bool} :
      Calling s m call back → m.step h = (m₁, h, .running) → Faults Anywhere m₁ h f h' →
      Halts s m h cs ⟨.fault f, h', cs ++ [call], b⟩
  | endless {m m₁ : Machine} {h : σ} {cs : List Call} {call : Call} {back : Word} {b : Bool} :
      Calling s m call back → m.step h = (m₁, h, .running) →
      (∀ n, ∃ m₂ h₂, run n m₁ h = (m₂, h₂, .running)) →
      Halts s m h cs ⟨.endless, h, cs ++ [call], b⟩

/-- From a world on, the machine comes through the stretch to where an evaluation does, or stops there
as it does. -/
def Attains {α : Type} (s : Stretch) (m : Machine) (w : World σ) (goal : Machine → α → World σ → Prop) :
    Except (Ended σ) (α × World σ) → Prop
  | .ok (v, w') => ∃ m', Course s m w.host w.calls m' w'.host w'.calls ∧ goal m' v w'
  | .error e => ∃ m' h' cs', Course s m w.host w.calls m' h' cs' ∧ Halts s m' h' cs' e

variable {s : Stretch} {m m₁ m₂ : Machine} {h h₁ h₂ : σ} {cs ds es : List Call} {w w₁ : World σ}
  {α β : Type} {goal : Machine → α → World σ → Prop} {goal' : Machine → β → World σ → Prop}

theorem Course.trans (p : Course s m h cs m₁ h₁ ds) (q : Course s m₁ h₁ ds m₂ h₂ es) :
    Course s m h cs m₂ h₂ es := by
  induction p with
  | done => exact q
  | step hi hs hi₁ _ ih => exact .step hi hs hi₁ (ih q)
  | call hc hs hp hb hx _ ih => exact .call hc hs hp hb hx (ih q)

/-- No step in the stretch is a call of a function that begins elsewhere: a course has counted all of
them. -/
theorem Calling.leaves {call : Call} {back entry : Word} (hc : Calling s m call back)
    (hl : m.Loaded s.program) (he : s.labels.get? (Label.function call.callee).text = some entry)
    (hout : ¬Inside s.start s.first (s.last + 1) (m.absolute entry).toNat)
    (hs : m.step h = (m₁, h₁, .running)) :
    ¬Inside s.start s.first (s.last + 1) (m₁.get .instruction).toNat := by
  obtain ⟨o, ha, hcode, _⟩ := hc.line
  by_cases hb : m.memory.Holds (m.get .stack - 4) 4
  · have hcall := step_call hl ha hcode.placed he hb h
    rw [hs] at hcall
    cases hcall
    rw [get_pushed, if_pos rfl]
    exact hout
  · have hcall := step_call_fault hl ha hcode.placed he hb h
    rw [hs] at hcall
    cases hcall

theorem Path.course {o o' : Nat} (p : Path (Inside s.start o o') m h m₁ h₁) (ho : s.first ≤ o)
    (ho' : o' ≤ s.last) (hi : Inside s.start s.first (s.last + 1) (m₁.get .instruction).toNat)
    (cs : List Call) : Course s m h cs m₁ h₁ cs := by
  induction p with
  | done => exact .done ..
  | step hr hs p ih =>
    refine .step (inside_mono ho ho' _ hr) hs ?_ (ih hi)
    -- only the last machine may stand just past the part
    cases p with
    | done => exact hi
    | step hr₁ _ _ => exact inside_mono ho (Nat.le_succ_of_le ho') _ hr₁

theorem Halts.duringCall {e : Ended σ} (hh : Halts s m h cs e) :
    Halts s m h cs { e with inCall := true } := by
  cases hh with
  | operation hi hs hm => exact .operation hi hs hm
  | overflow hi hs => exact .overflow hi hs
  | shortage hc => exact .shortage hc
  | stray ha hc hb => exact .stray ha hc hb
  | fault hc hs hf => exact .fault hc hs hf
  | endless hc hs hn => exact .endless hc hs hn

/-! ### Following an evaluation -/

theorem attains_pure {v : α} (hg : goal m v w) : Attains s m w goal ((pure v : Evaluation σ α) w) :=
  ⟨m, .done m w.host w.calls, hg⟩

theorem attains_stop {cause : Cause} (hh : Halts s m w.host w.calls ⟨cause, w.host, w.calls, false⟩) :
    Attains s m w goal (Evaluation.stop cause w) :=
  ⟨m, w.host, w.calls, .done m w.host w.calls, hh⟩

theorem Attains.after {a : Except (Ended σ) (α × World σ)} (ha : Attains s m₁ w₁ goal a)
    (p : Course s m w.host w.calls m₁ w₁.host w₁.calls) : Attains s m w goal a := by
  cases a with
  | ok p' =>
    obtain ⟨m', q, hg⟩ := ha
    exact ⟨m', p.trans q, hg⟩
  | error e =>
    obtain ⟨m', h', cs', q, hh⟩ := ha
    exact ⟨m', h', cs', p.trans q, hh⟩

theorem Attains.bind {r : Evaluation σ α} {k : α → Evaluation σ β} (ha : Attains s m w goal (r w))
    (hk : ∀ m₁ v w₁, goal m₁ v w₁ → Attains s m₁ w₁ goal' (k v w₁)) :
    Attains s m w goal' ((r >>= k) w) := by
  show Attains s m w goal' (Evaluation.andThen r k w)
  rw [Evaluation.andThen]
  cases hr : r w with
  | ok p =>
    rw [hr] at ha
    obtain ⟨m₁, p₁, hg⟩ := ha
    exact (hk m₁ p.1 p.2 hg).after p₁
  | error e =>
    rw [hr] at ha
    exact ha

theorem Attains.imp {goal' : Machine → α → World σ → Prop} {a : Except (Ended σ) (α × World σ)}
    (ha : Attains s m w goal a) (hg : ∀ m' v w', goal m' v w' → goal' m' v w') :
    Attains s m w goal' a := by
  cases a with
  | ok p =>
    obtain ⟨m', p', hg'⟩ := ha
    exact ⟨m', p', hg _ _ _ hg'⟩
  | error e => exact ha

theorem Attains.duringCall {r : Evaluation σ α} (ha : Attains s m w goal (r w)) :
    Attains s m w goal (Evaluation.duringCall r w) := by
  rw [Evaluation.duringCall]
  cases hr : r w with
  | ok p =>
    rw [hr] at ha
    exact ha
  | error e =>
    rw [hr] at ha
    obtain ⟨m', h', cs', p, hh⟩ := ha
    exact ⟨m', h', cs', p, hh.duringCall⟩

end

/-! ### Machines in a world -/

/-- The machine is in a world, with the stack of a frame: the variables are at their places, and from
the floor on memory is that of the world. -/
structure Stands {σ : Type} (s : Stretch) (place : String → Option Word) (floor : Int) (f : Frame) (x : Int)
    (w : World σ) (m : Machine) : Prop extends Ready s.program place w.memory floor f x m where
  start : m.programOffset.toNat = s.start
  result : m.get .result = w.result

/-- The machine has come to an offset, and its stack is as it was. -/
structure Rests {σ : Type} (s : Stretch) (place : String → Option Word) (floor : Int) (f : Frame) (x : Int)
    (m : Machine) (o : Nat) (m' : Machine) (w : World σ) : Prop where
  position : m'.At o
  stands : Stands s place floor f x w m'
  spares : Memory.Spares x floor m.memory m'.memory

/-- The machine has come to an offset, and as many words have been pushed onto its stack. -/
structure Raised {σ : Type} (s : Stretch) (place : String → Option Word) (floor : Int) (f : Frame) (x : Int)
    (m : Machine) (o n : Nat) (m' : Machine) (w : World σ) : Prop where
  position : m'.At o
  stands : Stands s place floor (f.push n) (x - 4 * n) w m'
  le_floor : x ≤ floor
  spares : Memory.Spares x floor m.memory m'.memory

/-- The machine has come to an offset, and these words have been pushed onto its stack. -/
structure Piled {σ : Type} (s : Stretch) (place : String → Option Word) (floor : Int) (f : Frame) (x : Int)
    (m : Machine) (o : Nat) (ws : List Word) (m' : Machine) (w : World σ) : Prop
    extends Raised s place floor f x m o ws.length m' w where
  words : ∀ (i : Nat) v, ws[i]? = some v → m'.memory.word? (x - 4 * (i + 1)) = some v

section

variable {σ : Type} {s : Stretch} {place : String → Option Word} {floor x : Int} {f : Frame}
  {w w' : World σ} {m m₁ m₂ : Machine} {o o' n : Nat} {code : Code} {rs : List Register}
  {ws vs : List Word}

theorem Rests.trans (hR : Rests s place floor f x m o m₁ w) (hR' : Rests s place floor f x m₁ o' m₂ w') :
    Rests s place floor f x m o' m₂ w' :=
  ⟨hR'.position, hR'.stands, hR.spares.trans hR'.spares⟩

theorem Rests.of_eq (hR : Rests s place floor f x m o m₁ w) (h : o' = o) :
    Rests s place floor f x m o' m₁ w := h ▸ hR

theorem Stands.rests (hS : Stands s place floor f x w m) (ha : m.At o) :
    Rests s place floor f x m o m w := ⟨ha, hS, .refl _ _ _⟩

theorem Stands.inside (hS : Stands s place floor f x w m) (ha : m.At o) (hc : s.Has o code)
    (hpos : 0 < extent code) : Inside s.start s.first s.last (m.get .instruction).toNat := by
  have hi := hS.loaded.inside ha (e := o + extent code) (by omega) hc.placed.extent_le
  rw [hS.start] at hi
  exact inside_mono hc.first_le hc.le_last _ hi

theorem Stands.kept (hS : Stands s place floor f x w m) (p : Arrives 0 m m₁ rs o)
    (hrs : ∀ q ∈ rs, q.General) : Rests s place floor f x m o m₁ w where
  position := p.position
  stands := {
    loaded := p.loaded (by omega) hS.loaded
    stack := (p.others .stack (fun hm => (hrs _ hm).ne_stack rfl) (by decide)).trans hS.stack
    places := hS.places
    agree := by
      rw [p.memory]
      exact hS.agree
    nonneg := hS.nonneg
    le_floor := hS.le_floor
    floor_le := by
      rw [p.programOffset]
      exact hS.floor_le
    start := by
      rw [p.programOffset]
      exact hS.start
    result := (p.others .result (fun hm => (hrs _ hm).ne_result rfl) (by decide)).trans hS.result }
  spares := .of_agree (p.agree.mono hS.nonneg)

theorem Rests.piled (hR : Rests s place floor f x m o m₁ w) : Piled s place floor f x m o [] m₁ w where
  position := hR.position
  stands := by
    have hx : x - 4 * (([] : List Word).length : Int) = x := by simp
    rw [hx]
    exact hR.stands
  le_floor := hR.stands.le_floor
  spares := hR.spares
  words i v h := by simp at h

theorem Piled.append (hP : Piled s place floor f x m o ws m₁ w)
    (hP' : Piled s place floor (f.push ws.length) (x - 4 * ws.length) m₁ o' vs m₂ w') :
    Piled s place floor f x m o' (ws ++ vs) m₂ w' where
  position := hP'.position
  stands := by
    have hlen : x - 4 * ((ws ++ vs).length : Int) = x - 4 * ws.length - 4 * vs.length := by
      rw [List.length_append]
      omega
    have hS := hP'.stands
    rw [Frame.push_push, ← List.length_append] at hS
    rw [hlen]
    exact hS
  le_floor := hP.le_floor
  spares := hP.spares.trans (hP'.spares.mono (by omega))
  words i v hi := by
    have hle := hP.le_floor
    by_cases hlt : i < ws.length
    · rw [List.getElem?_append_left hlt] at hi
      rw [hP'.spares.word? (by omega) (by omega), hP.words i v hi]
    · rw [List.getElem?_append_right (by omega)] at hi
      have hw := hP'.words _ v hi
      have he : x - 4 * ws.length - 4 * ((i - ws.length : Nat) + 1) = x - 4 * (i + 1) := by omega
      rw [he] at hw
      exact hw

theorem Piled.rest (hP : Piled s place floor f x m o ws m₁ w)
    (hR : Rests s place floor (f.push ws.length) (x - 4 * ws.length) m₁ o' m₂ w') :
    Piled s place floor f x m o' ws m₂ w' := by
  have hP' := hP.append hR.piled
  rw [List.append_nil] at hP'
  exact hP'

theorem Raised.rest (hP : Raised s place floor f x m o n m₁ w)
    (hR : Rests s place floor (f.push n) (x - 4 * n) m₁ o' m₂ w') :
    Raised s place floor f x m o' n m₂ w' where
  position := hR.position
  stands := hR.stands
  le_floor := hP.le_floor
  spares := hP.spares.trans (hR.spares.mono (by omega))

theorem Rests.trans_piled (hR : Rests s place floor f x m o m₁ w)
    (hP : Piled s place floor f x m₁ o' ws m₂ w') : Piled s place floor f x m o' ws m₂ w' where
  position := hP.position
  stands := hP.stands
  le_floor := hP.le_floor
  spares := hR.spares.trans hP.spares
  words := hP.words

theorem Raised.dropped (hP : Raised s place floor f x m o n m₁ w) (p : Arrives 0 m₁ m₂ rs o')
    (hs : m₂.get .stack = Word.ofInt x) (hr : m₂.get .result = w'.result) (hw : w'.memory = w.memory) :
    Rests s place floor f x m o' m₂ w' where
  position := p.position
  stands := {
    loaded := p.loaded (by omega) hP.stands.loaded
    stack := hs
    places name := (f.place_pushes x n name).symm.trans (hP.stands.places name)
    agree := by
      rw [p.memory, hw]
      exact hP.stands.agree
    nonneg := by
      have hn := hP.stands.nonneg
      omega
    le_floor := hP.le_floor
    floor_le := by
      rw [p.programOffset]
      exact hP.stands.floor_le
    start := by
      rw [p.programOffset]
      exact hP.stands.start
    result := hr }
  spares := by
    rw [p.memory]
    exact hP.spares

end

section

variable {σ : Type} [Host σ] {s : Stretch} {place : String → Option Word} {floor x y : Int} {f : Frame}
  {w : World σ} {m m₁ : Machine} {o o' : Nat} {code : Code} {r q : Register} {rs : List Register}
  {v : Word} {ws : List Word} {α : Type} {goal : Machine → α → World σ → Prop}

/-! ### Fragments of the stretch -/

theorem Stands.course (hS : Stands s place floor f x w m) (hc : s.Has o code)
    (p : Runs y m w.host m₁ rs o (o + extent code)) :
    Course s m w.host w.calls m₁ w.host w.calls := by
  have hn : (m₁.get .instruction).toNat = s.start + (o + extent code) := by
    rw [p.position, absolute, p.programOffset, ← hS.start]
    exact hS.loaded.toNat_absolute hc.placed.extent_le
  have hpath := p.path
  rw [hS.start] at hpath
  refine hpath.course hc.first_le hc.le_last ?_ w.calls
  have hfirst := hc.first_le
  have hlast := hc.le_last
  unfold Inside
  omega

theorem attains_runs (hS : Stands s place floor f x w m) (hc : s.Has o code)
    (p : Runs 0 m w.host m₁ rs o (o + extent code)) (hrs : ∀ q ∈ rs, q.General) (hv : m₁.get r = v) :
    Attains s m w (fun m' v w' => Rests s place floor f x m (o + extent code) m' w' ∧ m'.get r = v)
      ((pure v : Evaluation σ Word) w) :=
  ⟨m₁, hS.course hc p, hS.kept p.toArrives hrs, hv⟩

theorem attains_fault {reason : Stop} {fault : Fault} (hS : Stands s place floor f x w m)
    (hc : s.Has o code)
    (hf : Faults (Inside m.programOffset.toNat o (o + extent code)) m w.host fault w.host)
    (hm : reason.Matches fault) :
    Attains s m w goal (Evaluation.stop (.operation reason) w) := by
  obtain ⟨m₁, h₁, m₂, p, hi, hs⟩ := hf
  rw [hS.start] at p hi
  have hfirst := hc.first_le
  have hlast := hc.le_last
  have hi₁ := inside_mono hfirst hlast _ hi
  refine ⟨m₁, h₁, w.calls, p.course hfirst hlast ?_ w.calls, .operation hi₁ hs hm⟩
  exact inside_mono (Nat.le_refl _) (Nat.le_succ _) _ hi₁

theorem attains_load (hS : Stands s place floor f x w m) (hr : r.General) (ha : m.At o)
    (hc : s.Has o [Code.load r q]) :
    Attains s m w (fun m' v w' => Rests s place floor f x m (o + 3) m' w' ∧ m'.get r = v)
      (Evaluation.load floor (m.get q) w) := by
  have hp := hc.placed
  unfold Evaluation.load
  by_cases hb : w.memory.Holds (m.get q) 4
  · have hb' := (hS.holds_iff _).2 hb
    rw [if_pos hb]
    by_cases hf : floor ≤ (m.get q).toNat
    · obtain ⟨m₁, p, hv, _⟩ := runs_load hr.ne_instruction hS.loaded ha hp hb' w.host
      rw [if_pos hf]
      exact attains_runs hS hc p (by simpa using hr) (hv.trans (hS.read_eq hf))
    · rw [if_neg hf]
      exact attains_stop (.stray ha hc hb')
  · have hb' : ¬m.memory.Holds (m.get q) 4 := fun h => hb ((hS.holds_iff _).1 h)
    rw [if_neg hb]
    exact attains_fault hS hc (faults_of_step hS.loaded ha hp (step_load_fault hS.loaded ha hp hb' _)) rfl

theorem attains_push (hS : Stands s place floor f x w m) (ha : m.At o) (hc : s.Has o [Code.push r]) :
    Attains s m w (fun m' _ w' => Piled s place floor f x m (o + 2) [m.get r] m' w')
      (Evaluation.push x w) := by
  have hp := hc.placed
  have hnonneg := hS.nonneg
  have hsize := hS.le_size
  unfold Evaluation.push
  by_cases hx : 4 ≤ x
  · obtain ⟨m₁, p, hs, hw⟩ := runs_push hS.stack hx hsize hS.loaded ha hp w.host
    have hx₁ : x - 4 * ((([m.get r] : List Word).length : Nat) : Int) = x - 4 := rfl
    rw [if_pos hx]
    refine ⟨m₁, hS.course hc p, ⟨p.position, ?_, hS.le_floor, .of_agree p.agree⟩, fun i v hi => ?_⟩
    · rw [hx₁]
      exact ⟨hS.pushed hx p hs, by rw [p.programOffset, hS.start],
        (p.others .result (by decide) (by decide)).trans hS.result⟩
    · cases i with
      | zero =>
        cases hi
        exact hw
      | succ i => simp at hi
  · -- the stack pointer comes round to an address past memory
    have hb : ¬m.memory.Holds (m.get .stack - 4) 4 := by
      have hlt : m.memory.size < 4294967296 := m.memory.size_lt
      rw [top_sub_four hS.stack, Memory.holds_ofInt_iff (by omega) (by omega) (by omega)]
      omega
    rw [if_neg hx]
    exact attains_stop (.overflow (hS.inside ha hc Nat.zero_lt_two)
      (step_push_fault hS.loaded ha hp hb w.host))

theorem Piled.popped {h : σ} (hP : Piled s place floor f x m o [v] m₁ w) (hr : r.General)
    (hc : s.Has o [Code.pop r]) :
    ∃ m₂, Runs 0 m₁ h m₂ [.stack, r] o (o + 2) ∧ m₂.get r = v ∧
      Rests s place floor f x m (o + 2) m₂ w := by
  have hw := hP.words 0 v rfl
  have hx : x - 4 * (((0 : Nat) : Int) + 1) = x - 4 * (([v] : List Word).length : Int) := rfl
  rw [hx] at hw
  obtain ⟨m₂, p, hv, hs⟩ := runs_pop hP.stands.stack hw hr.ne_instruction hr.ne_stack hP.stands.loaded
    hP.position hc.placed h
  refine ⟨m₂, p, hv, hP.dropped p.toArrives ?_ ?_ rfl⟩
  · have hx : x - 4 * (([v] : List Word).length : Int) + 4 = x := by simp
    rw [hs, hx]
  · exact (p.others .result (by simp [hr.ne_result.symm]; decide) (by decide)).trans hP.stands.result

end

end Machine

end WordMachine
