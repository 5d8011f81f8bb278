import WordMachine.Proofs.Compiler.Tracing

/-!
# Functions that are called

What a function does when it is called is known from outside: a reply to the call, which depends on its
arguments, on memory above the stack of the caller, on the host and on the result register, but not on
where the stack is. So a call from code of the stretch follows its evaluation, and the arguments are taken
off the stack afterwards.
-/

namespace WordMachine

namespace Machine

open Assembly Compiler Source

/-! ### Called functions -/

/-- The machine stands at the entry of a function, with the return address on top of its stack and the
arguments above it. From the floor on memory is this one. -/
structure Invoked (program : List UInt8) (floor : Int) (call : Call) (entry back : Word) (x : Int)
    (memory : Memory) (m : Machine) : Prop where
  loaded : m.Loaded program
  position : m.get .instruction = m.absolute entry
  stack : m.get .stack = Word.ofInt x
  back : m.memory.word? x = some back
  arguments : ∀ (i : Nat) v, call.arguments[i]? = some v →
    m.memory.word? (x + 4 * (call.arguments.length - i)) = some v
  le_floor : x + 4 * (call.arguments.length + 1) ≤ floor
  floor_le : floor ≤ m.programOffset.toNat
  agree : memory.AgreeFrom m.memory floor

/-- The function has returned, and has left the words above its arguments as they were. From the floor on
memory is this one. -/
structure Resumed (program : List UInt8) (floor : Int) (call : Call) (back : Word) (x : Int)
    (memory : Memory) (m m' : Machine) : Prop where
  loaded : m'.Loaded program
  programOffset : m'.programOffset = m.programOffset
  position : m'.get .instruction = back
  stack : m'.get .stack = Word.ofInt (x + 4)
  spares : Memory.Spares (x + 4 * (call.arguments.length + 1)) floor m.memory m'.memory
  agree : memory.AgreeFrom m'.memory floor

/-- What the machine does from the entry of a function on is this reply to the call. -/
def Replies {σ : Type} [Host σ] (program : List UInt8) (floor : Int) (call : Call) (back : Word) (x : Int)
    (m : Machine) (h : σ) : Reply σ → Prop
  | .returns memory host result => ∃ m', Path Anywhere m h m' host ∧
    Resumed program floor call back x memory m m' ∧ m'.get .result = result
  | .fails f host => Faults Anywhere m h f host
  | .runsOn => ∀ n, ∃ m' h', run n m h = (m', h', .running)

end Machine

namespace Source

open Assembly Compiler Machine

/-- The functions at the labels of a program do what is said of their calls, wherever the stack ends below
the floor, if only it has as many words as they need. -/
def Callees.Describes {σ : Type} [Host σ] (c : Callees σ) (labels : Labels) (program : List UInt8)
    (floor : Int) : Prop :=
  ∀ (call : Call) entry back x memory m (h : σ),
    labels.get? (Label.function call.callee).text = some entry →
    call.arguments.length = call.callee.arity →
    Invoked program floor call entry back x memory m →
    4 * (c.need call memory h (m.get .result) : Int) ≤ x →
    Replies program floor call back x m h (c.reply call memory h (m.get .result))

end Source

namespace Machine

open Assembly Compiler Source

section

variable {σ : Type} {s : Stretch} {place : String → Option Word} {floor x : Int}
  {f : Frame} {w : World σ} {m m₁ m₂ m' : Machine} {o : Nat}  {ws : List Word}

/-! ### Calls -/

theorem Piled.calling (hP : Piled s place floor f x m o ws m₁ w) {g : Signature}
    (hg : ws.length = g.arity) (hc : s.Has o [Code.call (.function g)]) :
    Calling s m₁ ⟨g, ws⟩ (m₁.absolute (UInt32.ofNat (o + 5))) where
  line := ⟨o, hP.position, hc, rfl⟩
  arity := hg
  arguments := by
    refine ⟨_, hP.stands.stack, fun i v hi => ?_⟩
    have he : x - 4 * ws.length + 4 * (ws.length - 1 - i) = x - 4 * (i + 1) := by omega
    show m₁.memory.word? (x - 4 * ws.length + 4 * (ws.length - 1 - i)) = some v
    rw [he]
    exact hP.words i v hi

theorem Piled.invoked (hP : Piled s place floor f x m o ws m₁ w) (g : Signature) (entry back : Word)
    (hx : 4 ≤ x - 4 * ws.length) :
    Invoked s.program floor ⟨g, ws⟩ entry back (x - 4 * ws.length - 4) w.memory
        (m₁.pushed back (m₁.absolute entry)) ∧
      m₁.memory.AgreeFrom (m₁.pushed back (m₁.absolute entry)).memory (x - 4 * ws.length) := by
  have hS := hP.stands
  obtain ⟨p, hs, hw⟩ := arrives_pushed hS.stack hx hS.le_size back entry.toNat
  have hpos := p.position
  rw [UInt32.ofNat_toNat] at p hs hw hpos
  have hfloor := hP.le_floor
  refine ⟨⟨p.loaded (Int.le_trans hS.le_floor hS.floor_le) hS.loaded, ?_, hs, hw, fun i v hi => ?_, ?_,
    hS.floor_le, hS.agree.trans (p.agree.mono hS.le_floor)⟩, p.agree⟩
  · rwa [Machine.At, UInt32.ofNat_toNat] at hpos
  · obtain ⟨hlt, _⟩ := List.getElem?_eq_some_iff.1 hi
    have hlt : i < ws.length := hlt
    have he : x - 4 * ws.length - 4 + 4 * (ws.length - i) = x - 4 * (i + 1) := by omega
    show Memory.word? _ (x - 4 * ws.length - 4 + 4 * (ws.length - i)) = some v
    rw [he, p.agree.word? (by omega)]
    exact hP.words i v hi
  · show x - 4 * ws.length - 4 + 4 * (ws.length + 1) ≤ floor
    omega

theorem Piled.holds_iff (hP : Piled s place floor f x m o ws m₁ w) :
    m₁.memory.Holds (m₁.get .stack - 4) 4 ↔ 4 ≤ x - 4 * (ws.length : Int) := by
  have hlt : m₁.memory.size < 4294967296 := m₁.memory.size_lt
  have hnonneg := hP.stands.nonneg
  have hsize := hP.stands.le_size
  rw [top_sub_four hP.stands.stack, Memory.holds_ofInt_iff (by omega) (by omega) (by omega)]
  omega

theorem Piled.resumed (hP : Piled s place floor f x m o ws m₁ w) {g : Signature} (w' : World σ)
    (hm : m₁.memory.AgreeFrom m'.memory (x - 4 * ws.length)) (hp : m'.programOffset = m₁.programOffset)
    (hR : Resumed s.program floor ⟨g, ws⟩ (m₁.absolute (UInt32.ofNat (o + 5))) (x - 4 * ws.length - 4)
      w'.memory m' m₂) (hr : m₂.get .result = w'.result) :
    Raised s place floor f x m (o + 5) ws.length m₂ w' where
  position := by
    rw [Machine.At, hR.position, absolute, absolute, hR.programOffset, hp]
  stands := {
    loaded := hR.loaded
    stack := by
      rw [hR.stack, Int.sub_add_cancel]
    places := hP.stands.places
    agree := hR.agree
    nonneg := hP.stands.nonneg
    le_floor := hP.stands.le_floor
    floor_le := by
      rw [hR.programOffset, hp]
      exact hP.stands.floor_le
    start := by
      rw [hR.programOffset, hp]
      exact hP.stands.start
    result := hr }
  le_floor := hP.le_floor
  spares := by
    -- the function may have changed its arguments, but not what lies above them
    have he : x - 4 * ws.length - 4 + 4 * (ws.length + 1) = x := by omega
    have hs : Memory.Spares (x - 4 * ws.length - 4 + 4 * (ws.length + 1)) floor m'.memory m₂.memory :=
      hR.spares
    rw [he] at hs
    exact hP.spares.trans ((Memory.Spares.of_agree (hm.mono (by omega))).trans hs)

end

section

variable {σ : Type} [Host σ] {c : Callees σ} {s : Stretch} {place : String → Option Word} {floor x : Int}
  {f : Frame} {w : World σ} {m m₁ m' : Machine} {o n : Nat} {ws : List Word}

theorem Raised.released {h : σ} (hP : Raised s place floor f x m o n m₁ w)
    (hc : s.Has o (Code.release .result n)) :
    ∃ m₂, Runs 0 m₁ h m₂ [.result, .stack] o (o + extent (Code.release .result n)) ∧
      Rests s place floor f x m (o + extent (Code.release .result n)) m₂
        { w with result := if n = 0 then w.result else UInt32.ofNat (4 * n) } := by
  have hplaced := hc.placed
  rw [← List.append_nil (Code.release .result n)] at hplaced
  obtain ⟨m₂, p, hs, hr⟩ := runs_release_through (by decide) (by decide) hP.stands.loaded hP.position
    hplaced h
  refine ⟨m₂, p, hP.dropped p.toArrives ?_ ?_ rfl⟩
  · have h4 : ((4 * n : Nat) : Int) = 4 * (n : Int) := by omega
    rw [hs, hP.stands.stack, ← Word.ofInt_natCast, ← Word.ofInt_add, h4, Int.sub_add_cancel]
  · rw [hr, hP.stands.result]

def afterCall (out : Option Register) (n : Nat) : Code :=
  (out.map fun r => Code.mov r .result).toList ++ Code.release .result n

theorem Raised.concluded {out : Option Register} (hout : ∀ r, out = some r → r.General)
    (hP : Raised s place floor f x m o n m₁ w) (hc : s.Has o (afterCall out n)) :
    ∃ m₂, Course s m₁ w.host w.calls m₂ w.host w.calls ∧
      Rests s place floor f x m (o + extent (afterCall out n)) m₂
        { w with result := if n = 0 then w.result else UInt32.ofNat (4 * n) } ∧
      ∀ r, out = some r → m₂.get r = w.result := by
  cases out with
  | none =>
    obtain ⟨m₂, p, hR⟩ := hP.released (h := w.host) hc
    exact ⟨m₂, hP.stands.course hc p, hR, fun r hr => by cases hr⟩
  | some r =>
    have hr := hout r rfl
    have hmov : s.Has o [Code.mov r .result] := hc.left
    obtain ⟨m₂, p, hv, _⟩ := runs_mov hr.ne_instruction hP.stands.loaded hP.position hmov.placed w.host
    have hP₂ := hP.rest (hP.stands.kept p.toArrives (by simpa using hr))
    obtain ⟨m₃, p₃, hR⟩ := hP₂.released (h := w.host) hc.right
    refine ⟨m₃, (hP.stands.course hmov p).trans (hP₂.stands.course hc.right p₃), hR.of_eq ?_, ?_⟩
    · rw [afterCall, extent_append, Nat.add_assoc]
      rfl
    · intro q hq
      cases hq
      rw [p₃.others r (by simp [hr.ne_result, hr.ne_stack]) hr.ne_instruction, hv, hP.stands.result]

theorem Piled.called (hP : Piled s place floor f x m o ws m₁ w) {g : Signature}
    (hc : s.Has o [Code.call (.function g)]) (hx : 4 ≤ x - 4 * ws.length) :
    ∃ entry m', s.labels.get? (Label.function g).text = some entry ∧
      m₁.step w.host = (m', w.host, .running) ∧
      Invoked s.program floor ⟨g, ws⟩ entry (m₁.absolute (UInt32.ofNat (o + 5))) (x - 4 * ws.length - 4)
        w.memory m' ∧
      m₁.memory.AgreeFrom m'.memory (x - 4 * ws.length) ∧ m'.programOffset = m₁.programOffset ∧
      m'.get .result = w.result := by
  obtain ⟨entry, hentry⟩ := hc.placed.target rfl
  obtain ⟨hI, hm⟩ := hP.invoked g entry (m₁.absolute (UInt32.ofNat (o + 5))) hx
  refine ⟨entry, _, hentry, step_call hP.stands.loaded hP.position hc.placed hentry (hP.holds_iff.2 hx) _,
    hI, hm, rfl, ?_⟩
  rw [get_pushed, if_neg (by decide), if_neg (by decide), hP.stands.result]

theorem Piled.attains_reply {out : Option Register} (hout : ∀ r, out = some r → r.General)
    (hP : Piled s place floor f x m o ws m₁ w) {g : Signature} (hg : ws.length = g.arity)
    (hc : s.Has o (Code.call (.function g) :: afterCall out ws.length))
    (hs : m₁.step w.host = (m', w.host, .running))
    (hm : m₁.memory.AgreeFrom m'.memory (x - 4 * ws.length)) (hp : m'.programOffset = m₁.programOffset)
    {reply : Reply σ} (hr : Replies s.program floor ⟨g, ws⟩ (m₁.absolute (UInt32.ofNat (o + 5)))
      (x - 4 * ws.length - 4) m' w.host reply) :
    Attains s m₁ w (fun m' v w' => Rests s place floor f x m
      (o + 5 + extent (afterCall out ws.length)) m' w' ∧ ∀ r, out = some r → m'.get r = v)
      (reply.outcome ⟨g, ws⟩ w) := by
  have hcall : s.Has o [Code.call (.function g)] := Stretch.Has.left (b := afterCall out ws.length) hc
  have hafter : s.Has (o + 5) (afterCall out ws.length) :=
    Stretch.Has.right (a := [Code.call (.function g)]) hc
  have hcalling := hP.calling hg hcall
  cases reply with
  | returns memory host result =>
    obtain ⟨m₂, p, hR, hres⟩ := hr
    have hP₂ := hP.resumed ⟨memory, host, result, w.calls ++ [⟨g, ws⟩]⟩ hm hp hR hres
    obtain ⟨m₃, p₃, hR₃, hv⟩ := hP₂.concluded hout hafter
    have hstack : m₂.get .stack = m₁.get .stack := by
      rw [hP₂.stands.stack, hP.stands.stack]
    exact ⟨m₃, .call hcalling hs p hR.position hstack p₃, hR₃, hv⟩
  | fails fault host => exact ⟨m₁, w.host, w.calls, .done .., .fault hcalling hs hr⟩
  | runsOn => exact ⟨m₁, w.host, w.calls, .done .., .endless hcalling hs hr⟩

theorem Piled.attains_invoke (hD : c.Describes s.labels s.program floor) {out : Option Register}
    (hout : ∀ r, out = some r → r.General) (hP : Piled s place floor f x m o ws m₁ w) {g : Signature}
    (hg : ws.length = g.arity) (hc : s.Has o (Code.call (.function g) :: afterCall out ws.length)) :
    Attains s m₁ w (fun m' v w' => Rests s place floor f x m
      (o + 5 + extent (afterCall out ws.length)) m' w' ∧ ∀ r, out = some r → m'.get r = v)
      (c.invoke ⟨g, ws⟩ (x - 4 * ws.length) w) := by
  have hcall : s.Has o [Code.call (.function g)] := Stretch.Has.left (b := afterCall out ws.length) hc
  unfold Callees.invoke
  by_cases hx : 4 ≤ x - 4 * (ws.length : Int)
  · rw [if_pos hx]
    by_cases hneed : 4 * (c.need ⟨g, ws⟩ w.memory w.host w.result : Int) ≤ x - 4 * ws.length - 4
    · obtain ⟨entry, m', hentry, hs, hI, hm, hp, hres⟩ := hP.called hcall hx
      have hreply := hD ⟨g, ws⟩ entry _ _ _ _ w.host hentry hg hI (by rwa [hres])
      rw [hres] at hreply
      rw [if_pos hneed]
      exact hP.attains_reply hout hg hc hs hm hp hreply
    · rw [if_neg hneed]
      exact attains_stop (.shortage (hP.calling hg hcall))
  · obtain ⟨entry, hentry⟩ := hcall.placed.target rfl
    rw [if_neg hx]
    exact attains_stop (.overflow (hP.stands.inside hP.position hcall (Nat.succ_pos 4))
      (step_call_fault hP.stands.loaded hP.position hcall.placed hentry (fun h => hx (hP.holds_iff.1 h)) w.host))

end

end Machine

end WordMachine
