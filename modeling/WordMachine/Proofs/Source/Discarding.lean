import WordMachine.Proofs.Source.Evaluation

/-!
# Values that are discarded

What an expression does besides having a value. A call changes memory, the host and the result register,
in a way that is a parameter here, and all else that an expression does is to compute, to load words and
to keep words on the stack. An expression whose value is discarded only performs its calls: its operators,
loads and addresses are left out, but those in the arguments of calls are not.

With its value an expression takes more of the stack, so it may run out earlier. Apart from that, and as
long as nothing that is left out stops it, an expression performs the same calls with its value and
without (`value_sheds`).
-/

namespace WordMachine.Source

structure Call where
  callee : Signature
  arguments : List Word
deriving DecidableEq

/-- Memory, the host, the word in the result register, and the calls made so far. -/
structure World (σ : Type) where
  memory : Memory
  host : σ
  result : Word
  calls : List Call

/-- What comes of a call. -/
inductive Reply (σ : Type)
  | returns (memory : Memory) (host : σ) (result : Word)
  | fails (fault : Fault) (host : σ)
  /-- the function never ends -/
  | runsOn

/-- What functions do when they are called, in memory and with a host and a word in the result
register, and how many words of stack are enough for that. -/
structure Callees (σ : Type) where
  reply : Call → Memory → σ → Word → Reply σ
  need : Call → Memory → σ → Word → Nat

inductive Cause
  | operation (reason : Stop)
  /-- there is no room on the stack for one more word -/
  | overflow
  /-- there may be too little stack for a call -/
  | shortage (call : Call)
  /-- a load from the stack below the words that were there before the expression -/
  | stray (address : Word)
  /-- a fault in a called function -/
  | fault (f : Fault)
  /-- a called function never ends -/
  | endless
deriving DecidableEq

/-- With more stack it might have gone on. -/
def Cause.Tight : Cause → Prop
  | overflow => True
  | shortage _ => True
  | _ => False

/-- Why an expression stopped, with the host and the calls made until then, and whether it was in a call
or in the arguments of one. -/
structure Ended (σ : Type) where
  cause : Cause
  host : σ
  calls : List Call
  inCall : Bool

/-- What comes of a call in a world. When the function has returned the arguments are taken off the stack,
for which the result register is used. -/
def Reply.outcome {σ : Type} (call : Call) (w : World σ) : Reply σ → Except (Ended σ) (Word × World σ)
  | returns memory host result => .ok (result, ⟨memory, host,
      if call.arguments.length = 0 then result else UInt32.ofNat (4 * call.arguments.length),
      w.calls ++ [call]⟩)
  | fails f host => .error ⟨.fault f, host, w.calls ++ [call], false⟩
  | runsOn => .error ⟨.endless, w.host, w.calls ++ [call], false⟩

/-- What comes to a result and a world, or stops. -/
def Evaluation (σ α : Type) : Type := World σ → Except (Ended σ) (α × World σ)

namespace Evaluation

variable {σ α β : Type}

def andThen (r : Evaluation σ α) (k : α → Evaluation σ β) : Evaluation σ β := fun w =>
  match r w with
  | .ok (a, w) => k a w
  | .error e => .error e

instance : Monad (Evaluation σ) where
  pure a := fun w => .ok (a, w)
  bind := andThen

def stop (cause : Cause) : Evaluation σ α := fun w => .error ⟨cause, w.host, w.calls, false⟩

/-- The result of an operation, which changes nothing. -/
def operate : Except Stop α → Evaluation σ α
  | .ok v => pure v
  | .error reason => stop (.operation reason)

/-- The word at an address. Below the floor lie words that were not there before. -/
def load (floor : Int) (a : Word) : Evaluation σ Word := fun w =>
  if w.memory.Holds a 4 then
    if floor ≤ a.toNat then .ok (w.memory.read a 4, w) else stop (.stray a) w
  else stop (.operation (.outOfBounds a)) w

def push (x : Int) : Evaluation σ Unit := if 4 ≤ x then pure () else stop .overflow

def duringCall (r : Evaluation σ α) : Evaluation σ α := fun w =>
  match r w with
  | .ok p => .ok p
  | .error e => .error { e with inCall := true }

end Evaluation

open Evaluation

namespace Callees

variable {σ : Type} (c : Callees σ) (place : String → Option Word) (floor : Int)

def invoke (call : Call) (x : Int) : Evaluation σ Word := fun w =>
  if 4 ≤ x then
    if 4 * (c.need call w.memory w.host w.result : Int) ≤ x - 4 then
      (c.reply call w.memory w.host w.result).outcome call w
    else stop (.shortage call) w
  else stop .overflow w

mutual

/-- The value of an expression whose variables are at these places, on a stack that ends at an
address. -/
def value : Expr → Int → Evaluation σ Word
  | .int v, _ => pure v
  | .name name, _ => do
    let a ← operate (located (place name))
    load floor a
  | .binary op left right, x => do
    let b ← value right x
    push x
    let a ← value left (x - 4)
    operate (quotient (op.apply a b))
  | .unary .addressOf e, x => address e x
  | .unary .negate e, x => do
    let v ← value e x
    return -v
  | .unary .bitNot e, x => do
    let v ← value e x
    return ~~~v
  | .unary .logicalNot e, x => do
    let v ← value e x
    return truth (v = 0)
  | .unary .dereference e, x => do
    let a ← value e x
    load floor a
  | .call callee es, x => duringCall do
    let ws ← arguments es x
    c.invoke ⟨⟨callee, es.length⟩, ws⟩ (x - 4 * es.length)

def address : Expr → Int → Evaluation σ Word
  | .name name, _ => operate (located (place name))
  | .unary .dereference e, x => value e x
  | _, _ => stop (.operation .meaningless)

/-- The values of expressions, each of which is kept on the stack. -/
def arguments : List Expr → Int → Evaluation σ (List Word)
  | [], _ => pure []
  | e :: es, x => do
    let w ← value e x
    push x
    let ws ← arguments es (x - 4)
    return w :: ws

end

/-- The calls in an expression, without its value. -/
def effects : Expr → Int → Evaluation σ Unit
  | .int _, _ => pure ()
  | .name _, _ => pure ()
  | .binary _ left right, x => do
    effects right x
    effects left x
  | .unary _ e, x => effects e x
  | .call callee es, x => duringCall do
    let ws ← c.arguments place floor es x
    let _ ← c.invoke ⟨⟨callee, es.length⟩, ws⟩ (x - 4 * es.length)
    return ()

end Callees

section

variable {σ α β : Type}

/-! ### Calls are never undone -/

def callsOf : Except (Ended σ) (α × World σ) → List Call
  | .ok p => p.2.calls
  | .error e => e.calls

/-- Calls are added to those made before. -/
def Grows (r : Evaluation σ α) : Prop := ∀ w, w.calls <+: callsOf (r w)

variable {r : Evaluation σ α} {k : α → Evaluation σ β}

theorem Grows.bind (h : Grows r) (hk : ∀ a, Grows (k a)) : Grows (r >>= k) := by
  intro w
  have hw := h w
  show w.calls <+: callsOf (andThen r k w)
  rw [andThen]
  cases hr : r w with
  | error e =>
    rw [hr] at hw
    exact hw
  | ok p =>
    rw [hr] at hw
    exact List.IsPrefix.trans hw (hk p.1 p.2)

theorem Grows.duringCall (h : Grows r) : Grows (duringCall r) := by
  intro w
  have hw := h w
  rw [Evaluation.duringCall]
  cases hr : r w <;> rw [hr] at hw <;> exact hw

theorem grows_pure (v : α) : Grows (pure v : Evaluation σ α) := fun _ => List.prefix_rfl

theorem grows_stop (cause : Cause) : Grows (stop cause : Evaluation σ α) := fun _ => List.prefix_rfl

theorem grows_operate (v : Except Stop α) : Grows (operate v : Evaluation σ α) := by
  cases v with
  | ok v => exact grows_pure v
  | error reason => exact grows_stop _

theorem grows_load (floor : Int) (a : Word) : Grows (load floor a : Evaluation σ Word) := by
  intro w
  unfold load
  split
  · split <;> exact List.prefix_rfl
  · exact List.prefix_rfl

theorem grows_push (x : Int) : Grows (push x : Evaluation σ Unit) := by
  unfold push
  split
  · exact grows_pure ()
  · exact grows_stop _

variable (c : Callees σ) (place : String → Option Word) (floor : Int)

theorem grows_invoke (call : Call) (x : Int) : Grows (c.invoke call x) := by
  intro w
  unfold Callees.invoke
  split
  · split
    · cases c.reply call w.memory w.host w.result <;> exact List.prefix_append _ _
    · exact List.prefix_rfl
  · exact List.prefix_rfl

mutual

theorem grows_value (e : Expr) (x : Int) : Grows (c.value place floor e x) := by
  match e with
  | .int v => exact grows_pure v
  | .name _ => exact (grows_operate _).bind fun a => grows_load floor a
  | .binary op left right =>
    exact (grows_value right x).bind fun b => (grows_push x).bind fun _ =>
      (grows_value left (x - 4)).bind fun a => grows_operate _
  | .unary .addressOf e => exact grows_address e x
  | .unary .negate e | .unary .bitNot e | .unary .logicalNot e =>
    exact (grows_value e x).bind fun v => grows_pure _
  | .unary .dereference e => exact (grows_value e x).bind fun a => grows_load floor a
  | .call callee es =>
    exact ((grows_arguments es x).bind fun ws => grows_invoke c _ _).duringCall

theorem grows_address (e : Expr) (x : Int) : Grows (c.address place floor e x) := by
  match e with
  | .name _ => exact grows_operate _
  | .unary .dereference e => exact grows_value e x
  | .int _ | .binary _ _ _ | .call _ _ | .unary .addressOf _ | .unary .negate _ | .unary .bitNot _
  | .unary .logicalNot _ => exact grows_stop _

theorem grows_arguments (es : List Expr) (x : Int) : Grows (c.arguments place floor es x) := by
  match es with
  | [] => exact grows_pure _
  | e :: es =>
    exact (grows_value e x).bind fun w => (grows_push x).bind fun _ =>
      (grows_arguments es (x - 4)).bind fun ws => grows_pure _

end

theorem grows_effects (e : Expr) (x : Int) : Grows (c.effects place floor e x) := by
  match e with
  | .int _ | .name _ => exact grows_pure ()
  | .binary op left right => exact (grows_effects right x).bind fun _ => grows_effects left x
  | .unary op e => exact grows_effects e x
  | .call callee es =>
    exact ((grows_arguments c place floor es x).bind fun ws => (grows_invoke c _ _).bind
      fun _ => grows_pure ()).duringCall

end

section

variable {σ α β : Type}

/-! ### More stack -/

/-- The second outcome is the first one, unless that came of too little stack. Then the calls made are
the first ones of the second. -/
inductive Outlasts (a b : Except (Ended σ) (α × World σ)) : Prop
  | same : a = b → Outlasts a b
  | tight {e} : a = .error e → e.cause.Tight → e.calls <+: callsOf b → Outlasts a b

/-- With more stack, the second evaluation comes to the same as the first or goes on. -/
def Within (r r' : Evaluation σ α) : Prop := ∀ w, Outlasts (r w) (r' w)

variable {r r' : Evaluation σ α} {k k' : α → Evaluation σ β} {x y : Int}

theorem within_refl (r : Evaluation σ α) : Within r r := fun _ => .same rfl

theorem Within.bind (h : Within r r') (hk : ∀ a, Within (k a) (k' a)) (hg : ∀ a, Grows (k' a)) :
    Within (r >>= k) (r' >>= k') := by
  intro w
  show Outlasts (andThen r k w) (andThen r' k' w)
  rw [andThen, andThen]
  cases h w with
  | same hw =>
    rw [hw]
    cases r' w with
    | error e => exact .same rfl
    | ok p => exact hk p.1 p.2
  | tight hr ht hcalls =>
    rw [hr]
    cases hr' : r' w with
    | error e' =>
      rw [hr'] at hcalls
      exact .tight rfl ht hcalls
    | ok p =>
      rw [hr'] at hcalls
      exact .tight rfl ht (List.IsPrefix.trans hcalls (hg p.1 p.2))

theorem callsOf_duringCall (a : Evaluation σ α) (w : World σ) : callsOf (duringCall a w) = callsOf (a w) := by
  rw [duringCall]
  cases a w <;> rfl

theorem Within.duringCall (h : Within r r') : Within (duringCall r) (duringCall r') := by
  intro w
  cases h w with
  | same hw =>
    refine .same ?_
    rw [Evaluation.duringCall, Evaluation.duringCall, hw]
  | @tight e hr ht hcalls =>
    rw [← callsOf_duringCall] at hcalls
    refine .tight (e := { e with inCall := true }) ?_ ht hcalls
    rw [Evaluation.duringCall, hr]

theorem within_push (hxy : x ≤ y) : Within (push x : Evaluation σ Unit) (push y) := by
  intro w
  by_cases hx : 4 ≤ x
  · refine .same ?_
    rw [push, push, if_pos hx, if_pos (by omega)]
  · refine .tight (e := ⟨.overflow, w.host, w.calls, false⟩) ?_ trivial (grows_push y w)
    rw [push, if_neg hx]
    rfl

variable (c : Callees σ) (place : String → Option Word) (floor : Int)

theorem within_invoke (call : Call) (hxy : x ≤ y) : Within (c.invoke call x) (c.invoke call y) := by
  intro w
  have hg := grows_invoke c call y w
  by_cases hx : 4 ≤ x
  · by_cases hneed : 4 * (c.need call w.memory w.host w.result : Int) ≤ x - 4
    · refine .same ?_
      rw [Callees.invoke, Callees.invoke, if_pos hx, if_pos hneed, if_pos (by omega), if_pos (by omega)]
    · refine .tight (e := ⟨.shortage call, w.host, w.calls, false⟩) ?_ trivial hg
      rw [Callees.invoke, if_pos hx, if_neg hneed]
      rfl
  · refine .tight (e := ⟨.overflow, w.host, w.calls, false⟩) ?_ trivial hg
    rw [Callees.invoke, if_neg hx]
    rfl

mutual

theorem value_within (e : Expr) {x y : Int} (hxy : x ≤ y) :
    Within (c.value place floor e x) (c.value place floor e y) := by
  match e with
  | .int _ | .name _ => exact within_refl _
  | .binary op left right =>
    refine (value_within right hxy).bind (fun b => (within_push hxy).bind (fun _ =>
      (value_within left (Int.sub_le_sub_right hxy 4)).bind (fun a => within_refl _)
        fun a => grows_operate _) fun _ => ?_) fun b => ?_
    · exact (grows_value c place floor left _).bind fun a => grows_operate _
    · exact (grows_push y).bind fun _ => (grows_value c place floor left _).bind fun a => grows_operate _
  | .unary .addressOf e => exact address_within e hxy
  | .unary .negate e | .unary .bitNot e | .unary .logicalNot e =>
    exact (value_within e hxy).bind (fun v => within_refl _) fun v => grows_pure _
  | .unary .dereference e =>
    exact (value_within e hxy).bind (fun a => within_refl _) fun a => grows_load floor a
  | .call callee es =>
    exact ((arguments_within es hxy).bind (fun ws => within_invoke c _ (Int.sub_le_sub_right hxy _))
      fun ws => grows_invoke c _ _).duringCall

theorem address_within (e : Expr) {x y : Int} (hxy : x ≤ y) :
    Within (c.address place floor e x) (c.address place floor e y) := by
  match e with
  | .unary .dereference e => exact value_within e hxy
  | .name _ | .int _ | .binary _ _ _ | .call _ _ | .unary .addressOf _ | .unary .negate _
  | .unary .bitNot _ | .unary .logicalNot _ => exact within_refl _

theorem arguments_within (es : List Expr) {x y : Int} (hxy : x ≤ y) :
    Within (c.arguments place floor es x) (c.arguments place floor es y) := by
  match es with
  | [] => exact within_refl _
  | e :: es =>
    refine (value_within e hxy).bind (fun w => (within_push hxy).bind (fun _ =>
      (arguments_within es (Int.sub_le_sub_right hxy 4)).bind (fun ws => within_refl _)
        fun ws => grows_pure _) fun _ => ?_) fun w => ?_
    · exact (grows_arguments c place floor es _).bind fun ws => grows_pure _
    · exact (grows_push y).bind fun _ => (grows_arguments c place floor es _).bind fun ws => grows_pure _

end

end

section

variable {σ α β : Type}

/-! ### Without the value -/

/-- What an outcome with a value says of the one without it. The end is the same, and so is a stop in a
call or in its arguments. If it stopped elsewhere, or for too little stack, the calls made are the first
ones of those made without the value. -/
inductive Sheds (a : Except (Ended σ) (α × World σ)) (b : Except (Ended σ) (Unit × World σ)) : Prop
  | done {v w} : a = .ok (v, w) → b = .ok ((), w) → Sheds a b
  | stops {e} : a = .error e → e.inCall = true → b = .error e → Sheds a b
  | early {e} : a = .error e → e.inCall = false ∨ e.cause.Tight → e.calls <+: callsOf b → Sheds a b

/-- The second evaluation is the first one without its value. -/
def Forgets (r : Evaluation σ α) (r' : Evaluation σ Unit) : Prop := ∀ w, Sheds (r w) (r' w)

/-- What follows changes nothing, but it may stop. -/
def Idle (r : Evaluation σ α) : Prop :=
  ∀ w, (∃ v, r w = .ok (v, w)) ∨ ∃ cause, r w = stop cause w

variable {r : Evaluation σ α} {r' s : Evaluation σ Unit} {k : α → Evaluation σ β} {x y : Int}

theorem idle_pure (v : α) : Idle (pure v : Evaluation σ α) := fun _ => .inl ⟨v, rfl⟩

theorem idle_operate (v : Except Stop α) : Idle (operate v : Evaluation σ α) := by
  cases v with
  | ok v => exact idle_pure v
  | error reason => exact fun w => .inr ⟨_, rfl⟩

theorem idle_load (floor : Int) (a : Word) : Idle (load floor a : Evaluation σ Word) := by
  intro w
  unfold load
  split
  · split
    · exact .inl ⟨_, rfl⟩
    · exact .inr ⟨_, rfl⟩
  · exact .inr ⟨_, rfl⟩

theorem idle_push (x : Int) : Idle (push x : Evaluation σ Unit) := by
  unfold push
  split
  · exact idle_pure ()
  · exact fun w => .inr ⟨_, rfl⟩

theorem Forgets.bind (h : Forgets r r') (hk : ∀ a, Forgets (k a) s) (hs : Grows s) :
    Forgets (r >>= k) (r' >>= fun _ => s) := by
  intro w
  show Sheds (andThen r k w) (andThen r' (fun _ => s) w)
  rw [andThen, andThen]
  cases h w with
  | done hr hr' =>
    rw [hr, hr']
    exact hk _ _
  | stops hr hin hr' =>
    rw [hr, hr']
    exact .stops rfl hin rfl
  | early hr he hcalls =>
    rw [hr]
    cases hr' : r' w with
    | error e' =>
      rw [hr'] at hcalls
      exact .early rfl he hcalls
    | ok p =>
      rw [hr'] at hcalls
      exact .early rfl he (List.IsPrefix.trans hcalls (hs p.2))

theorem Forgets.before (h : Forgets r r') (hk : ∀ a, Idle (k a)) : Forgets (r >>= k) r' := by
  intro w
  show Sheds (andThen r k w) (r' w)
  rw [andThen]
  cases h w with
  | @done v w' hr hr' =>
    rw [hr, hr']
    obtain ⟨v', hv⟩ | ⟨cause, hc⟩ := hk v w'
    · exact .done hv rfl
    · exact .early hc (.inl rfl) List.prefix_rfl
  | stops hr hin hr' =>
    rw [hr, hr']
    exact .stops rfl hin rfl
  | early hr he hcalls =>
    rw [hr]
    exact .early rfl he hcalls

theorem forgets_of_idle (h : Idle r) : Forgets r (pure ()) := by
  intro w
  obtain ⟨v, hv⟩ | ⟨cause, hc⟩ := h w
  · exact .done hv rfl
  · exact .early hc (.inl rfl) List.prefix_rfl

theorem Forgets.after {r : Evaluation σ Unit} {k : Unit → Evaluation σ β} (h : Idle r)
    (hk : Forgets (k ()) s) (hs : Grows s) : Forgets (r >>= k) s :=
  (forgets_of_idle h).bind (fun _ => hk) hs

theorem forgets_duringCall {r r' : Evaluation σ α} (h : Within r r') :
    Forgets (duringCall r) (duringCall (r' >>= fun _ => pure ())) := by
  intro w
  have hcalls : callsOf (duringCall (r' >>= fun _ => pure ()) w) = callsOf (r' w) := by
    rw [callsOf_duringCall]
    show callsOf (andThen r' (fun _ => pure ()) w) = _
    rw [andThen]
    cases r' w <;> rfl
  cases h w with
  | same hw =>
    show Sheds (duringCall r w) (duringCall (andThen r' fun _ => pure ()) w)
    rw [duringCall, duringCall, andThen, hw]
    cases r' w with
    | error e => exact .stops rfl rfl rfl
    | ok p => exact .done rfl rfl
  | @tight e hr ht hpre =>
    rw [← hcalls] at hpre
    refine .early (e := { e with inCall := true }) ?_ (.inr ht) hpre
    rw [duringCall, hr]

variable (c : Callees σ) (place : String → Option Word) (floor : Int)

theorem Evaluation.bind_assoc {γ : Type} (r : Evaluation σ α) (k : α → Evaluation σ β) (l : β → Evaluation σ γ) :
    r >>= k >>= l = r >>= fun a => k a >>= l := by
  show andThen (andThen r k) l = andThen r fun a => andThen (k a) l
  funext w
  simp only [andThen]
  cases r w <;> rfl

mutual

/-- An expression without its value makes the calls that it makes with it, and stops where it stops in a
call or in the arguments of one. Only what is left out and the stack can make a difference. -/
theorem value_sheds (e : Expr) {x y : Int} (hxy : x ≤ y) :
    Forgets (c.value place floor e x) (c.effects place floor e y) := by
  match e with
  | .int v => exact forgets_of_idle (idle_pure v)
  | .name name =>
    exact (forgets_of_idle (idle_operate _)).before fun a => idle_load floor a
  | .binary op left right =>
    -- with its value the left operand is evaluated below the word of the right one
    have hleft := value_sheds left (Int.le_trans (Int.sub_le_self x (by decide : (0 : Int) ≤ 4)) hxy)
    have hg := grows_effects c place floor left y
    exact (value_sheds right hxy).bind
      (fun b => .after (idle_push x) (hleft.before fun a => idle_operate _) hg) hg
  | .unary .addressOf e => exact address_sheds e hxy
  | .unary .negate e | .unary .bitNot e | .unary .logicalNot e =>
    exact (value_sheds e hxy).before fun v => idle_pure _
  | .unary .dereference e => exact (value_sheds e hxy).before fun a => idle_load floor a
  | .call callee es =>
    have h := forgets_duringCall ((arguments_within c place floor es hxy).bind
      (fun ws => within_invoke c ⟨⟨callee, es.length⟩, ws⟩ (Int.sub_le_sub_right hxy (4 * es.length)))
      fun ws => grows_invoke c _ _)
    rw [Evaluation.bind_assoc] at h
    exact h

theorem address_sheds (e : Expr) {x y : Int} (hxy : x ≤ y) :
    Forgets (c.address place floor e x) (c.effects place floor e y) := by
  match e with
  | .name _ => exact forgets_of_idle (idle_operate _)
  | .unary .dereference e => exact value_sheds e hxy
  | .int _ | .binary _ _ _ | .call _ _ | .unary .addressOf _ | .unary .negate _ | .unary .bitNot _
  | .unary .logicalNot _ =>
    exact fun w => .early rfl (.inl rfl) (grows_effects c place floor _ y w)

end

end

end WordMachine.Source
