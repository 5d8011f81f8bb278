import WordMachine.Machine.Host

/-!
# What passes through a byte stream

A stream is asked for words, is given words and is flushed, in any order, and its source and its sink
may fail meanwhile. What it has taken from the source is what it has answered: every byte once and
every failure once, in order, and no interruption. It asks the source only when the sink has just been
flushed. The sink holds the low bytes of the words that it has accepted.
-/

namespace WordMachine

/-! ### Sources -/

namespace SourceItem

def byte? : SourceItem → Option UInt8
  | byte b => some b
  | interrupted | failure _ | endOfFile => none

def reason? : SourceItem → Option String
  | failure reason => some reason
  | byte _ | interrupted | endOfFile => none

abbrev interruptions (n : Nat) : List SourceItem := List.replicate n interrupted

/-- Items that are taken from a source when it is asked for a byte, the answer, and what the source
still has. The last item is the answer, unless there are no more items, and all others are
interruptions. -/
inductive Settles : List SourceItem → Except String (Option UInt8) → List SourceItem → Prop
  | ended (n : Nat) : Settles (interruptions n) (.ok none) []
  | byte (n : Nat) (b : UInt8) (rest : List SourceItem) :
      Settles (interruptions n ++ [.byte b]) (.ok (some b)) rest
  | failure (n : Nat) (reason : String) (rest : List SourceItem) :
      Settles (interruptions n ++ [.failure reason]) (.error reason) rest
  | endOfFile (n : Nat) (rest : List SourceItem) :
      Settles (interruptions n ++ [.endOfFile]) (.ok none) rest

variable {items rest : List SourceItem} {answer : Except String (Option UInt8)}

theorem Settles.interrupted (h : Settles items answer rest) :
    Settles (.interrupted :: items) answer rest := by
  cases h with
  | ended n => exact .ended (n + 1)
  | byte n b rest => exact .byte (n + 1) b rest
  | failure n reason rest => exact .failure (n + 1) reason rest
  | endOfFile n rest => exact .endOfFile (n + 1) rest

theorem exists_settles_take (source : List SourceItem) :
    ∃ items, source = items ++ (take source).2 ∧ Settles items (take source).1 (take source).2 := by
  induction source with
  | nil => exact ⟨[], rfl, .ended 0⟩
  | cons item source ih =>
    cases item with
    | byte b => exact ⟨[.byte b], rfl, .byte 0 b source⟩
    | failure reason => exact ⟨[.failure reason], rfl, .failure 0 reason source⟩
    | endOfFile => exact ⟨[.endOfFile], rfl, .endOfFile 0 source⟩
    | interrupted =>
      rcases ih with ⟨items, hsource, hs⟩
      refine ⟨.interrupted :: items, ?_, hs.interrupted⟩
      rw [take, List.cons_append, ← hsource]

theorem filterMap_interruptions {α : Type} {f : SourceItem → Option α} (hf : f .interrupted = none)
    (n : Nat) : (interruptions n).filterMap f = [] := by
  induction n with
  | zero => rfl
  | succ n ih => rw [interruptions, List.replicate_succ, List.filterMap_cons, hf, ih]

theorem Settles.bytes (h : Settles items answer rest) :
    items.filterMap byte? = (answer.toOption.bind id).toList := by
  cases h with
  | ended n => exact filterMap_interruptions rfl n
  | byte n b | failure n reason | endOfFile n =>
    rw [List.filterMap_append, filterMap_interruptions rfl]
    rfl

theorem Settles.reasons (h : Settles items answer rest) : items.filterMap reason? =
    match answer with
    | .error reason => [reason]
    | .ok _ => [] := by
  cases h with
  | ended n => exact filterMap_interruptions rfl n
  | byte n b | failure n reason | endOfFile n =>
    rw [List.filterMap_append, filterMap_interruptions rfl]
    rfl

end SourceItem

/-! ### Sinks -/

namespace Sink

theorem flush_cases (s : Sink) : s.flush = (.ok (), { s with flushes := s.flushes + 1 }) ∨
    s.flush = (.error "cannot flush", s) := by
  rw [flush]
  split
  · exact .inl rfl
  · exact .inr rfl

theorem write_cases (s : Sink) (b : UInt8) : s.write b = (.ok (), { s with bytes := s.bytes.push b }) ∨
    s.write b = (.error "sink is full", s) := by
  rw [write]
  split
  · exact .inl rfl
  · exact .inr rfl

end Sink

/-! ### Exchanges -/

namespace ByteStream

open SourceItem (Settles)

inductive Request
  | read
  | write (w : Word)
  | flush

/-- Does what is asked. Only a read that succeeds gives a word. -/
def serve (s : ByteStream) : Request → Except String (Option Word) × ByteStream
  | .read => ((Host.read s).1.map some, (Host.read s).2)
  | .write w => ((Host.write s w).1.map fun _ => none, (Host.write s w).2)
  | .flush => (s.flush.1.map fun _ => none, s.flush.2)

structure Exchange where
  request : Request
  before : ByteStream
  answer : Except String (Option Word)
  after : ByteStream

def exchanges (s : ByteStream) : List Request → List Exchange
  | [] => []
  | r :: rs => ⟨r, s, (s.serve r).1, (s.serve r).2⟩ :: exchanges (s.serve r).2 rs

def after (s : ByteStream) : List Request → ByteStream
  | [] => s
  | r :: rs => (s.serve r).2.after rs

namespace Exchange

/-- The word that is read, unless the input has ended. -/
def word? (x : Exchange) : Option Word :=
  match x.request, x.answer with
  | .read, .ok (some w) => if w = endOfInput then none else some w
  | _, _ => none

def reason? (x : Exchange) : Option String :=
  match x.request, x.before.sink.flush.1, x.answer with
  | .read, .ok (), .error reason => some reason
  | _, _, _ => none

def written? (x : Exchange) : Option UInt8 :=
  match x.request, x.answer with
  | .write w, .ok _ => some w.toUInt8
  | _, _ => none

/-- How a request can go. A read that cannot flush the sink takes nothing from the source. One that can
takes interruptions and the item that it answers with, or else finds that the source has ended. No
other request takes anything, and nothing but a write that succeeds changes what the sink holds. -/
inductive Faithful : Exchange → Prop
  | unflushed {s : ByteStream} {reason} : s.sink.flush = (.error reason, s.sink) →
      Faithful ⟨.read, s, .error reason, s⟩
  | read {items answer rest} {sink sink' : Sink} : sink.flush = (.ok (), sink') →
      sink'.bytes = sink.bytes → Settles items answer rest →
      Faithful ⟨.read, ⟨items ++ rest, sink⟩,
        answer.map fun b => some ((b.map UInt8.toUInt32).getD endOfInput), ⟨rest, sink'⟩⟩
  | written {s : ByteStream} {w sink} : s.sink.write w.toUInt8 = (.ok (), sink) →
      sink.bytes = s.sink.bytes.push w.toUInt8 → Faithful ⟨.write w, s, .ok none, { s with sink }⟩
  | refused {s : ByteStream} {w reason} : s.sink.write w.toUInt8 = (.error reason, s.sink) →
      Faithful ⟨.write w, s, .error reason, s⟩
  | flush {s : ByteStream} {answer sink} : s.sink.flush = (answer, sink) →
      sink.bytes = s.sink.bytes → Faithful ⟨.flush, s, answer.map fun _ => none, { s with sink }⟩

end Exchange

/-! ### One request -/

theorem serve_faithful (s : ByteStream) (r : Request) :
    Exchange.Faithful ⟨r, s, (s.serve r).1, (s.serve r).2⟩ := by
  cases r with
  | read =>
    rcases s.sink.flush_cases with hf | hf
    · rcases SourceItem.exists_settles_take s.source with ⟨items, hsource, hs⟩
      have h := Exchange.Faithful.read hf rfl hs
      rw [← hsource] at h
      have hread : s.serve .read = ((SourceItem.take s.source).1.map
          fun b => some ((b.map UInt8.toUInt32).getD endOfInput),
          ⟨(SourceItem.take s.source).2, { s.sink with flushes := s.sink.flushes + 1 }⟩) := by
        simp only [serve, Host.read, hf]
        cases (SourceItem.take s.source).1 <;> rfl
      rw [hread]
      exact h
    · simp only [serve, Host.read, hf, Except.map]
      exact .unflushed hf
  | write w =>
    rcases s.sink.write_cases w.toUInt8 with hw | hw
    · simp only [serve, Host.write, hw, Except.map]
      exact .written hw rfl
    · simp only [serve, Host.write, hw, Except.map]
      exact .refused hw
  | flush =>
    rcases s.sink.flush_cases with hf | hf
    · simp only [serve, ByteStream.flush, hf]
      exact .flush hf rfl
    · simp only [serve, ByteStream.flush, hf]
      exact .flush hf rfl

namespace Exchange

/-- An exchange in terms of what is taken from the source by it. -/
structure Balanced (x : Exchange) (taken : List SourceItem) : Prop where
  source : x.before.source = taken ++ x.after.source
  words : x.word?.toList = (taken.filterMap SourceItem.byte?).map UInt8.toUInt32
  reasons : x.reason?.toList = taken.filterMap SourceItem.reason?
  bytes : x.after.sink.bytes.toList = x.before.sink.bytes.toList ++ x.written?.toList

theorem balanced_nothing {x : Exchange} (hsource : x.after.source = x.before.source)
    (hw : x.word? = none) (hr : x.reason? = none)
    (hb : x.after.sink.bytes.toList = x.before.sink.bytes.toList ++ x.written?.toList) :
    x.Balanced [] :=
  ⟨hsource.symm, by rw [hw]; rfl, by rw [hr]; rfl, hb⟩

theorem toUInt32_ne_endOfInput (b : UInt8) : b.toUInt32 ≠ endOfInput := by
  intro h
  have hb := b.toNat_lt
  have := congrArg UInt32.toNat h
  simp [endOfInput] at this
  omega

theorem Faithful.balanced {x : Exchange} (h : x.Faithful) : ∃ taken, x.Balanced taken := by
  cases h with
  | @unflushed s reason hf =>
    refine ⟨[], balanced_nothing rfl rfl ?_ (List.append_nil _).symm⟩
    simp only [reason?, hf]
  | @read items answer rest sink sink' hf hb hs =>
    refine ⟨items, rfl, ?_, ?_, ?_⟩
    · rw [hs.bytes]
      rcases answer with _ | (_ | b)
      · rfl
      · rfl
      · exact congrArg Option.toList (if_neg (toUInt32_ne_endOfInput b))
    · rw [hs.reasons]
      simp only [reason?, hf]
      cases answer <;> rfl
    · rw [hb]
      exact (List.append_nil _).symm
  | @written s w sink hw hb =>
    refine ⟨[], balanced_nothing rfl rfl rfl ?_⟩
    rw [hb, Array.toList_push]
    rfl
  | refused => exact ⟨[], balanced_nothing rfl rfl rfl (List.append_nil _).symm⟩
  | flush hf hb =>
    refine ⟨[], balanced_nothing rfl rfl rfl ?_⟩
    rw [hb]
    exact (List.append_nil _).symm

end Exchange

/-! ### Many requests -/

theorem filterMap_cons_toList {α β : Type} (f : α → Option β) (a : α) (as : List α) :
    (a :: as).filterMap f = (f a).toList ++ as.filterMap f := by
  rw [List.filterMap_cons]
  cases f a <;> rfl

/-- Whatever is asked of a stream, and whenever its source or its sink fails: a read takes nothing if it
cannot flush the sink, and else only interruptions and the item that it answers with. The words that are
read, but for those at the end of the input, are the bytes that the source has lost, and the reasons of
the failed reads are those of the failures that it has lost, in order. The sink has got the low bytes of
the words that were written. -/
theorem exchanges_faithful (s : ByteStream) (rs : List Request) :
    (∀ x ∈ s.exchanges rs, x.Faithful) ∧
    ∃ taken, s.source = taken ++ (s.after rs).source ∧
      (s.exchanges rs).filterMap Exchange.word? =
        (taken.filterMap SourceItem.byte?).map UInt8.toUInt32 ∧
      (s.exchanges rs).filterMap Exchange.reason? = taken.filterMap SourceItem.reason? ∧
      (s.after rs).sink.bytes.toList =
        s.sink.bytes.toList ++ (s.exchanges rs).filterMap Exchange.written? := by
  induction rs generalizing s with
  | nil =>
    refine ⟨fun x hx => ?_, [], rfl, rfl, rfl, (List.append_nil _).symm⟩
    cases hx
  | cons r rs ih =>
    have hf := s.serve_faithful r
    rcases ih (s.serve r).2 with ⟨hrest, taken, hsource, hw, hr, hb⟩
    rcases hf.balanced with ⟨items, hitems⟩
    refine ⟨List.forall_mem_cons.2 ⟨hf, hrest⟩, items ++ taken, ?_, ?_, ?_, ?_⟩
    · rw [List.append_assoc, after, ← hsource]
      exact hitems.source
    · rw [exchanges, filterMap_cons_toList, hitems.words, hw, List.filterMap_append, List.map_append]
    · rw [exchanges, filterMap_cons_toList, hitems.reasons, hr, List.filterMap_append]
    · rw [exchanges, filterMap_cons_toList, after, hb, hitems.bytes, List.append_assoc]

end ByteStream

end WordMachine
