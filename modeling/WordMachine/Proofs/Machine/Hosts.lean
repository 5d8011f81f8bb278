import WordMachine.Proofs.Machine.Outcomes

/-!
# Hosts that answer alike

Hosts are alike if they give equal answers and stay alike. A machine cannot tell them apart: a step,
and with it a run, ends the same way in the same machine. A byte stream whose source yields the bytes
of a queue of words, and whose sink has no limit, is alike that queue.
-/

namespace WordMachine

/-- Related hosts answer the same when they are asked the same, and are related afterwards. -/
structure Host.Alike {σ τ : Type} [Host σ] [Host τ] (R : σ → τ → Prop) : Prop where
  read {h k} : R h k → (Host.read h).1 = (Host.read k).1 ∧ R (Host.read h).2 (Host.read k).2
  write {h k} (w : Word) : R h k →
    (Host.write h w).1 = (Host.write k w).1 ∧ R (Host.write h w).2 (Host.write k w).2

/-! ### Machines with hosts that are alike -/

namespace Machine

variable {σ τ : Type} [Host σ] [Host τ] {R : σ → τ → Prop} {h : σ} {k : τ}

/-- The same machine and the same result with hosts that are related. -/
structure Matches {μ α : Type} (R : σ → τ → Prop) (p : μ × σ × α) (q : μ × τ × α) : Prop where
  machine : p.1 = q.1
  result : p.2.2 = q.2.2
  hosts : R p.2.1 q.2.1

theorem execute_matches (hR : Host.Alike R) (hk : R h k) (m : Machine) (address next : Word)
    (i : Instruction Word) :
    Matches R (m.execute h address next i) (m.execute k address next i) := by
  cases ho : i.opcode.asksHost with
  | false =>
    rw [execute_eq_compute ho, execute_eq_compute ho]
    exact ⟨rfl, rfl, hk⟩
  | true =>
    rcases eq_of_asksHost ho with ⟨a, rfl | rfl⟩
    · rcases hR.read hk with ⟨hanswer, hrest⟩
      rw [execute, execute]
      generalize Host.read h = p at hanswer hrest ⊢
      generalize Host.read k = q at hanswer hrest ⊢
      rcases p with ⟨_ | w, h'⟩ <;> rcases q with ⟨_ | v, k'⟩ <;> cases hanswer
      · exact ⟨rfl, rfl, hrest⟩
      · exact ⟨rfl, rfl, hrest⟩
    · rcases hR.write (m.get a) hk with ⟨hanswer, hrest⟩
      rw [execute, execute]
      generalize Host.write h (m.get a) = p at hanswer hrest ⊢
      generalize Host.write k (m.get a) = q at hanswer hrest ⊢
      rcases p with ⟨_ | u, h'⟩ <;> rcases q with ⟨_ | v, k'⟩ <;> cases hanswer
      · exact ⟨rfl, rfl, hrest⟩
      · exact ⟨rfl, rfl, hrest⟩

omit [Host σ] [Host τ] in
theorem conclude_matches {p : Machine × σ × Except Fault Word} {q : Machine × τ × Except Fault Word}
    (hp : Matches R p q) (i : Instruction Word) : Matches R (conclude i p) (conclude i q) := by
  rcases p with ⟨m, h, result⟩
  rcases q with ⟨n, k, result'⟩
  rcases hp with ⟨rfl, rfl, hk⟩
  cases result with
  | error f => exact ⟨rfl, rfl, hk⟩
  | ok next => exact ⟨rfl, rfl, hk⟩

theorem step_matches (hR : Host.Alike R) (hk : R h k) (m : Machine) :
    Matches R (m.step h) (m.step k) := by
  by_cases hlt : (m.get .instruction).toNat < m.memory.size
  · rw [step_of_lt hlt, step_of_lt hlt]
    cases m.fetch (m.get .instruction) with
    | error f => exact ⟨rfl, rfl, hk⟩
    | ok i => exact conclude_matches (execute_matches hR hk m _ _ i) i
  · rw [step_eq_halted_iff.2 (Nat.not_lt.1 hlt), step_eq_halted_iff.2 (Nat.not_lt.1 hlt)]
    exact ⟨rfl, rfl, hk⟩

theorem run_matches (hR : Host.Alike R) (hk : R h k) (n : Nat) (m : Machine) :
    Matches R (run n m h) (run n m k) := by
  induction n generalizing m h k with
  | zero => exact ⟨rfl, rfl, hk⟩
  | succ n ih =>
    have hs := step_matches hR hk m
    rw [run, run]
    generalize m.step h = p at hs ⊢
    generalize m.step k = q at hs ⊢
    rcases p with ⟨m₁, h₁, outcome⟩
    rcases q with ⟨m₂, k₁, outcome'⟩
    rcases hs with ⟨rfl, rfl, hk₁⟩
    cases outcome with
    | running => exact ih hk₁ m₁
    | halted => exact ⟨rfl, rfl, hk₁⟩
    | fault f => exact ⟨rfl, rfl, hk₁⟩

end Machine

/-! ### Byte streams and word queues -/

/-- A source yields bytes, with interruptions anywhere, and then ends, as often as it says so. -/
inductive SourceItem.Yields : List SourceItem → List UInt8 → Prop
  | ended : Yields [] []
  | endOfFile {source} : Yields source [] → Yields (.endOfFile :: source) []
  | interrupted {source input} : Yields source input → Yields (.interrupted :: source) input
  | byte {source input} (b : UInt8) : Yields source input → Yields (.byte b :: source) (b :: input)

theorem SourceItem.Yields.take {source : List SourceItem} {input : List UInt8}
    (hy : Yields source input) : (SourceItem.take source).1 = .ok input.head? ∧
      Yields (SourceItem.take source).2 input.tail := by
  induction hy with
  | ended => exact ⟨rfl, .ended⟩
  | endOfFile hy _ => exact ⟨rfl, hy⟩
  | interrupted _ ih => exact ih
  | byte b hy _ => exact ⟨rfl, hy⟩

/-- A sink without a limit. -/
structure Sink.Unlimited (s : Sink) : Prop where
  writes : s.writeLimit = none
  flushes : s.flushLimit = none

namespace Sink

variable {s : Sink}

theorem unlimited_empty : (empty none none).Unlimited := ⟨rfl, rfl⟩

theorem Unlimited.write_eq (hs : s.Unlimited) (b : UInt8) :
    s.write b = (.ok (), { s with bytes := s.bytes.push b }) := by
  rw [write, hs.writes, Option.all_none, if_pos rfl]

theorem Unlimited.flush_eq (hs : s.Unlimited) :
    s.flush = (.ok (), { s with flushes := s.flushes + 1 }) := by
  rw [flush, hs.flushes, Option.all_none, if_pos rfl]

end Sink

namespace ByteStream

/-- What a stream still has to read and what it has written are the bytes of a queue of words. -/
structure Agrees (s : ByteStream) (q : WordQueue) : Prop where
  unlimited : s.sink.Unlimited
  input : ∃ input, SourceItem.Yields s.source input ∧ q.input = input.map UInt8.toUInt32
  output : s.sink.bytes.toList = q.outputBytes

variable {s : ByteStream} {q : WordQueue}

theorem read_eq (hs : s.sink.Unlimited) : Host.read s =
    ((SourceItem.take s.source).1.map fun b => (b.map UInt8.toUInt32).getD endOfInput,
      ⟨(SourceItem.take s.source).2, { s.sink with flushes := s.sink.flushes + 1 }⟩) := by
  simp only [Host.read, hs.flush_eq]

theorem Agrees.read (ha : s.Agrees q) :
    (Host.read s).1 = (Host.read q).1 ∧ (Host.read s).2.Agrees (Host.read q).2 := by
  rcases q with ⟨words, output⟩
  rcases ha with ⟨hlimits, ⟨input, hy, hinput⟩, hout⟩
  rcases hy.take with ⟨hanswer, hrest⟩
  rw [read_eq hlimits, hanswer]
  have hlimits' : Sink.Unlimited { s.sink with flushes := s.sink.flushes + 1 } :=
    ⟨hlimits.writes, hlimits.flushes⟩
  cases input with
  | nil =>
    cases hinput
    exact ⟨rfl, hlimits', ⟨_, hrest, rfl⟩, hout⟩
  | cons b input =>
    cases hinput
    exact ⟨rfl, hlimits', ⟨_, hrest, rfl⟩, hout⟩

theorem Agrees.write (ha : s.Agrees q) (w : Word) :
    (Host.write s w).1 = (Host.write q w).1 ∧ (Host.write s w).2.Agrees (Host.write q w).2 := by
  have hw : Host.write s w =
      (.ok (), { s with sink := { s.sink with bytes := s.sink.bytes.push w.toUInt8 } }) := by
    simp only [Host.write, ha.unlimited.write_eq]
  rw [hw]
  refine ⟨rfl, ⟨ha.unlimited.writes, ha.unlimited.flushes⟩, ha.input, ?_⟩
  have hout := ha.output
  simp only [WordQueue.outputBytes] at hout
  simp only [Host.write, WordQueue.outputBytes, Array.toList_push, List.map_append, List.map_cons,
    List.map_nil, hout]

theorem alike : Host.Alike Agrees := ⟨Agrees.read, fun w ha => ha.write w⟩

theorem agrees_ofBytes {source : List SourceItem} {input : List UInt8} {sink : Sink}
    (hy : SourceItem.Yields source input) (hs : sink.Unlimited) (hempty : sink.bytes = #[]) :
    Agrees ⟨source, sink⟩ (.ofBytes input) :=
  ⟨hs, ⟨input, hy, rfl⟩, by rw [hempty]; rfl⟩

/-- A machine that reads bytes from a source and writes bytes to a sink does what it does with a queue
of the same bytes, wherever the source is interrupted and however often it is asked after it has ended.
The sink then holds the low bytes of the words that the queue has been given. -/
theorem run_eq_run_queue {source : List SourceItem} {input : List UInt8} {sink : Sink}
    (hy : SourceItem.Yields source input) (hs : sink.Unlimited) (hempty : sink.bytes = #[]) (n : Nat)
    (m : Machine) :
    (m.run n (⟨source, sink⟩ : ByteStream)).1 = (m.run n (WordQueue.ofBytes input)).1 ∧
    (m.run n (⟨source, sink⟩ : ByteStream)).2.2 = (m.run n (WordQueue.ofBytes input)).2.2 ∧
    (m.run n (⟨source, sink⟩ : ByteStream)).2.1.sink.bytes.toList =
      (m.run n (WordQueue.ofBytes input)).2.1.outputBytes := by
  have hm := Machine.run_matches alike (agrees_ofBytes hy hs hempty) n m
  exact ⟨hm.machine, hm.result, hm.hosts.output⟩

/-- One byte is echoed, and then the end of the input. -/
theorem run_eq_run_queue_echo : ∃ m, (Machine.empty 8).install [3, 0, 4, 0, 3, 0, 4, 0] = .ok m ∧
    (m.run 5 (⟨[.interrupted, .byte 7, .interrupted], .empty none none⟩ : ByteStream)).1 =
      (m.run 5 (WordQueue.ofBytes [7])).1 ∧
    (m.run 5 (⟨[.interrupted, .byte 7, .interrupted], .empty none none⟩ : ByteStream)).2.2 =
      .halted ∧
    (m.run 5 (⟨[.interrupted, .byte 7, .interrupted],
      .empty none none⟩ : ByteStream)).2.1.sink.bytes.toList = [7, 255] := by
  have hruns : ((Machine.empty 8).install [3, 0, 4, 0, 3, 0, 4, 0]).toOption.any (fun m => decide (
      (m.run 5 (WordQueue.ofBytes [7])).2.2 = .halted ∧
      (m.run 5 (WordQueue.ofBytes [7])).2.1.outputBytes = [7, 255])) = true := by decide +kernel
  cases hm : (Machine.empty 8).install [3, 0, 4, 0, 3, 0, 4, 0] with
  | error f =>
    rw [hm] at hruns
    cases hruns
  | ok m =>
    rw [hm] at hruns
    rcases of_decide_eq_true hruns with ⟨hend, hout⟩
    have hy : SourceItem.Yields [.interrupted, .byte 7, .interrupted] [7] :=
      .interrupted (.byte 7 (.interrupted .ended))
    rcases run_eq_run_queue hy Sink.unlimited_empty rfl 5 m with ⟨hmachine, hresult, hbytes⟩
    exact ⟨m, rfl, hmachine, hresult.trans hend, hbytes.trans hout⟩

end ByteStream

end WordMachine
