import WordMachine.Word

/-!
# Hosts

A host is what a machine reads words from and writes words to. A word queue holds all its input and
keeps all its output. A byte stream reads single bytes from a source whose answers are scripted, and
writes the low byte of each word to a sink that may stop accepting.
-/

namespace WordMachine

/-- What a machine reads from and writes to. A failure has a reason. -/
class Host (σ : Type) where
  read : σ → Except String Word × σ
  write : σ → Word → Except String Unit × σ

/-- The word that is read once the input has ended. -/
def endOfInput : Word := 0xFFFFFFFF

/-! ### Word queues -/

/-- Words to be read, and the words written. -/
structure WordQueue where
  input : List Word
  output : Array Word

namespace WordQueue

def ofWords (input : List Word) : WordQueue := ⟨input, #[]⟩

/-- One word for each byte to be read. -/
def ofBytes (input : List UInt8) : WordQueue := ofWords (input.map UInt8.toUInt32)

def outputBytes (q : WordQueue) : List UInt8 := q.output.toList.map UInt32.toUInt8

instance : Host WordQueue where
  read
    | ⟨[], output⟩ => (.ok endOfInput, ⟨[], output⟩)
    | ⟨w :: input, output⟩ => (.ok w, ⟨input, output⟩)
  write q w := (.ok (), { q with output := q.output.push w })

end WordQueue

/-! ### Byte streams -/

/-- What a source answers when a byte is asked for. -/
inductive SourceItem
  | byte (b : UInt8)
  /-- nothing yet: ask again -/
  | interrupted
  | failure (reason : String)
  /-- the end of the file, after which there may be more all the same -/
  | endOfFile

/-- Takes the next byte of a source, if it has not ended. Interruptions are passed over. -/
def SourceItem.take : List SourceItem → Except String (Option UInt8) × List SourceItem
  | [] => (.ok none, [])
  | byte b :: rest => (.ok (some b), rest)
  | interrupted :: rest => take rest
  | failure reason :: rest => (.error reason, rest)
  | endOfFile :: rest => (.ok none, rest)

/-- The bytes written so far and the flushes that succeeded, each with a limit if there is one. -/
structure Sink where
  bytes : Array UInt8
  flushes : Nat
  writeLimit : Option Nat
  flushLimit : Option Nat

namespace Sink

def empty (writeLimit flushLimit : Option Nat) : Sink := ⟨#[], 0, writeLimit, flushLimit⟩

def write (s : Sink) (b : UInt8) : Except String Unit × Sink :=
  if s.writeLimit.all (s.bytes.size < ·) then (.ok (), { s with bytes := s.bytes.push b })
  else (.error "sink is full", s)

/-- Makes what was written visible. -/
def flush (s : Sink) : Except String Unit × Sink :=
  if s.flushLimit.all (s.flushes < ·) then (.ok (), { s with flushes := s.flushes + 1 })
  else (.error "cannot flush", s)

end Sink

structure ByteStream where
  source : List SourceItem
  sink : Sink

namespace ByteStream

def flush (s : ByteStream) : Except String Unit × ByteStream :=
  let (result, sink) := s.sink.flush
  (result, { s with sink })

/-- The sink is flushed before each byte is taken, so that a prompt is seen before its answer is
awaited. -/
instance : Host ByteStream where
  read s :=
    match s.sink.flush with
    | (.error reason, sink) => (.error reason, { s with sink })
    | (.ok _, sink) =>
      let (item, source) := SourceItem.take s.source
      (item.map fun b => (b.map UInt8.toUInt32).getD endOfInput, ⟨source, sink⟩)
  write s w :=
    let (result, sink) := s.sink.write w.toUInt8
    (result, { s with sink })

end ByteStream

end WordMachine
