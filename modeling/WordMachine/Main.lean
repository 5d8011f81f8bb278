import WordMachine.Tool

/-!
# The command line

The first argument names a tool and the second a file. A program that runs reads the standard input
byte by byte, when it asks for a byte, and what it has written is visible by then.
-/

namespace WordMachine.CommandLine

/-- Whether the next instruction reads a word. -/
def awaitsInput (m : Machine) : Bool :=
  match m.fetch (m.get .instruction) with
  | .ok i => i.opcode = .input
  | .error _ => false

/-- Runs a processor on the standard streams until it stops. -/
partial def runProcessor (input output : IO.FS.Stream) (p : Processor) : IO (Processor × Outcome) := do
  let source ← if awaitsInput p.toMachine then do
      output.flush
      let bytes ← input.read 1
      pure (bytes.toList.map SourceItem.byte)
    else pure []
  let host : ByteStream := ⟨source, .empty none none⟩
  let (p, host, outcome) := p.step host
  unless host.sink.bytes.isEmpty do
    output.write ⟨host.sink.bytes⟩
  match outcome with
  | .running => runProcessor input output p
  | _ => return (p, outcome)

def readFile (path : String) : IO (Option (List UInt8)) := do
  try
    let bytes ← IO.FS.readBinFile path
    return some bytes.toList
  catch e =>
    match e with
    | .noFileOrDirectory _ _ _ => return none
    | e => throw e

def runTool (tool : Tool) (path : String) : IO UInt32 := do
  let input ← IO.getStdin
  let output ← IO.getStdout
  let errors ← IO.getStderr
  let file ← readFile path
  let report ← match tool, file with
    | .cpu, some program =>
      match Tool.boot program with
      | .error report => pure report
      | .ok p =>
        let (p, outcome) ← runProcessor input output p
        pure (Tool.reportStop p.toMachine [] outcome)
    | _, _ => pure (Tool.report 0 tool file [])
  output.write ⟨report.output.toArray⟩
  output.flush
  errors.putStr report.errors
  return UInt32.ofNat report.status

end WordMachine.CommandLine

/-- Runs the tool that the arguments name. -/
def main (arguments : List String) : IO UInt32 := do
  match arguments with
  | [name, path] =>
    match WordMachine.Tool.ofName? name with
    | some tool => WordMachine.CommandLine.runTool tool path
    | none =>
      (← IO.getStderr).putStrLn ("unknown tool: " ++ name)
      return 2
  | _ =>
    (← IO.getStderr).putStrLn "usage: (asm | disasm | cpu | nascal) FILE"
    return 2
