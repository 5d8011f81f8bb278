import WordMachine.Source.ByteCursor
import WordMachine.Source.Drawing
import WordMachine.Machine.Processor
import WordMachine.Main
import WordMachine.Proofs.Compiler.Correctness
import WordMachine.Proofs.Compiler.Expression
import WordMachine.Proofs.Compiler.Integrity
import WordMachine.Proofs.Compiler.Meaning
import WordMachine.Proofs.Assembly.Passes
import WordMachine.Proofs.Assembly.Listing
import WordMachine.Proofs.Assembly.RoundTrip
import WordMachine.Proofs.Compiler.Labels
import WordMachine.Proofs.Compiler.Numbers
import WordMachine.Proofs.Source.Size
import WordMachine.Proofs.Compiler.Accepted
import WordMachine.Proofs.Compiler.Outcome
import WordMachine.Proofs.Source.Derivation
import WordMachine.Proofs.Source.Reading
import WordMachine.Proofs.Source.Soundness
import WordMachine.Proofs.Source.Completeness
import WordMachine.Proofs.Source.Acceptance
import WordMachine.Proofs.Source.Rendering
import WordMachine.Proofs.Source.RoundTrip
import WordMachine.Proofs.Source.Earliest
import WordMachine.Proofs.Decoding
import WordMachine.Proofs.Machine.Outcomes
import WordMachine.Proofs.Machine.Transfer
import WordMachine.Proofs.Compiler.StackPointer
import WordMachine.Proofs.Machine.Hosts
import WordMachine.Proofs.Source.Minus
import WordMachine.Proofs.Compiler.Comparison
import WordMachine.Proofs.Splits
import WordMachine.Proofs.Machine.Levels
import WordMachine.Proofs.Compiler.Heights
import WordMachine.Proofs.Compiler.Courses
import WordMachine.Proofs.Compiler.Calls
import WordMachine.Proofs.Compiler.Discarding
import WordMachine.Proofs.Compiler.Binding
import WordMachine.Proofs.Machine.Atomicity
import WordMachine.Proofs.Machine.Arithmetic
import WordMachine.Proofs.Machine.Streams
import WordMachine.Proofs.Machine.Sessions
import WordMachine.Proofs.Machine.Fetching
import WordMachine.Proofs.Source.Recording
import WordMachine.Proofs.Compiler.Asking
import WordMachine.Proofs.Source.Appearance
import WordMachine.Proofs.Compiler.Renaming
import WordMachine.Proofs.Assembly.Acceptance
import WordMachine.Proofs.Assembly.Relabelling
import WordMachine.Proofs.Assembly.Histories
import WordMachine.Proofs.Source.Partition
import WordMachine.Proofs.Source.Lookahead
import WordMachine.Proofs.Outlines
import WordMachine.Proofs.Source.Drawing
import WordMachine.Proofs.Machine.Stacks
import WordMachine.Proofs.Source.Cursors
import WordMachine.Proofs.Compiler.Asserting
import WordMachine.Proofs.Compiler.Registers
