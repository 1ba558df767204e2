import PulseSequencer.Arith.Divisors
import PulseSequencer.Arith.Rounding
import PulseSequencer.Arith.Word
import PulseSequencer.Assembly.Layout
import PulseSequencer.Assembly.Line
import PulseSequencer.Assembly.Literal
import PulseSequencer.Assembly.Loops
import PulseSequencer.Assembly.Program
import PulseSequencer.Binary64
import PulseSequencer.Board.Error
import PulseSequencer.Board.Operation
import PulseSequencer.Board.Script
import PulseSequencer.Board.Status
import PulseSequencer.Board.Word
import PulseSequencer.ChannelSet
import PulseSequencer.CommandLine.Arguments
import PulseSequencer.CommandLine.Command
import PulseSequencer.CommandLine.SignalArgument
import PulseSequencer.Compiler
import PulseSequencer.Config
import PulseSequencer.Decimal.Notation
import PulseSequencer.Decimal.Reader
import PulseSequencer.Decimal.Shortest
import PulseSequencer.Error
import PulseSequencer.Flags
import PulseSequencer.Instruction
import PulseSequencer.Machine
import PulseSequencer.Main
import PulseSequencer.Opcode
import PulseSequencer.Proofs.Arith.Divisors
import PulseSequencer.Proofs.Arith.Rounding
import PulseSequencer.Proofs.Assembly.Brackets
import PulseSequencer.Proofs.Assembly.LoopNesting
import PulseSequencer.Proofs.Board.History
import PulseSequencer.Proofs.Board.Selection
import PulseSequencer.Proofs.Compiler.Shape
import PulseSequencer.Proofs.Compiler.WholePeriods
import PulseSequencer.Proofs.Compiler.Width
import PulseSequencer.Proofs.Machine.Moves
import PulseSequencer.Proofs.Machine.Path
import PulseSequencer.Proofs.Machine.Structured
import PulseSequencer.Proofs.Machine.Unrolling
import PulseSequencer.Proofs.Quantization
import PulseSequencer.Proofs.Stages
import PulseSequencer.Proofs.Synchrony
import PulseSequencer.Proofs.Synchrony.Parts
import PulseSequencer.Proofs.Waveform.Coarsening
import PulseSequencer.Proofs.Waveform.Counters
import PulseSequencer.Proofs.Waveform.Samples
import PulseSequencer.Pulse
import PulseSequencer.Quantization
import PulseSequencer.Sequence
import PulseSequencer.Signal
import PulseSequencer.Synchrony
import PulseSequencer.Text.Blank
import PulseSequencer.Text.Numeral
import PulseSequencer.Text.Quoted
import PulseSequencer.Text.Split
import PulseSequencer.Text.Visible
import PulseSequencer.Timeline
import PulseSequencer.Waveform
import PulseSequencer.Proofs.Board.Release
import PulseSequencer.Proofs.Board.Session
import PulseSequencer.Proofs.Assembly.Reading
import PulseSequencer.Proofs.Assembly.Reports
import PulseSequencer.Proofs.Binary64
import PulseSequencer.Proofs.Text.Numeral
import PulseSequencer.Proofs.Text.Token
import PulseSequencer.Proofs.Assembly.Layout
import PulseSequencer.Proofs.Assembly.Listing
import PulseSequencer.Proofs.Machine.Limits
import PulseSequencer.Proofs.Machine.Trace
import PulseSequencer.Proofs.Sequence
import PulseSequencer.Proofs.Assembly.Printing
import PulseSequencer.Proofs.Agreement
import PulseSequencer.Proofs.Binary64.Order
import PulseSequencer.Proofs.Compiler.Outputs
import PulseSequencer.Proofs.Compiler.Safety
import PulseSequencer.Proofs.Compiler.SameSignals
import PulseSequencer.Proofs.Failures
import PulseSequencer.Proofs.Synchrony.SameFrequencies
import PulseSequencer.Proofs.Waveform.Runs
import PulseSequencer.Proofs.Assembly.Matching
import PulseSequencer.Proofs.Board.FirstFailure
import PulseSequencer.Proofs.Quantization.Coarsest
import PulseSequencer.Proofs.Signal
import PulseSequencer.Proofs.Text.Spelling
import PulseSequencer.Proofs.Assembly.Numbering
import PulseSequencer.Proofs.Board.Conversion
import PulseSequencer.Proofs.Assembly.Flags
import PulseSequencer.Proofs.Assembly.Editing
import PulseSequencer.Proofs.Text.Fields
import PulseSequencer.Proofs.Assembly.Renaming
import PulseSequencer.Proofs.Assembly.Labels
import PulseSequencer.Proofs.Binary64.Nearest
import PulseSequencer.Proofs.Binary64.Rounding
import PulseSequencer.Proofs.Binary64.Values
import PulseSequencer.Proofs.Waveform.Progress
import PulseSequencer.Proofs.Arith.Folds
import PulseSequencer.Proofs.Binary64.Operations
import PulseSequencer.Proofs.Assembly.Durations
import PulseSequencer.Proofs.Synchrony.Products
import PulseSequencer.Proofs.Arith.NearestMultiple
