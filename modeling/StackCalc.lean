import StackCalc.CommandLine.Commands
import StackCalc.Token.Stream
import StackCalc.Proofs.Chunk.Image
import StackCalc.Proofs.Chunk.Extension
import StackCalc.Proofs.Chunk.ReadBack
import StackCalc.Proofs.Chunk.Strides
import StackCalc.Proofs.Chunk.Histories
import StackCalc.Proofs.Token.LongestMatch
import StackCalc.Proofs.Token.Spans
import StackCalc.Proofs.Expression.Acceptance
import StackCalc.Proofs.Expression.Extent
import StackCalc.Proofs.Expression.Layout
import StackCalc.Proofs.Expression.Faults
import StackCalc.Proofs.Expression.Calls
import StackCalc.Proofs.Expression.Latch
import StackCalc.Proofs.Expression.Constants
import StackCalc.Proofs.Machine.Evaluation
import StackCalc.Proofs.Machine.Reuse
import StackCalc.Proofs.Machine.Tracing
import StackCalc.Proofs.Machine.Heights
import StackCalc.Proofs.Machine.Boundaries
import StackCalc.Proofs.Machine.Dispatch
import StackCalc.Proofs.Machine.Peaks
import StackCalc.Proofs.Machine.Transparency
import StackCalc.Proofs.Machine.Growth
import StackCalc.Proofs.Machine.Output
import StackCalc.Proofs.Machine.Printing
import StackCalc.Proofs.CommandLine.Saving
import StackCalc.Proofs.CommandLine.Conversation
import StackCalc.Proofs.CommandLine.Persistence
