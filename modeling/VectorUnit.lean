import VectorUnit.Instruction.Assembly
import VectorUnit.Interpreter
import VectorUnit.Main
import VectorUnit.Processor.Uncached
import VectorUnit.Proofs.Accounting
import VectorUnit.Proofs.Confinement
import VectorUnit.Proofs.Consistency
import VectorUnit.Proofs.Continuation
import VectorUnit.Proofs.Counting
import VectorUnit.Proofs.Coverage
import VectorUnit.Proofs.FirstMatch
import VectorUnit.Proofs.Flags
import VectorUnit.Proofs.Interleaving
import VectorUnit.Proofs.Layouts
import VectorUnit.Proofs.Loading
import VectorUnit.Proofs.Occupancy
import VectorUnit.Proofs.Reassembly
import VectorUnit.Proofs.Recency
import VectorUnit.Proofs.Rematching
import VectorUnit.Proofs.Repetition
import VectorUnit.Proofs.Tolerance
import VectorUnit.Proofs.Truncation
import VectorUnit.Proofs.Writing
import VectorUnit.Sequence.Listing
