import Moonstack.Command.Directory
import Moonstack.Main
import Moonstack.Chunk.Assembly
import Moonstack.Proofs.Chunk.Failures
import Moonstack.Proofs.Lifetimes.Paths
import Moonstack.Proofs.Emission.Plain
import Moonstack.Proofs.Emission.Starts
import Moonstack.Proofs.Emission.Steady
import Moonstack.Proofs.Flow.Step
import Moonstack.Proofs.Simulation.Domain
import Moonstack.Proofs.Simulation.Exits
import Moonstack.Proofs.Simulation.Functions
import Moonstack.Proofs.Frame.Operations
import Moonstack.Proofs.Frame.Pool
import Moonstack.Proofs.Emission.Leaks
import Moonstack.Proofs.Emission.Scoping
import Moonstack.Proofs.Emission.Strategies
import Moonstack.Proofs.Assignment.Paths
import Moonstack.Proofs.Semantics.Evaluation
import Moonstack.Proofs.Semantics.Machine
import Moonstack.Proofs.Semantics.Laws
import Moonstack.Proofs.Semantics.Preservation
import Moonstack.Proofs.Chunk.DefinedNames
import Moonstack.Proofs.Chunk.LocalNames
import Moonstack.Proofs.Chunk.Comments
import Moonstack.Proofs.Chunk.Order
import Moonstack.Proofs.Chunk.Isolation
import Moonstack.Proofs.Chunk.DebugComments
import Moonstack.Proofs.Simulation.Emulation
import Moonstack.Proofs.Lifetimes.Zeroing
import Moonstack.Proofs.Emission.Tables
import Moonstack.Proofs.Binary.Flattening
import Moonstack.Proofs.Lifetimes.Mentions
import Moonstack.Proofs.Emission.Homes
import Moonstack.Proofs.Binary.Rebuilding
import Moonstack.Proofs.Emission.Arrivals
import Moonstack.Proofs.Emission.Effects
import Moonstack.Proofs.Emission.Untouched
import Moonstack.Proofs.Emission.Sparing
import Moonstack.Proofs.Simulation.Detaching
import Moonstack.Proofs.Emission.Resuming
import Moonstack.Proofs.Chunk.SafeNames
import Moonstack.Proofs.Chunk.Declarations
import Moonstack.Proofs.Text.Literals
import Moonstack.Proofs.Text.Constants
import Moonstack.Proofs.Text.Insertion
import Moonstack.Proofs.Chunk.Whitelist
import Moonstack.Proofs.Emission.Counting
