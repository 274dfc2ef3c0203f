import SsaCompiler.Proofs.Program.Initialized
import SsaCompiler.Proofs.ParallelMove.Circles
import SsaCompiler.Proofs.Liveness.Exact
import SsaCompiler.Proofs.Program.Conditional
import SsaCompiler.Proofs.Allocation.Search
import SsaCompiler.Proofs.Program.Compiled
import SsaCompiler.Proofs.Program.Order
import SsaCompiler.Proofs.Builder.Meaning
import SsaCompiler.Proofs.Emission.Lane
import SsaCompiler.Proofs.Builder.Retirement
import SsaCompiler.Proofs.Program.History
import SsaCompiler.Proofs.Graph.Editing
import SsaCompiler.Proofs.Emission.Symbols
import SsaCompiler.Proofs.Program.Drawing
import SsaCompiler.Proofs.Graph.Order
import SsaCompiler.Proofs.Program.Renaming
