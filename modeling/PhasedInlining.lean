import PhasedInlining.Code.Blueprint
import PhasedInlining.Lowering.Phases
import PhasedInlining.Target.Deviating
import PhasedInlining.Proofs.Code.Lookup
import PhasedInlining.Proofs.Code.WellFormed
import PhasedInlining.Proofs.Code.Meaning
import PhasedInlining.Proofs.Lowering.Passes
import PhasedInlining.Proofs.Lowering.Sweep
import PhasedInlining.Proofs.History
import PhasedInlining.Proofs.Lifetimes
import PhasedInlining.Proofs.CallGraph.Snapshot
import PhasedInlining.Proofs.CallGraph.Drain
import PhasedInlining.Proofs.Lowering.BottomUp
import PhasedInlining.Proofs.Lowering.Completeness
import PhasedInlining.Proofs.Lowering.Idempotence
import PhasedInlining.Proofs.CallGraph.Exactness
import PhasedInlining.Proofs.Lowering.Interleaving
import PhasedInlining.Proofs.CallGraph.Components
import PhasedInlining.Proofs.Lowering.Acyclic
import PhasedInlining.Proofs.Lowering.Expansion
import PhasedInlining.Proofs.Lowering.Rescan
import PhasedInlining.Proofs.Code.Renaming
import PhasedInlining.Proofs.Lowering.Agreement
import PhasedInlining.Proofs.Lowering.Bypass
import PhasedInlining.Proofs.Lowering.CallCounts
import PhasedInlining.Proofs.Lowering.Residue
import PhasedInlining.Proofs.Lowering.Fixpoint
import PhasedInlining.Proofs.Lowering.Convergence
import PhasedInlining.Proofs.Lowering.Frame
import PhasedInlining.Proofs.Lowering.Faults
import PhasedInlining.Proofs.Lowering.Cascade
import PhasedInlining.Proofs.Lowering.PhaseOrder
import PhasedInlining.Proofs.Lowering.Ledger
import PhasedInlining.Proofs.Splicing
import PhasedInlining.Proofs.Lowering.Depth
import PhasedInlining.Proofs.Lowering.Cycles
import PhasedInlining.Proofs.EarlyReturns
import PhasedInlining.Proofs.Lowering.Turns
import PhasedInlining.Proofs.Code.Returns
import PhasedInlining.Proofs.Code.Insertion
import PhasedInlining.Proofs.CallGraph.Consistency
import PhasedInlining.Proofs.CallGraph.Requests
import PhasedInlining.Proofs.Lowering.InStep
import PhasedInlining.Proofs.Lowering.Changes
import PhasedInlining.Proofs.PhaseTags
