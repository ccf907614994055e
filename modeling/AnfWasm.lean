import AnfWasm.Compilation
import AnfWasm.Data.Arena
import AnfWasm.Data.Table
import AnfWasm.Lowering.Basic
import AnfWasm.Main
import AnfWasm.Program.Json
import AnfWasm.Program.Named
import AnfWasm.Program.Rules
import AnfWasm.Program.Scope
import AnfWasm.Proofs.Scope.Checker
import AnfWasm.Proofs.Semantics.Eval
import AnfWasm.Proofs.Sharing.State
import AnfWasm.Sharing.Basic
import AnfWasm.SourceMap.Basic
import AnfWasm.Store.Files
import AnfWasm.Wasm.Signature
import AnfWasm.Wasm.Text
import AnfWasm.Proofs.Sharing.Substitution
import AnfWasm.Proofs.Sharing.Scoping
import AnfWasm.Proofs.Sharing.Meaning
import AnfWasm.Proofs.Wasm.Machine
import AnfWasm.Proofs.Lowering.Code
import AnfWasm.Proofs.Lowering.Heap
import AnfWasm.Proofs.Lowering.Modules
import AnfWasm.Proofs.Lowering.Acceptance
import AnfWasm.Proofs.Lowering.Validity
import AnfWasm.Proofs.Lowering.Encoding
import AnfWasm.Proofs.Wasm.Offsets
import AnfWasm.Proofs.SourceMap.Decoder
import AnfWasm.Proofs.SourceMap.Builder
import AnfWasm.Proofs.Emission.SourceMap
import AnfWasm.Proofs.Program.Json
import AnfWasm.Proofs.Store.Files
import AnfWasm.Proofs.Emission.Lock
import AnfWasm.Proofs.Emission.Session
import AnfWasm.Proofs.Lowering.Faults
import AnfWasm.Proofs.Sharing.Faults
import AnfWasm.Proofs.Sharing.Interface
import AnfWasm.Proofs.Scope.Definitions
import AnfWasm.Proofs.Sharing.Repeats
import AnfWasm.Proofs.Sharing.FixedPoint
import AnfWasm.Proofs.Program.Renaming
import AnfWasm.Proofs.Program.Traversal
import AnfWasm.Proofs.Scope.Renaming
import AnfWasm.Proofs.Sharing.Renaming
import AnfWasm.Proofs.Lowering.Renaming
import AnfWasm.Proofs.Lowering.Locals
import AnfWasm.Proofs.Lowering.Listing
import AnfWasm.Proofs.Emission.Effect
import AnfWasm.Proofs.Emission.Neighbours
import AnfWasm.Proofs.Lowering.Accesses
import AnfWasm.Proofs.Lowering.Signature
import AnfWasm.Proofs.Sharing.Size
import AnfWasm.Proofs.Program.Visitors
import AnfWasm.Proofs.Semantics.Purity
import AnfWasm.Proofs.Sharing.Hooks
import AnfWasm.Proofs.Sharing.Reachable
import AnfWasm.Proofs.Lowering.Allocation
import AnfWasm.Proofs.SourceMap.Numbers
import AnfWasm.Proofs.Lowering.Interning
import AnfWasm.Proofs.Lowering.Widths
