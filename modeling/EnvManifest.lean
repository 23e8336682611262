import EnvManifest.Cancel
import EnvManifest.Main
import EnvManifest.Proofs.Eval.Composition
import EnvManifest.Proofs.Eval.Interleaving
import EnvManifest.Proofs.Eval.Parallel
import EnvManifest.Proofs.Manifest.RoundTrip
import EnvManifest.Proofs.Eval.Failure
import EnvManifest.Proofs.Eval.Lines
import EnvManifest.Proofs.Eval.Folding
import EnvManifest.Proofs.Patch.Pairing
import EnvManifest.Proofs.Patch.Rewriting
import EnvManifest.Proofs.Script.Written
import EnvManifest.Proofs.Eval.CancelledRuns
import EnvManifest.Proofs.Eval.Isolation
import EnvManifest.Proofs.Manifest.Acceptance
import EnvManifest.Proofs.Manifest.Captured
import EnvManifest.Proofs.Patch.Extent
import EnvManifest.Proofs.Manifest.PlainText
import EnvManifest.Proofs.Eval.Relocation
import EnvManifest.Proofs.Patch.Scoping
import EnvManifest.Proofs.Literal.Agreement
import EnvManifest.Proofs.Eval.ReadBack
import EnvManifest.Proofs.Eval.Denoted
import EnvManifest.Proofs.Eval.Chains
import EnvManifest.Proofs.Eval.Strictness
import EnvManifest.Proofs.Eval.Reachability
import EnvManifest.Proofs.Eval.Walks
import EnvManifest.Proofs.Manifest.Payloads
import EnvManifest.Proofs.Manifest.Tiling
import EnvManifest.Proofs.Cancel
import EnvManifest.Proofs.Manifest.Marks
import EnvManifest.Proofs.Manifest.Coordinates
import EnvManifest.Proofs.Manifest.Integers
import EnvManifest.Proofs.Path.Normal
import EnvManifest.Proofs.Manifest.Slices
import EnvManifest.Proofs.Literal.Coercion
import EnvManifest.Proofs.Eval.Hints
import EnvManifest.Proofs.Path.Relative
import EnvManifest.Proofs.Path.Resolve
import EnvManifest.Proofs.Path.Expansion
import EnvManifest.Proofs.PathList
import EnvManifest.Proofs.Path.Decomposition
import EnvManifest.Proofs.Render
import EnvManifest.Proofs.Patch.Lossless
