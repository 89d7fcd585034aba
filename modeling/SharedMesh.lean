import SharedMesh.Box.Renumber
import SharedMesh.Interchange
import SharedMesh.Proofs.Bisection.Dealing
import SharedMesh.Proofs.Bisection.Isolating
import SharedMesh.Proofs.Bisection.Searching
import SharedMesh.Proofs.Bisection.Walking
import SharedMesh.Proofs.Box.Conforming
import SharedMesh.Proofs.Box.Counting
import SharedMesh.Proofs.Box.Renumbering
import SharedMesh.Proofs.Collective.Calls
import SharedMesh.Proofs.Curve.Clouds
import SharedMesh.Proofs.Curve.Continuity
import SharedMesh.Proofs.Curve.Line
import SharedMesh.Proofs.Curve.Refining
import SharedMesh.Proofs.Curve.Stability
import SharedMesh.Proofs.Mesh.Assembling
import SharedMesh.Proofs.Mesh.Degenerate
import SharedMesh.Proofs.Mesh.Distribution
import SharedMesh.Proofs.Mesh.Shortcut
import SharedMesh.Proofs.Network.Delivering
import SharedMesh.Proofs.Ownership.Identity
import SharedMesh.Proofs.Ownership.Owning
import SharedMesh.Proofs.Ownership.Rearranging
import SharedMesh.Proofs.Record.Dihedral
import SharedMesh.Proofs.Record.Invariant
import SharedMesh.Proofs.Route.Broadcasting
import SharedMesh.Proofs.Route.Law
import SharedMesh.Proofs.Shares.Words
import SharedMesh.Proofs.Skeleton.Enumerating
import SharedMesh.Proofs.Tiling
import SharedMesh.Proofs.Wire.Intact
