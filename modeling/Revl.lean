import Revl.Emission.Boundary
import Revl.Parallel.Independence
import Revl.Recovery.Approval
import Revl.Recovery.Honesty
import Revl.Wal.Durability
import Revl.Runtime.Approval
import Revl.Runtime.Estop
import Revl.Stream.Cursor
import Revl.Stream.Graph
import Revl.Mcp.Lease
import Revl.Mcp.SpendRuns
import Revl.Mcp.Quorum
import Revl.Mcp.Receipt
import Revl.Leases.Book
import Revl.Shared.Journal
import Revl.ClassMap.CandidateHash
import Revl.Deploy.Settle
import Revl.Taint.Covering
import Revl.Pool.Peer
import Revl.Shell.Classify
import Revl.Deploy.Measure
import Revl.Fs.Replay
import Revl.Pool.Retry
import Revl.Link.Prereqs
import Revl.Link.Plan
import Revl.Drift.Gate
import Revl.Boundary.Attenuate
import Revl.Spawn.Attenuation
import Revl.Admission.Running
import Revl.Runtime.Meter
import Revl.Petri.Reach
import Revl.Petri.Semiflow
import Revl.Emission.Witness
import Revl.Fork.Confirm
import Revl.Recovery.ForkRetired
import Revl.Distill.Exact
import Revl.Seam.Codec
import Revl.Lexer.Lex
import Revl.Update.Semver
import Revl.Deploy.ReplayGuard
import Revl.Admission.Evolution
import Revl.Types.Generic
import Revl.Fork.Guard
import Revl.Fork.Compare
