import Conductor.Session
import Conductor.Bench
import Conductor.Logbook
import Conductor.Proofs.Jobs
import Conductor.Proofs.Scripted
import Conductor.Proofs.Change
import Conductor.Proofs.Reach
import Conductor.Proofs.Growth
import Conductor.Proofs.Lanes
import Conductor.Proofs.Roles
import Conductor.Proofs.Tasks
import Conductor.Proofs.Joints
import Conductor.Proofs.Effect
import Conductor.Proofs.Operations
import Conductor.Proofs.Sound
import Conductor.Proofs.Verdicts
import Conductor.Proofs.Inert
import Conductor.Proofs.Branches
import Conductor.Proofs.Readback
import Conductor.Proofs.Notices
import Conductor.Proofs.Acts
import Conductor.Proofs.Happenings
import Conductor.Proofs.Bodies
import Conductor.Proofs.Turns
import Conductor.Proofs.Ledger
import Conductor.Proofs.Done
import Conductor.Proofs.Order
import Conductor.Proofs.Barrier
import Conductor.Proofs.Ways
import Conductor.Proofs.Sequences
import Conductor.Proofs.Failures
import Conductor.Proofs.Phases
import Conductor.Proofs.Selection
import Conductor.Proofs.Addresses
import Conductor.Proofs.Lifecycle
import Conductor.Proofs.Heaps
import Conductor.Proofs.Mild
import Conductor.Proofs.Args
import Conductor.Proofs.Serving
import Conductor.Proofs.Since
import Conductor.Proofs.Wakes
import Conductor.Proofs.Waiting
import Conductor.Proofs.Lifetime
import Conductor.Proofs.Standstill
import Conductor.Proofs.Sturdy
import Conductor.Proofs.Attendance
import Conductor.Proofs.Decisions
import Conductor.Proofs.Progress
import Conductor.Proofs.Hearings
import Conductor.Proofs.Rejections
import Conductor.Proofs.Overwriting
import Conductor.Proofs.Groupless
import Conductor.Proofs.Schedules
import Conductor.Proofs.Lineup
import Conductor.Proofs.Registration
import Conductor.Proofs.Reporting
import Conductor.Proofs.Alternation
import Conductor.Proofs.Observability
import Conductor.Proofs.Punctual
import Conductor.Proofs.Grouping
import Conductor.Proofs.Arity
import Conductor.Proofs.Usage
import Conductor.Proofs.Dispatch
import Conductor.Proofs.Occurrences
import Conductor.Proofs.Routing
import Conductor.Proofs.Jsonable
import Conductor.Proofs.Shortcuts
import Conductor.Proofs.Propagation
import Conductor.Proofs.Chronicle
import Conductor.Proofs.Timing
import Conductor.Proofs.Merging
import Conductor.Proofs.Written
import Conductor.Proofs.Making
import Conductor.Proofs.Origins
import Conductor.Proofs.Sessions
