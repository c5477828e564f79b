import FencedSessions.Main
import FencedSessions.Proofs.Crowd
import FencedSessions.Proofs.Acts
import FencedSessions.Proofs.Growth
import FencedSessions.Proofs.Notes
import FencedSessions.Proofs.Logs
import FencedSessions.Proofs.Outcomes
import FencedSessions.Proofs.Serial
import FencedSessions.Proofs.Lifecycle
import FencedSessions.Proofs.Ownership
import FencedSessions.Proofs.Isolation
import FencedSessions.Proofs.Nesting
import FencedSessions.Proofs.SessionText
import FencedSessions.Proofs.Reload
import FencedSessions.Proofs.Tickets
import FencedSessions.Proofs.Journal
import FencedSessions.Proofs.Standing
import FencedSessions.Proofs.Queues
import FencedSessions.Proofs.Fifo
import FencedSessions.Proofs.Releases
import FencedSessions.Proofs.Leaks
import FencedSessions.Proofs.Refinement
import FencedSessions.Proofs.Retries
import FencedSessions.Proofs.Fencing
import FencedSessions.Proofs.Metrics
import FencedSessions.Proofs.SessionFiles
import FencedSessions.Proofs.Numbering
import FencedSessions.Proofs.Uncontended
import FencedSessions.Proofs.BreakerTrace
import FencedSessions.Proofs.TimeRange
import FencedSessions.Proofs.RoundTrips
import FencedSessions.Proofs.Runs
import FencedSessions.Proofs.Foreground
import FencedSessions.Proofs.Locality
import FencedSessions.Proofs.Twins
import FencedSessions.Proofs.Commuting
import FencedSessions.Proofs.Cooldowns
import FencedSessions.Proofs.OpenCircuit
import FencedSessions.Proofs.Patience
import FencedSessions.Proofs.Finality
import FencedSessions.Proofs.Lapsed
import FencedSessions.Proofs.Recovery
import FencedSessions.Proofs.Succession
import FencedSessions.Proofs.QueueOrder
import FencedSessions.Proofs.Possession
import FencedSessions.Proofs.Histories
import FencedSessions.Proofs.Backoff
import FencedSessions.Proofs.Metadata
import FencedSessions.Proofs.LastActivity
