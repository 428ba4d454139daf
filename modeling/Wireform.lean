import Wireform.Session
import Wireform.Pool.Leases
import Wireform.Sample.Part
import Wireform.Sample.Formats
import Wireform.Settings.Source
import Wireform.Proofs.RoundTrip.Normal
import Wireform.Proofs.RoundTrip.Stream
import Wireform.Proofs.Dialect.Consistency
import Wireform.Proofs.Dialect.Agreement
import Wireform.Proofs.Buffer.Queue
import Wireform.Proofs.Buffer.Sharing
import Wireform.Proofs.Endpoint.Transparency
import Wireform.Proofs.Buffer.Released
import Wireform.Proofs.Buffer.Undisturbed
import Wireform.Proofs.Writing.Rollback
import Wireform.Proofs.Writing.Capacity
import Wireform.Proofs.RoundTrip.Depth
import Wireform.Proofs.Compact.Chunks
import Wireform.Proofs.Compact.Shortest
import Wireform.Proofs.Text.Acceptance
import Wireform.Proofs.Writing.Chunking
import Wireform.Proofs.Trace.Objects
import Wireform.Proofs.Reading.Foretelling
import Wireform.Proofs.Packet.Canonical
import Wireform.Proofs.Dialect.Serving
import Wireform.Proofs.Pool.Accounts
import Wireform.Proofs.Roster.Parsing
import Wireform.Proofs.Levels.Balance
import Wireform.Proofs.Endpoint.Stock
