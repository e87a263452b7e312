import Sailing.Run.Campaign
import Sailing.Run.Leader
import Sailing.Run.Lease
import Sailing.Lease.Timing
import Sailing.Transport.Stream
import Sailing.Driver.Answers
import Sailing.Driver.Limbo
import Sailing.Driver.Budget
import Sailing.Multi.EngineLog
import Sailing.Multi.Lineage
import Sailing.Multi.Restore
import Sailing.Membership.Overlap
import Sailing.Run.Probe
import Sailing.Run.Window
import Sailing.Snapshot.Staging
import Sailing.Wire.Encoder
import Sailing.Wire.Data
import Sailing.Run.Chunks
import Sailing.Transport.Ledger
import Sailing.Freeze.Claims
