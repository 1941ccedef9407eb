import RadioSim.Queue.Waiters
import RadioSim.Pubsub.Names
import RadioSim.Pubsub.Fanout
import RadioSim.Process.System
import RadioSim.Foundation.Custody
import RadioSim.Process.Effect
import RadioSim.Process.Ownership
import RadioSim.Process.Backpressure
import RadioSim.Process.Roles
import RadioSim.Process.Sites
import RadioSim.Foundation.WorkPool
import RadioSim.Process.Pool
import RadioSim.Process.Lifetime
import RadioSim.Process.Stock
import RadioSim.Process.Wire
import RadioSim.Process.Negotiation
import RadioSim.Process.Session
import RadioSim.Process.Stopping
import RadioSim.Process.Staff
import RadioSim.Process.Drain
import RadioSim.Process.Receipts
import RadioSim.Process.Ordering
import RadioSim.Foundation.Json
import RadioSim.Process.Schema
import RadioSim.Process.Client
import RadioSim.Process.LastWords
import RadioSim.Process.Readiness
import RadioSim.Process.Shutdown
import RadioSim.Foundation.Numeral
import RadioSim.Process.Offer
import RadioSim.Foundation.CharArray
import RadioSim.Process.Hello
import RadioSim.Process.Applying
import RadioSim.Pubsub.Cloning
import RadioSim.Pubsub.Interference
import RadioSim.Process.Slices
import RadioSim.Process.Telemetry
import RadioSim.Foundation.Loop
import RadioSim.Process.Writing
import RadioSim.Process.Sleeping
import RadioSim.Process.Reading
import RadioSim.Queue.Storage
import RadioSim.Foundation.Pointer
import RadioSim.Process.Parsing
import RadioSim.Process.Formatting
import RadioSim.Foundation.Waking
import RadioSim.Foundation.Locking
import RadioSim.Queue.Statements
import RadioSim.Process.Mutexes
import RadioSim.Foundation.Potential
import RadioSim.Process.Resources
import RadioSim.Process.Termination
import RadioSim.Process.Exit
