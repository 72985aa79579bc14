import ForkDetector.Chains.Lca
import ForkDetector.Chains.Heads
import ForkDetector.Chains.Forks
import ForkDetector.Chains.Crash
import ForkDetector.Chains.Output
import ForkDetector.Chains.Contributions
import ForkDetector.Chains.Generators
import ForkDetector.Chains.Stats
import ForkDetector.Chains.Backward
import ForkDetector.Lib.Keyspace
import ForkDetector.Chains.Database
import ForkDetector.Chains.Families
import ForkDetector.Chains.Disk
import ForkDetector.Peers.Connected
import ForkDetector.Peers.Pending
import ForkDetector.Peers.Reachable
import ForkDetector.Peers.Refusals
import ForkDetector.Peers.Verdicts
import ForkDetector.Peers.Keys
import ForkDetector.Peers.Listing
import ForkDetector.Peers.Damaged
import ForkDetector.Peers.Versions
import ForkDetector.Node.Shutdown
import ForkDetector.Node.Respawn
import ForkDetector.Loading.Rounds
import ForkDetector.Loading.Filling
import ForkDetector.Loading.Wedge
import ForkDetector.Loading.Interleaving
import ForkDetector.Loading.Arrival
import ForkDetector.Loading.Scores
import ForkDetector.Loading.Syncing
import ForkDetector.Api.ActiveForks
import ForkDetector.Api.Status
import ForkDetector.Loading.Asking
import ForkDetector.Peers.Panics
