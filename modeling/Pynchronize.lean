import Pynchronize.Lib.Dict
import Pynchronize.Lib.Digraph
import Pynchronize.Lock.Deadlock
import Pynchronize.Lock.CycleSearch
import Pynchronize.Lock.Termination
import Pynchronize.Lock.Table
import Pynchronize.Lock.TableStep
import Pynchronize.Lock.Invariant
import Pynchronize.Lock.Deadlocks
import Pynchronize.Lock.Exclusion
import Pynchronize.Lib.LogConsistency
import Pynchronize.Lib.LeaderCompleteness
import Pynchronize.Raft.Cluster
import Pynchronize.Raft.Coupling
import Pynchronize.Raft.NodeSteps
import Pynchronize.Raft.Handlers
import Pynchronize.Raft.Simulation
import Pynchronize.Raft.Roles
import Pynchronize.Raft.Safety
import Pynchronize.Raft.Trace
import Pynchronize.Lock.Manager
import Pynchronize.Lock.ManagerStep
import Pynchronize.Lock.Calls
import Pynchronize.Lock.Futures
import Pynchronize.Lock.Requests
import Pynchronize.Lock.Replies
import Pynchronize.Lock.Refusals
import Pynchronize.Raft.Terms
import Pynchronize.Raft.Voting
import Pynchronize.Raft.Forwarding
import Pynchronize.Raft.Commitment
import Pynchronize.Lock.Commit
import Pynchronize.Queue.Ring
import Pynchronize.Queue.Routing
import Pynchronize.Queue.Detector
import Pynchronize.Queue.Membership
import Pynchronize.Queue.Node
import Pynchronize.Queue.Cluster
import Pynchronize.Queue.Calls
import Pynchronize.Queue.Traffic
import Pynchronize.Queue.Acks
import Pynchronize.Queue.Placement
import Pynchronize.Queue.Replicas
import Pynchronize.Queue.Delivery
import Pynchronize.Cache.Lru
import Pynchronize.Cache.Node
import Pynchronize.Cache.Cluster
import Pynchronize.Cache.Steps
import Pynchronize.Cache.Coherence
import Pynchronize.Cache.Freshness
import Pynchronize.Lock.Determinism
import Pynchronize.Lock.HttpCommands
import Pynchronize.Queue.Crash
import Pynchronize.Queue.Selection
import Pynchronize.Queue.Restart
import Pynchronize.Raft.Answer
import Pynchronize.Raft.CatchUp
import Pynchronize.Raft.LostLeadership
import Pynchronize.Raft.Persisted
import Pynchronize.Raft.StaleTraffic
import Pynchronize.Lock.Undo
import Pynchronize.Lock.Cleanup
import Pynchronize.Lib.Exclusive
import Pynchronize.Queue.Uniqueness
import Pynchronize.Queue.Consumers
import Pynchronize.Queue.Subscriptions
import Pynchronize.Cache.Versions
import Pynchronize.Lib.Recency
import Pynchronize.Cache.Recency
import Pynchronize.Cache.Writeback
import Pynchronize.Queue.Heartbeats
import Pynchronize.Lib.Clockwise
import Pynchronize.Queue.Preference
import Pynchronize.Raft.Completeness
import Pynchronize.Raft.Recovery
import Pynchronize.Lock.Linearizability
import Pynchronize.Lock.Fairness
import Pynchronize.Queue.Integrity
import Pynchronize.Cache.Integrity
import Pynchronize.Base.Heartbeats
import Pynchronize.Base.Suspicion
import Pynchronize.Raft.Timers
import Pynchronize.Raft.Timed
import Pynchronize.Raft.Stability
import Pynchronize.Raft.Hanging
import Pynchronize.Lock.Timed
import Pynchronize.Lock.Hanging
import Pynchronize.Queue.Agreement
