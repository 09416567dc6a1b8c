import RaftKVDB.Config.Refines
import RaftKVDB.Foundations.Commitment
import RaftKVDB.Kv.Compaction
import RaftKVDB.Kv.Delivery
import RaftKVDB.Kv.ExactlyOnce
import RaftKVDB.Kv.Linearizable
import RaftKVDB.Kv.SharedChannels
import RaftKVDB.Kv.SharedClerk
import RaftKVDB.Kv.SystemRun
import RaftKVDB.Labrpc.Counts
import RaftKVDB.Labrpc.Outcome
import RaftKVDB.Linearizability.CheckOperations
import RaftKVDB.Raft.ApplyDaemon
import RaftKVDB.Raft.Backup
import RaftKVDB.Raft.CommitRule
import RaftKVDB.Raft.CommitSignal
import RaftKVDB.Raft.Durable
import RaftKVDB.Raft.ElectionTimer
import RaftKVDB.Raft.MatchIndex
import RaftKVDB.Raft.Origin
import RaftKVDB.Raft.Recovers
import RaftKVDB.Raft.Requests
import RaftKVDB.Raft.Safety
import RaftKVDB.Raft.StateMachine
