import RaftLabs.TransitionSystem
import RaftLabs.ReplicatedLog
import RaftLabs.ReplicatedLogSafety
import RaftLabs.RaftServer
import RaftLabs.RaftCluster
import RaftLabs.RaftServerSpec
import RaftLabs.RaftSteps
import RaftLabs.RaftRefinement
import RaftLabs.RaftSafety
import RaftLabs.RaftCommitRule
import RaftLabs.RaftRejection
import RaftLabs.RaftBounds
import RaftLabs.RaftBackup
import RaftLabs.RaftStaleReplies
import RaftLabs.RaftDelivery
import RaftLabs.KVServer
import RaftLabs.KVReplica
import RaftLabs.ClientSessions
import RaftLabs.KVService
import RaftLabs.KVLinearizable
import RaftLabs.ShardKVServer
import RaftLabs.ShardKVServerSpec
import RaftLabs.ShardKVLog
import RaftLabs.ShardKVMap
import RaftLabs.ShardKVSystem
import RaftLabs.ShardKVOwnership
import RaftLabs.ShardKVHandoff
import RaftLabs.ShardKVData
import RaftLabs.ShardKVSessions
import RaftLabs.ShardKVLinearizable
import RaftLabs.RaftCompaction
import RaftLabs.KVSrv
import RaftLabs.KVSrvLinearizable
import RaftLabs.ShardCtrler
import RaftLabs.ShardCtrlerSpec
import RaftLabs.ShardCtrlerConfigs
import RaftLabs.EvenShares
import RaftLabs.ShardCtrlerBalance
import RaftLabs.ShardKVDeletion
import RaftLabs.ShardDeployment
import RaftLabs.ShardKVDedup
import RaftLabs.ShardKVCreation
import RaftLabs.ServiceProgress
import RaftLabs.ShardKVProgress
import RaftLabs.ShardKVWaiting
import RaftLabs.KeyGroups
import RaftLabs.MapReduce
import RaftLabs.MapReduceSpec
import RaftLabs.MapReduceSequential
import RaftLabs.DancingLinks
import RaftLabs.BacktrackSearch
import RaftLabs.Linearization
import RaftLabs.LinearizationSearch
import RaftLabs.Porcupine
import RaftLabs.PorcupineSpec
import RaftLabs.PorcupineSearch
import RaftLabs.PorcupineHistory
import RaftLabs.PorcupineParallel
import RaftLabs.PorcupineCheck
import RaftLabs.PorcupineKv
import RaftLabs.PorcupineServices
import RaftLabs.PorcupineEvents
import RaftLabs.ServiceReads
import RaftLabs.ShardCtrlerService
import RaftLabs.ShardCtrlerLinearizable
import RaftLabs.RaftElection
import RaftLabs.RaftProgress
import RaftLabs.RaftEntries
import RaftLabs.KVRaft
import RaftLabs.KVRaftRefinement
import RaftLabs.KVRaftLinearizable
import RaftLabs.RaftService
import RaftLabs.ShardCtrlerRaft
import RaftLabs.LabRpc
