import Rome.Proofs.RemotePtr
import Rome.Proofs.LevelHash
import Rome.Proofs.IhtLinear
import Rome.Proofs.IhtSequential
import Rome.Proofs.IhtCopies
import Rome.Proofs.IhtCacheAccess
import Rome.Proofs.IhtDepth
import Rome.Proofs.IhtTable
import Rome.Proofs.IhtInsert
import Rome.Proofs.IhtUnlock
import Rome.Proofs.IhtSnapshot
import Rome.Proofs.IhtRaw
import Rome.Proofs.IhtValues
import Rome.Proofs.IhtLocal
import Rome.Proofs.IhtLocalSafe
import Rome.Proofs.IhtLocalConcurrent
import Rome.Proofs.IhtLocalProgress
import Rome.Proofs.MemoryResource
import Rome.Proofs.SlabClass
import Rome.Proofs.MemoryReuse
import Rome.Proofs.MemoryBitmap
import Rome.Proofs.MemoryThreads
import Rome.Proofs.ConnectionAgreement
import Rome.Proofs.ConnectionCleanup
import Rome.Proofs.Bootstrap
import Rome.Proofs.Summary
import Rome.Proofs.AtreeCount
import Rome.Proofs.Tcp
import Rome.Proofs.TcpOwner
import Rome.Proofs.RdmaMemory
import Rome.Proofs.Messenger
import Rome.Proofs.MemoryPool
import Rome.Proofs.RemoteWord
import Rome.Proofs.ReadInternal
import Rome.Proofs.Rpc
import Rome.Proofs.KeyRouting
import Rome.Proofs.Message
import Rome.Proofs.WorkloadDriver
import Rome.Proofs.Cli
