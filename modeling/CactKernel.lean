import CactKernel.Sync.Semaphore
import CactKernel.Sync.Mutex
import CactKernel.Sync.Layout
import CactKernel.Memory.Validate
import CactKernel.Sched.Runs
import CactKernel.Vfs.Access
import CactKernel.Memory.Ledger
import CactKernel.Block.Containment
import CactKernel.Vfs.PipeCounters
import CactKernel.Sched.Lossless
import CactKernel.Initfs.Agreement
import CactKernel.Unix.StreamLock
import CactKernel.Block.PageDurable
import CactKernel.Http.Coding
import CactKernel.Http.Complete
import CactKernel.Http.Request
import CactKernel.Crypto.Record
import CactKernel.Vfs.Mounts
import CactKernel.Memory.HeapCalls
import CactKernel.Crypto.Hkdf
import CactKernel.Memory.Search
import CactKernel.Memory.Clock
import CactKernel.Memory.Sizes
import CactKernel.Sched.ForkUnwind
import CactKernel.Memory.FileMap
import CactKernel.Memory.Brk
import CactKernel.Sched.Sigreturn
import CactKernel.Sched.Walks
import CactKernel.Vfs.Tmpfs
import CactKernel.Vfs.SymlinkPool
import CactKernel.Vfs.SymlinkWalk
import CactKernel.Memory.Protect
import CactKernel.Net.ByteOrder
import CactKernel.Net.Buffers
import CactKernel.Net.Sending
import CactKernel.Vfs.FsModules
import CactKernel.Net.Qname
import CactKernel.Usb.Command
