import Zonix.Base.Error
import Zonix.Base.Word
import Zonix.Lib.Prog
import Zonix.Lib.Path
import Zonix.Lib.Ring
import Zonix.Lib.Rings
import Zonix.Vfs.MountTable
import Zonix.Vfs.Lifetime
import Zonix.Mm.FirstFit
import Zonix.Mm.Conservation
import Zonix.Mm.Completeness
import Zonix.Mm.Kmalloc
import Zonix.Mm.Boot
import Zonix.Fat.Layout
import Zonix.Fat.Device
import Zonix.Fat.Core
import Zonix.Fat.Dir
import Zonix.Fat.Mount
import Zonix.Fat.Gpt
import Zonix.Fat.Volume
import Zonix.Fat.Update
import Zonix.Fat.Address
import Zonix.Fat.Cache
import Zonix.Fat.ChainSpec
import Zonix.Fat.Clusters
import Zonix.Fat.Scan
import Zonix.Fat.Lookup
import Zonix.Fat.Entries
import Zonix.Fat.AddEntry
import Zonix.Fat.Create
import Zonix.Fat.Mkdir
import Zonix.Fat.Unlink
import Zonix.Fat.FileIo
import Zonix.Fat.Runs
import Zonix.Fat.Handles
import Zonix.Fat.FileLaw
import Zonix.Fat.Names
import Zonix.Fat.Find
import Zonix.Fat.Bounds
import Zonix.Fat.Traversal
import Zonix.Fat.CacheMap
import Zonix.Fat.Stability
import Zonix.Fat.Effects
import Zonix.Fat.ReadDir
import Zonix.Fat.AddListed
import Zonix.Fat.Emptiness
import Zonix.Vfs.Slashes
import Zonix.Sched.TaskState
import Zonix.Sched.Process
import Zonix.Sched.Table
import Zonix.Sched.Listing
import Zonix.Sched.Dispatch
import Zonix.Sched.Calls
import Zonix.Sched.Lifecycle
import Zonix.Sched.Ledger
import Zonix.Sched.Runs
import Zonix.Sched.Rotation
import Zonix.Sync.WaitQueue
import Zonix.Sync.Mutex
import Zonix.Sync.Semaphore
import Zonix.Sync.Console
import Zonix.Lib.Bits
import Zonix.Lib.Radix
import Zonix.Lib.Tight
import Zonix.Vm.Pte
import Zonix.Vm.PteBits
import Zonix.Vm.PteSplit
import Zonix.Vm.PteMake
import Zonix.Vm.PageTable
import Zonix.Vm.Walk
import Zonix.Vm.Swap
import Zonix.Vm.UserSpace
import Zonix.Vm.SwapEntry
import Zonix.Vm.Owned
import Zonix.Vm.Mapping
import Zonix.Vm.SwapOut
import Zonix.Vm.SwapIn
import Zonix.Vm.Teardown
import Zonix.Vm.Spaces
import Zonix.Vm.Balance
import Zonix.Vm.RoundTrip
import Zonix.Vm.AllocMap
import Zonix.Vm.Mmio
import Zonix.Vm.Unmap
import Zonix.Vm.Window
import Zonix.Vm.MmioMap
import Zonix.Vm.MmioInv
import Zonix.Vm.MmioX86
import Zonix.Vm.MmioSv39
import Zonix.Lib.Blit
import Zonix.Ahci.Port
import Zonix.Ahci.Transfer
import Zonix.Vm.UserCopy
import Zonix.Syscall.FileIo
import Zonix.Vm.SwapFail
import Zonix.Vm.Slots
import Zonix.Vm.Reverse
import Zonix.Vm.Prune
import Zonix.Fat.PathLoops
import Zonix.Efi.BaseReloc
import Zonix.Lib.Bytes
import Zonix.Lib.Bitmap
import Zonix.Vm.Contents
import Zonix.Exec.Elf
import Zonix.Exec.Image
import Zonix.Exec.Validate
import Zonix.Exec.Load
import Zonix.Exec.Layout
import Zonix.Lib.Coalesce
import Zonix.Sd.Capacity
import Zonix.Boot.MemoryMap
import Zonix.Lib.Sink
import Zonix.Lib.Numeral
import Zonix.Cons.Format
import Zonix.Cons.Numbers
import Zonix.Lib.RingLog
import Zonix.Cons.Log
