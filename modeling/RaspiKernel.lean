import RaspiKernel.Boot.Cat
import RaspiKernel.Boot.Cpio
import RaspiKernel.Boot.CpioStep
import RaspiKernel.Boot.Fdt
import RaspiKernel.Boot.Initrd
import RaspiKernel.Boot.Str
import RaspiKernel.Bootloader.Upload
import RaspiKernel.Cpu.Entry
import RaspiKernel.Cpu.ExitWindow
import RaspiKernel.Cpu.ForkReturn
import RaspiKernel.Cpu.Nested
import RaspiKernel.Cpu.SigReturn
import RaspiKernel.Cpu.Switch
import RaspiKernel.Fs.Capacity
import RaspiKernel.Fs.Create
import RaspiKernel.Fs.Decode
import RaspiKernel.Fs.Endless
import RaspiKernel.Fs.Fat32
import RaspiKernel.Fs.FatTable
import RaspiKernel.Fs.File
import RaspiKernel.Fs.FileRefine
import RaspiKernel.Fs.Initramfs
import RaspiKernel.Fs.Isolation
import RaspiKernel.Fs.LargeRead
import RaspiKernel.Fs.Mount
import RaspiKernel.Fs.NewEntry
import RaspiKernel.Fs.Persist
import RaspiKernel.Fs.ReadClip
import RaspiKernel.Fs.Reads
import RaspiKernel.Fs.Remount
import RaspiKernel.Fs.RootRun
import RaspiKernel.Fs.ShortName
import RaspiKernel.Fs.Tree
import RaspiKernel.Fs.Walk
import RaspiKernel.Fs.WriteBounds
import RaspiKernel.Irq.CharQueue
import RaspiKernel.Irq.Duplex
import RaspiKernel.Irq.Tasklet
import RaspiKernel.Irq.TaskletOrder
import RaspiKernel.Irq.Timer
import RaspiKernel.Irq.Uart
import RaspiKernel.Lib.A64
import RaspiKernel.Lib.AlignedBlock
import RaspiKernel.Lib.Approx
import RaspiKernel.Lib.Bits
import RaspiKernel.Lib.ByteMem
import RaspiKernel.Lib.Device
import RaspiKernel.Lib.Logged
import RaspiKernel.Lib.Overlap
import RaspiKernel.Lib.Ring
import RaspiKernel.Lib.RingBuffer
import RaspiKernel.Lib.Run
import RaspiKernel.Lib.SlotList
import RaspiKernel.Lib.Span
import RaspiKernel.Lib.Stage1
import RaspiKernel.Lib.WordMem
import RaspiKernel.Memblock.AddRange
import RaspiKernel.Memblock.Alloc
import RaspiKernel.Memblock.Basic
import RaspiKernel.Memblock.Find
import RaspiKernel.Memblock.FreeRange
import RaspiKernel.Memblock.Memmove
import RaspiKernel.Mm.Away
import RaspiKernel.Mm.Boot
import RaspiKernel.Mm.Buddy
import RaspiKernel.Mm.BuddyInv
import RaspiKernel.Mm.BuddyRun
import RaspiKernel.Mm.Exec
import RaspiKernel.Mm.ExecAlign
import RaspiKernel.Mm.Fork
import RaspiKernel.Mm.ForkStack
import RaspiKernel.Mm.FreeGuard
import RaspiKernel.Mm.Heap
import RaspiKernel.Mm.KernelMap
import RaspiKernel.Mm.Kmalloc
import RaspiKernel.Mm.Leftover
import RaspiKernel.Mm.Limit
import RaspiKernel.Mm.ListHead
import RaspiKernel.Mm.Mmu
import RaspiKernel.Mm.Owned
import RaspiKernel.Mm.Paging
import RaspiKernel.Mm.PagingRefine
import RaspiKernel.Mm.Protection
import RaspiKernel.Mm.Residue
import RaspiKernel.Mm.Room
import RaspiKernel.Mm.Slab
import RaspiKernel.Mm.SlabInv
import RaspiKernel.Mm.SlabRun
import RaspiKernel.Mm.Tables
import RaspiKernel.Mm.Touch
import RaspiKernel.Mm.User
import RaspiKernel.Mm.Withheld
import RaspiKernel.Print.Calls
import RaspiKernel.Print.Fits
import RaspiKernel.Print.Numbers
import RaspiKernel.Print.Sprintf
import RaspiKernel.Sched.Basic
import RaspiKernel.Sched.Exit
import RaspiKernel.Sched.Fair
import RaspiKernel.Sched.Run
import RaspiKernel.Sched.Signal
import RaspiKernel.Sd.BlockStore
import RaspiKernel.Sd.Driver
import RaspiKernel.Vfs.AbsPath
import RaspiKernel.Vfs.Basic
import RaspiKernel.Vfs.Fd
import RaspiKernel.Vfs.FdCheck
import RaspiKernel.Vfs.InodeName
import RaspiKernel.Vfs.Inv
import RaspiKernel.Vfs.Lookup
import RaspiKernel.Vfs.Mount
import RaspiKernel.Vfs.Names
import RaspiKernel.Vfs.NewDir
import RaspiKernel.Vfs.NewFile
import RaspiKernel.Vfs.OpenInto
import RaspiKernel.Vfs.PathBounds
import RaspiKernel.Vfs.PathBuf
import RaspiKernel.Vfs.Resolve
import RaspiKernel.Vfs.Run
import RaspiKernel.Vfs.Stable
