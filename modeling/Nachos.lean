import Nachos.Library.Transition
import Nachos.Library.Bytes
import Nachos.Library.Words
import Nachos.Library.Outcome
import Nachos.Library.Assoc
import Nachos.Library.Object
import Nachos.Library.Scatter
import Nachos.Library.I386
import Nachos.Threads.Kernel
import Nachos.Threads.Placement
import Nachos.Threads.Lock
import Nachos.Threads.Semaphore
import Nachos.Threads.Condition
import Nachos.Threads.Scheduler
import Nachos.Threads.Barrier
import Nachos.Threads.Carcass
import Nachos.Threads.Observed
import Nachos.Threads.SynchList
import Nachos.Threads.Switch
import Nachos.Threads.Contexts
import Nachos.Userprog.BitMap
import Nachos.VM.Manager
import Nachos.Library.Recency
import Nachos.VM.Replacement
import Nachos.VM.AddrSpace
import Nachos.VM.Routines
import Nachos.VM.Residence
import Nachos.VM.Ownership
import Nachos.VM.Contents
import Nachos.VM.NewPages
import Nachos.VM.Fork
import Nachos.VM.Invariant
import Nachos.VM.ReadFile
import Nachos.VM.Loader
import Nachos.VM.LoadBounds
import Nachos.VM.Effects
import Nachos.VM.Progress
import Nachos.VM.Flat
import Nachos.VM.KernelStore
import Nachos.Filesys.Disk
import Nachos.Userprog.BitSet
import Nachos.Filesys.SynchDisk
import Nachos.Filesys.FileHeader
import Nachos.Filesys.OpenFile
import Nachos.Filesys.Directory
import Nachos.Filesys.FileSystem
import Nachos.Filesys.HeaderOnDisk
import Nachos.Filesys.Allocation
import Nachos.Filesys.Ownership
import Nachos.Filesys.Allocated
import Nachos.Filesys.Transfer
import Nachos.Filesys.FreeMapFile
import Nachos.Filesys.Extension
import Nachos.Filesys.Growth
import Nachos.Filesys.DataSectors
import Nachos.Filesys.FileContents
import Nachos.Filesys.WriteFrame
import Nachos.Filesys.Reading
import Nachos.Filesys.DirectoryFile
import Nachos.Filesys.Names
import Nachos.Filesys.NameTable
import Nachos.Filesys.Consistent
import Nachos.Filesys.Create
import Nachos.Filesys.Remove
import Nachos.Filesys.Requests
import Nachos.Filesys.WriteFaults
import Nachos.Filesys.NameSpace
import Nachos.Filesys.AllOrNothing
import Nachos.Filesys.Store
import Nachos.Network.Packet
import Nachos.Network.PostOffice
import Nachos.Network.Delivery
import Nachos.Userprog.AddrSpace
import Nachos.Userprog.Frames
import Nachos.Userprog.Translation
import Nachos.Userprog.Ranges
import Nachos.Userprog.Loading
import Nachos.Userprog.OpenFiles
import Nachos.Library.Command
import Nachos.Userprog.ProcessManager
import Nachos.Userprog.Join
import Nachos.Userprog.ProcessTable
import Nachos.Userprog.Exception
import Nachos.Userprog.Levels
import Nachos.Userprog.Isolation
import Nachos.Userprog.FileTransfer
import Nachos.Userprog.Arguments
import Nachos.Userprog.Closing
import Nachos.Library.CArray
import Nachos.VM.Tracking
import Nachos.VM.RandomReplacement
import Nachos.Library.Chain
import Nachos.Threads.LinkedList
import Nachos.Machine.Interrupt
import Nachos.Machine.Device
import Nachos.Machine.DiskDrive
import Nachos.Library.Double
import Nachos.Library.Masks
import Nachos.Machine.Mult
import Nachos.Machine.Instruction
import Nachos.Machine.Translate
import Nachos.Machine.Simulator
import Nachos.Machine.Arithmetic
import Nachos.Machine.Precise
import Nachos.Machine.Paging
import Nachos.Machine.DelaySlot
import Nachos.Machine.Lockstep
import Nachos.Machine.Process
import Nachos.Machine.Computer
import Nachos.Machine.Virtual
import Nachos.Machine.Faults
import Nachos.Machine.Resident
import Nachos.Bin.Coff
import Nachos.Bin.Coff2noff
import Nachos.Bin.Linked
