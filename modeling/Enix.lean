import Enix.Core.Coroutine
import Enix.Core.Bytes
import Enix.Core.RingBuf
import Enix.Core.Dlist
import Enix.Kernel.Bitmap
import Enix.Kernel.Machine
import Enix.Fs.Inode
import Enix.Fs.Dir
import Enix.Fs.Format
import Enix.Fs.File
import Enix.Fs.Path
import Enix.Shell.Pipe
import Enix.Fs.Syscall
import Enix.Fs.Read
import Enix.Fs.FileRead
import Enix.Userprog.Process
import Enix.Fs.InodeTable
import Enix.Fs.OpenFile
import Enix.Fs.Blocks
import Enix.Fs.Reserve
import Enix.Fs.FileWrite
import Enix.Fs.Release
import Enix.Fs.Files
import Enix.Fs.WriteLimits
import Enix.Fs.WriteFails
import Enix.Fs.Quiet
import Enix.Fs.Handles
import Enix.Fs.Descriptors
import Enix.Fs.WriteDeny
import Enix.Fs.Position
import Enix.Fs.Walk
import Enix.Fs.MkdirFails
import Enix.Shell.Fifo
import Enix.Userprog.Inherit
import Enix.Shell.PipeBooks
import Enix.Shell.PipeCount
import Enix.Fs.Browse
import Enix.Core.Command
import Enix.Core.RefCount
import Enix.Memory.Paging
import Enix.Memory.Process
import Enix.Memory.Refs
import Enix.Memory.Frames
import Enix.Memory.KernelPages
import Enix.Memory.Budget
import Enix.Memory.UserPages
import Enix.Memory.UserBitmap
import Enix.Memory.Sound
import Enix.Memory.PageCalls
import Enix.Memory.WriteFault
import Enix.Memory.Create
import Enix.Memory.CopyTables
import Enix.Memory.Fork
import Enix.Memory.Exit
import Enix.Memory.Reap
import Enix.Memory.Start
import Enix.Memory.UserMode
import Enix.Memory.Calls
import Enix.Memory.Progress
import Enix.Memory.Private
import Enix.Memory.KernelStore
import Enix.Memory.Leak
import Enix.Thread.Task
import Enix.Thread.Schedule
import Enix.Thread.Block
import Enix.Thread.Life
import Enix.Thread.Calls
import Enix.Thread.Effect
import Enix.Thread.Family
import Enix.Thread.Orphans
import Enix.Thread.Lock
import Enix.Thread.Ioqueue
import Enix.Memory.PoolInit
import Enix.Fs.DirEntries
import Enix.Fs.DeleteEntry
import Enix.Fs.SyncEntry
import Enix.Fs.Dispatch
import Enix.Thread.IoqueueFifo
import Enix.Fs.FormatLayout
import Enix.Device.Ide
import Enix.Device.Scan
import Enix.Device.FormatAll
import Enix.Memory.Heap
import Enix.Memory.HeapBytes
import Enix.Memory.HeapLists
import Enix.Memory.HeapOk
import Enix.Core.Blocks
import Enix.Memory.HeapBlocks
import Enix.Memory.Malloc
import Enix.Memory.Free
import Enix.Memory.Views
import Enix.Memory.Carried
import Enix.Memory.HeapRun
import Enix.Memory.ForkFails
import Enix.Memory.SharedBitmap
import Enix.Userprog.ForkName
import Enix.Fs.OpenFails
import Enix.Memory.FirstFit
import Enix.Memory.Mmu
import Enix.Shell.PipeRoom
import Enix.Shell.WashPath
import Enix.Memory.OnePage
import Enix.Memory.NoFrame
import Enix.Memory.NotRestored
import Enix.Userprog.Whole
import Enix.Shell.PipeFails
import Enix.Userprog.Exec
import Enix.Userprog.Load
import Enix.Device.Keyboard
import Enix.Device.Ata
import Enix.Device.PartTables
import Enix.Device.Chain
import Enix.Shell.Readline
import Enix.Shell.CmdParse
import Enix.Core.NameTree
import Enix.Fs.Cwd
import Enix.Fs.ReadDir
import Enix.Fs.Opendir
import Enix.Fs.OpenDepth
import Enix.Fs.Getcwd
import Enix.Fs.Chdir
import Enix.Fs.SearchFile
import Enix.Lib.Itoa
import Enix.Lib.Vsprintf
import Enix.Lib.ListOps
import Enix.Memory.SelfMap
import Enix.Core.SlotMap
import Enix.Fs.DirMap
import Enix.Fs.MadeDir
import Enix.Fs.Recached
import Enix.Fs.FileStore
import Enix.Fs.StoreRun
import Enix.Core.Section
import Enix.Thread.Guarded
import Enix.Device.Screen
import Enix.Device.Console
import Enix.Device.Drive
import Enix.Core.Asm
