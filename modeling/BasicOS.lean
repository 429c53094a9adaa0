import BasicOS.Lib.Run
import BasicOS.Lib.Memory
import BasicOS.Lib.Linked
import BasicOS.Lib.Program
import BasicOS.Keyboard.Queue
import BasicOS.Heap.Safety
import BasicOS.Heap.Release
import BasicOS.Paging.Translation
import BasicOS.Task.ListInvariant
import BasicOS.Task.SwitchRoundTrip
import BasicOS.Fs.FileContents
import BasicOS.Fs.Stream
import BasicOS.Memory.Contract
import BasicOS.Memory.KernelHeap
import BasicOS.Paging.Lifetime
import BasicOS.Fs.Descriptors
import BasicOS.Fs.Directories
import BasicOS.Fs.Balance
import BasicOS.Process.Allocations
import BasicOS.Process.Focus
import BasicOS.Process.Accounts
import BasicOS.Process.UserAllocations
import BasicOS.Isr80h.InvokeSysCommand
import BasicOS.Terminal.Screen
import BasicOS.Loader.Accept
import BasicOS.Process.Image
import BasicOS.Task.CopyString
import BasicOS.Process.Injection
import BasicOS.Process.Lifetimes
import BasicOS.Process.Locality
import BasicOS.Isr80h.CommandFailure
import BasicOS.Isr80h.PrintExt
import BasicOS.Process.Conservation
import BasicOS.Fs.FatTable
import BasicOS.Fs.Clusters
import BasicOS.Fs.RootScan
import BasicOS.Fs.Names
import BasicOS.Task.RoundRobin
import BasicOS.Process.Exit
import BasicOS.Process.ArgumentWalks
import BasicOS.Isr80h.ProgramPath
import BasicOS.Paging.Release
import BasicOS.Fs.Seek
import BasicOS.Disk.Transfer
import BasicOS.Fs.Components
import BasicOS.Fs.PathRelease
import BasicOS.Heap.Validation
import BasicOS.Idt.FaultReport
import BasicOS.Isr80h.Printing
import BasicOS.Terminal.Erase
import BasicOS.Stdlib.ParseCommand
import BasicOS.Process.KernelPages
import BasicOS.Process.Format
import BasicOS.Process.Isolation
import BasicOS.Math.Pow
import BasicOS.Stdlib.Itoa
import BasicOS.Terminal.PrintInt
import BasicOS.Stdlib.Atoi
import BasicOS.Stdlib.Printf
import BasicOS.Stdlib.Readline
import BasicOS.CStringCompare
import BasicOS.Gdt.Unpack
import BasicOS.Loader.Extents
import BasicOS.Process.Loaded
import BasicOS.Process.Programs
import BasicOS.Process.Rights
import BasicOS.Process.Start
import BasicOS.Process.Requests
import BasicOS.Process.Kept
import BasicOS.Fs.Mount
import BasicOS.Kernel.Startup
import BasicOS.Terminal.Sheet
import BasicOS.Isr80h.Message
import BasicOS.Lib.Trap
import BasicOS.Idt.Gates
import BasicOS.Idt.Stubs
import BasicOS.Isr80h.Dispatch
import BasicOS.Stdlib.KernelCalls
import BasicOS.Keyboard.Classic
import BasicOS.Lib.Ata
import BasicOS.Disk.Pio
