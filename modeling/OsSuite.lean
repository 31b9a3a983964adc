import OsSuite.Lib.Prog
import OsSuite.Lib.Sure
import OsSuite.Lib.Trace
import OsSuite.Lib.Simulation
import OsSuite.Lib.Table
import OsSuite.Lib.Turns
import OsSuite.Lib.Watch
import OsSuite.Lib.Writes
import OsSuite.Lib.Ring
import OsSuite.Lib.Sole
import OsSuite.Lib.Numeral
import OsSuite.Lib.CString
import OsSuite.Xv6.Riscv
import OsSuite.Xv6.Fs
import OsSuite.Xv6.SwapName
import OsSuite.Xv6.Elf
import OsSuite.Xv6.Files
import OsSuite.Xv6.Kalloc
import OsSuite.Xv6.PageTable
import OsSuite.Xv6.PageTree
import OsSuite.Xv6.PageTableInv
import OsSuite.Xv6.PageTableSpec
import OsSuite.Xv6.PageTableFree
import OsSuite.Xv6.PageTableLife
import OsSuite.Xv6.PageMap
import OsSuite.Xv6.Grants
import OsSuite.Xv6.Proc
import OsSuite.Xv6.Fault
import OsSuite.Xv6.FailedFault
import OsSuite.Xv6.ForkCopy
import OsSuite.Xv6.Exec
import OsSuite.Xv6.Image
import OsSuite.Xv6.Args
import OsSuite.Xv6.Segments
import OsSuite.Xv6.Eager
import OsSuite.Xv6.Kernel
import OsSuite.Xv6.Quiet
import OsSuite.Xv6.ExecSpec
import OsSuite.Xv6.Run
import OsSuite.Xv6.FailedExec
import OsSuite.Xv6.Tables
import OsSuite.Xv6.Space
import OsSuite.Xv6.Paging
import OsSuite.Xv6.UserMem
import OsSuite.Xv6.UserCopy
import OsSuite.Xv6.ByteCopy
import OsSuite.Xv6.Sbrk
import OsSuite.Xv6.Memstat
import OsSuite.Xv6.Lazy
import OsSuite.Xv6.Settle
import OsSuite.Xv6.Started
import OsSuite.Xv6.Steps
import OsSuite.Xv6.CopyStr
import OsSuite.Xv6.FaultIn
import OsSuite.Xv6.CopyStore
import OsSuite.Xv6.SwapSlots
import OsSuite.Xv6.Fifo
import OsSuite.Xv6.SwapFiles
import OsSuite.Xv6.SwapDisk
import OsSuite.Xv6.Log
import OsSuite.Xv6.Blocks
import OsSuite.Xv6.LogWedge
import OsSuite.Xv6.LogSpace
import OsSuite.Xv6.LogDisk
import OsSuite.Xv6.Volume
import OsSuite.Xv6.Disk
import OsSuite.Xv6.BlockLocks
import OsSuite.Xv6.Reentry
import OsSuite.Xv6.Uses
import OsSuite.Xv6.SelfWait
import OsSuite.Xv6.Spin
import OsSuite.Xv6.SpinRules
import OsSuite.Xv6.FaultSleep
import OsSuite.Xv6.Kill
import OsSuite.Xv6.Pipe
import OsSuite.Xv6.Inodes
import OsSuite.Xv6.Life
import OsSuite.Xv6.Discipline
import OsSuite.Xv6.Refs
import OsSuite.Xv6.RefSteps
import OsSuite.Xv6.RefCounts
import OsSuite.Xv6.SleepLock
import OsSuite.Xv6.Bcache
import OsSuite.Bakery.Shop
import OsSuite.Bakery.Places
import OsSuite.Bakery.Line
import OsSuite.Bakery.Day
import OsSuite.Bakery.Hall
import OsSuite.Bakery.Standing
import OsSuite.Bakery.Seats
import OsSuite.Bakery.Service
import OsSuite.Lib.Decode
import OsSuite.Sniffer.Headers
import OsSuite.Sniffer.Bounds
import OsSuite.Sniffer.Session
import OsSuite.Sniffer.Layers
import OsSuite.Sniffer.Selection
import OsSuite.Sniffer.HexDump
