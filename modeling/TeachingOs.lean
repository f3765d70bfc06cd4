import TeachingOs.Basic
import TeachingOs.Lib.Except
import TeachingOs.Lib.RadixTree
import TeachingOs.Mmu.PageTable
import TeachingOs.Mmu.Frame
import TeachingOs.Mmu.Alloc
import TeachingOs.Mmu.Tree
import TeachingOs.Mmu.Denote
import TeachingOs.Mmu.Physmap
import TeachingOs.Mmu.LinkedList
import TeachingOs.Mmu.Rings
import TeachingOs.Mmu.Init
import TeachingOs.Mmu.KernelTree
import TeachingOs.Mmu.WalkPages
import TeachingOs.Mmu.FrameLists
import TeachingOs.Mmu.MemMap
import TeachingOs.Mmu.Walked
import TeachingOs.Mmu.Areas
import TeachingOs.Mmu.SameValid
import TeachingOs.Mmu.Tables
import TeachingOs.Mmu.Image
import TeachingOs.Mmu.Access
import TeachingOs.Mmu.Scrawl
import TeachingOs.Mmu.Gigabyte
import TeachingOs.Mmu.Blank
import TeachingOs.Mmu.Stale
import TeachingOs.Mmu.Rights
import TeachingOs.Lib.DList
import TeachingOs.Lib.History
import TeachingOs.Task.List
import TeachingOs.Task.Move
import TeachingOs.Task.Sched
import TeachingOs.Task.Invariant
import TeachingOs.Task.Preempt
import TeachingOs.Task.Run
import TeachingOs.Task.Queue
import TeachingOs.Task.RoundRobin
import TeachingOs.Task.Lifecycle
import TeachingOs.Task.Points
import TeachingOs.Task.Atomic
import TeachingOs.Task.Levels
import TeachingOs.Task.Window
import TeachingOs.Task.Dispatch
import TeachingOs.Task.Bookkeeping
import TeachingOs.Lib.Probe
import TeachingOs.Irq.Table
import TeachingOs.Irq.Preempt
import TeachingOs.Irq.Rehash
import TeachingOs.Irq.Run
import TeachingOs.Irq.Unregister
import TeachingOs.Irq.Gic
import TeachingOs.Irq.Install
import TeachingOs.Irq.Fire
import TeachingOs.Lib.Transducer
import TeachingOs.Printf.Runner
import TeachingOs.Printf.Text
import TeachingOs.Printf.Step
import TeachingOs.Printf.Compose
import TeachingOs.Printf.Typed
import TeachingOs.Printf.Output
import TeachingOs.Printf.Digits
import TeachingOs.Printf.Field
import TeachingOs.Printf.Directive
import TeachingOs.Printf.Number
import TeachingOs.Lib.Chain
import TeachingOs.Device.List
import TeachingOs.Lib.ByteMem
import TeachingOs.Libc.String
import TeachingOs.Libc.CString
import TeachingOs.Mem.Kzalloc
import TeachingOs.Mem.Blocks
import TeachingOs.Mem.Preempted
import TeachingOs.Arch.Machine
import TeachingOs.Arch.Code
import TeachingOs.Arch.Transparent
import TeachingOs.Arch.NewTask
import TeachingOs.Arch.Bss
import TeachingOs.Fatal.Panic
import TeachingOs.Fatal.Early
import TeachingOs.Lib.Fair
import TeachingOs.Lib.Mmio
import TeachingOs.Lib.Port
import TeachingOs.Lib.BitField
import TeachingOs.Driver.Gpio
import TeachingOs.Driver.Uart
import TeachingOs.Driver.Console
import TeachingOs.Lib.Line
import TeachingOs.Task.Timeslice
import TeachingOs.Driver.Board
import TeachingOs.Driver.Printed
import TeachingOs.Printf.Plain
import TeachingOs.Fatal.Trap
import TeachingOs.Lib.Ticker
import TeachingOs.Irq.Timer
import TeachingOs.Driver.Clocked
import TeachingOs.Driver.Paced
import TeachingOs.Mmu.KernelSpace
import TeachingOs.Mmu.Dump
import TeachingOs.Fatal.Abort
import TeachingOs.Boot.Main
