import CompTech.Lib.Run
import CompTech.Lib.Tables
import CompTech.Lib.RoundUp
import CompTech.BitArray.Model
import CompTech.BitArray.Single
import CompTech.BitArray.Region
import CompTech.BitArray.Loads
import CompTech.BitArray.Runs
import CompTech.Lib.Tiling
import CompTech.Network.Divide
import CompTech.Network.Slices
import CompTech.Lib.Ring
import CompTech.Select.Relay
import CompTech.Select.Wiring
import CompTech.Lib.Handover
import CompTech.Lib.SysV
import CompTech.Select.Fidelity
import CompTech.Sharmem.Model
import CompTech.Sharmem.Phases
import CompTech.Sharmem.Steps
import CompTech.Sharmem.Accounts
import CompTech.Sharmem.Clean
import CompTech.Sharmem.Data
import CompTech.Sharmem.Transfer
import CompTech.Sharmem.Delivery
import CompTech.Sharmem.Lockstep
import CompTech.Sharmem.Progress
import CompTech.Integral.Partition
import CompTech.BitArray.Indices
import CompTech.BitArray.Growth
import CompTech.Network.Lifetime
import CompTech.Network.Sockets
import CompTech.Queue.Model
import CompTech.Queue.Order
import CompTech.Signal.Model
import CompTech.Signal.Transfer
import CompTech.Fifo.Rendezvous
import CompTech.Select.Chain
import CompTech.Select.Ending
import CompTech.Lib.Channel
import CompTech.Network.Handlers
import CompTech.Network.Collect
import CompTech.BitArray.Touched
import CompTech.Lib.First
import CompTech.BitArray.Find
import CompTech.BitArray.OutOfRange
import CompTech.BitArray.Capacity
import CompTech.Select.Updates
import CompTech.Lib.Loop
import CompTech.Network.Trapezoid
import CompTech.Lib.CInt
import CompTech.Lib.Strtol
import CompTech.Lib.Natural
import CompTech.Config.ProcessCount
import CompTech.TestTask.Copy
import CompTech.TestTask.PipeCopy
import CompTech.Lib.CacheLine
import CompTech.Network.Layout
import CompTech.Integral.Layout
import CompTech.Network.CpuInfo
import CompTech.Network.Growing
import CompTech.Network.Cores
import CompTech.Lib.RoundRobin
import CompTech.Network.CoreIds
import CompTech.Network.Pinning
import CompTech.Network.Counts
import CompTech.Lib.Service
import CompTech.Lib.BitVector
import CompTech.BitArray.Vector
import CompTech.BitArray.Plain
import CompTech.Network.Result
import CompTech.Network.Distributed
import CompTech.Integral.Value
import CompTech.Signal.Ending
import CompTech.Queue.Ending
import CompTech.Fifo.Link
import CompTech.Fifo.Feeding
import CompTech.Fifo.Arrival
import CompTech.Lib.Printer
import CompTech.BitArray.Dump
import CompTech.Sharmem.Next
import CompTech.Sharmem.Whole
import CompTech.Sharmem.Removed
import CompTech.Network.Discovery
import CompTech.Network.Turnout
import CompTech.TestTask.Forks
