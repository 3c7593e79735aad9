import Librfn.Logic.Program
import Librfn.Logic.Transition
import Librfn.Logic.Confluence
import Librfn.Logic.Relational
import Librfn.Logic.Switch
import Librfn.Logic.Resumable
import Librfn.Logic.Cyclic
import Librfn.Logic.Sorted
import Librfn.Ringbuf
import Librfn.Ringbuf.Interleaving
import Librfn.Logic.Flags
import Librfn.Messageq
import Librfn.Messageq.Messages
import Librfn.Messageq.Refinement
import Librfn.Messageq.Interleaving
import Librfn.LinkedList
import Librfn.LinkedList.Sequence
import Librfn.LinkedList.Operations
import Librfn.LinkedList.Refinement
import Librfn.LinkedList.Sorting
import Librfn.Fibre
import Librfn.Fibre.Queues
import Librfn.Fibre.Refinement
import Librfn.Fibre.Pass
import Librfn.Fibre.Fuel
import Librfn.Fibre.System
import Librfn.Fibre.Safety
import Librfn.Fibre.AtomicOrder
import Librfn.Fibre.Timers
import Librfn.Fibre.TimerQueue
import Librfn.Fibre.Requests
import Librfn.Fibre.Wakeups
import Librfn.Fibre.Delivery
import Librfn.Fibre.Eventq
import Librfn.Fibre.Calls
import Librfn.Fibre.Timeouts
import Librfn.Fibre.Kill
import Librfn.Fibre.Turns
import Librfn.Fibre.Replies
import Librfn.Fibre.Sleep
import Librfn.Fibre.MainLoop
import Librfn.Fibre.Api
import Librfn.Fibre.Agreement
import Librfn.Fibre.Slots
import Librfn.Fibre.Nesting
import Librfn.Fibre.FastPath
import Librfn.Fibre.Marks
import Librfn.Bintree
import Librfn.Bintree.Tree
import Librfn.Bintree.Morris
import Librfn.Bintree.Iteration
import Librfn.Bintree.PostOrder
import Librfn.Bintree.Free
import Librfn.Bintree.ListIteration
import Librfn.Ringbuf.Contents
import Librfn.Ringbuf.Preempted
import Librfn.Logic.CString
import Librfn.Console
import Librfn.Console.Register
import Librfn.Console.Tokenizer
import Librfn.Console.CommandTable
import Librfn.Console.Arguments
import Librfn.Console.Words
import Librfn.Console.Quoting
import Librfn.Console.Editor
import Librfn.Console.LineEditing
import Librfn.Console.Schedules
import Librfn.Console.Process
import Librfn.Console.Bounds
import Librfn.Console.Eval
import Librfn.Protothreads
import Librfn.Protothreads.Coroutine
import Librfn.Protothreads.Sequential
import Librfn.Console.Help
import Librfn.Console.HelpRuns
import Librfn.Console.Threaded
import Librfn.Console.Output
import Librfn.Console.Cdcacm
import Librfn.Console.CdcacmRuns
import Librfn.Console.CdcacmFibres
import Librfn.Console.Uart
import Librfn.Logic.Bytes
import Librfn.Pack
import Librfn.Pack.Items
import Librfn.Wavheader
import Librfn.Wavheader.Layout
import Librfn.Wavheader.RoundTrip
import Librfn.Wavheader.Truncation
import Librfn.Wavheader.Riff
import Librfn.Wavheader.Generated
import Librfn.Wavheader.Leftovers
import Librfn.Wavheader.Text
import Librfn.Hex
import Librfn.Hex.RoundTrip
import Librfn.Hex.Lines
import Librfn.Hex.Reads
import Librfn.Mlog
import Librfn.Rotenc
import Librfn.Rotenc.Quadrature
import Librfn.Rotenc.Detours
import Librfn.Rotenc.Count14
import Librfn.Mlog.Recent
import Librfn.Rgb
import Librfn.Rgb.Fade
import Librfn.Rand
import Librfn.Rand.ParkMiller
import Librfn.Logic.Counting
import Librfn.Ratelimit
import Librfn.Ratelimit.Windows
import Librfn.Logic.Digits
import Librfn.Bitops
import Librfn.Bitops.Reference
import Librfn.Regdump
import Librfn.Regdump.Lines
import Librfn.ConsoleRing
import Librfn.ConsoleRing.Lines
import Librfn.Logic.Extrema
import Librfn.Stats
import Librfn.Stats.Samples
import Librfn.Logic.Blocks
import Librfn.Logic.Escaping
import Librfn.Bintree.Graphviz
import Librfn.Bintree.Escape
import Librfn.Bintree.Graphs
import Librfn.Bintree.ReadBack
import Librfn.Bintree.Visualize
