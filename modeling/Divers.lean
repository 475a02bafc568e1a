import Divers.Library.Transition
import Divers.Library.RoundUp
import Divers.Library.ByteMemory
import Divers.Library.Window
import Divers.Library.Arena
import Divers.Library.AddressSpace
import Divers.Library.I386
import Divers.Library.IdStack
import Divers.Library.LinkedPath
import Divers.Library.StableInsert
import Divers.Library.RangeSum
import Divers.Library.RcHeap
import Divers.Library.Ancestors
import Divers.Library.HandleLog
import Divers.Library.Ownership
import Divers.Library.Chunks
import Divers.Library.Loop
import Divers.Library.TableSearch
import Divers.Library.CString
import Divers.Library.Reading
import Divers.Library.Elf
import Divers.Library.TextInput
import Divers.Library.Utf8
import Divers.HeapPool.Model
import Divers.HeapPool.Layout
import Divers.HeapPool.Create
import Divers.HeapPool.Sizes
import Divers.HeapPool.Bounds
import Divers.HeapPool.Refine
import Divers.HeapPool.Run
import Divers.HeapPool.Mapping
import Divers.HeapPool.Sharing
import Divers.HeapPool.Lifo
import Divers.HeapPool.Overflow
import Divers.HeapPool.Alignment
import Divers.HeapPool.Frame
import Divers.HeapPool.Pools
import Divers.DoubleBuffering.Model
import Divers.DoubleBuffering.Steps
import Divers.DoubleBuffering.Reader
import Divers.DoubleBuffering.FirstCall
import Divers.DoubleBuffering.Exclusion
import Divers.DoubleBuffering.Contents
import Divers.DoubleBuffering.Progress
import Divers.DoubleBuffering.Measure
import Divers.DoubleBuffering.Outstanding
import Divers.DoubleBuffering.Stuck
import Divers.DoubleBuffering.Coverage
import Divers.DoubleBuffering.Output
import Divers.DoubleBuffering.Opening
import Divers.DoubleBuffering.Failures
import Divers.DoubleBuffering.Shutdown
import Divers.Tad.NTree
import Divers.Tad.NTreeForest
import Divers.Tad.NTreeAncestor
import Divers.Tad.SList
import Divers.Tad.ChildList
import Divers.Tad.InsertOrder
import Divers.Tad.Removal
import Divers.Tad.Refine
import Divers.IoLoop.Model
import Divers.IoLoop.Registry
import Divers.IoLoop.MainLoop
import Divers.IoLoop.Agreement
import Divers.IoLoop.Reuse
import Divers.IoLoop.Reentrancy
import Divers.IoLoop.HeapBalance
import Divers.IoLoop.Exit
import Divers.SmallRustTree.Model
import Divers.SmallRustTree.Links
import Divers.SmallRustTree.Parents
import Divers.SmallRustTree.Forest
import Divers.SmallRustTree.Leaks
import Divers.ModRefcnt.Model
import Divers.ModRefcnt.Run
import Divers.HeapLooker.Model
import Divers.HeapLooker.Replay
import Divers.GotModifier.ObjParser
import Divers.GotModifier.Relocations
import Divers.GotModifier.Segments
import Divers.GotModifier.Dynsym
import Divers.DslElf.Sections
import Divers.DslElf.ExternalSyms
import Divers.NfqueueExample.Model
import Divers.NfqueueExample.CorruptPacket
import Divers.NfqueueExample.NewPacket
import Divers.NfqueueExample.Decision
import Divers.DslElf.Maps
import Divers.DslElf.SearchDso
import Divers.DslElf.Main
import Divers.GotModifier.Injector
import Divers.GotModifier.WordRounds
import Divers.GotModifier.MapParser
import Divers.GotModifier.Patching
import Divers.GotModifier.ProcNames
import Divers.GotModifier.Shellcode
import Divers.GotModifier.Injection
import Divers.SymResolver.Model
import Divers.SymResolver.Lookup
import Divers.SymResolver.Results
import Divers.SymResolver.Reads
import Divers.SymResolver.Mapping
import Divers.SymResolver.Lifecycle
import Divers.Dso.Model
import Divers.Dso.Run
