import Xbsv.Bits.CInt
import Xbsv.Bits.Rounds
import Xbsv.Bits.Words
import Xbsv.Dma.AddrServer
import Xbsv.Dma.Arbiter
import Xbsv.Dma.Burst
import Xbsv.Dma.FrontEnd
import Xbsv.Dma.Isolation
import Xbsv.Dma.MemRead
import Xbsv.Dma.MemServer
import Xbsv.Dma.MemTypes
import Xbsv.Dma.MemWrite
import Xbsv.Dma.PointerCheck
import Xbsv.Dma.ReadRouting
import Xbsv.Dma.RejectedConfig
import Xbsv.Dma.RejectedWrites
import Xbsv.Dma.SGList
import Xbsv.Dma.SGListPipeline
import Xbsv.Dma.SendFd
import Xbsv.Dma.SharedTranslation
import Xbsv.Dma.TagCounts
import Xbsv.Dma.TagGen
import Xbsv.Dma.TagRenaming
import Xbsv.Dma.Translation
import Xbsv.Dma.UnmappedAccess
import Xbsv.Dma.WriteRouting
import Xbsv.Engine.BramFifos
import Xbsv.Engine.BurstFlights
import Xbsv.Engine.BurstFunnel
import Xbsv.Engine.BurstOrder
import Xbsv.Engine.Command
import Xbsv.Engine.Ledger
import Xbsv.Engine.Loader
import Xbsv.Engine.LoaderProgress
import Xbsv.Engine.MemreadEngine
import Xbsv.Engine.MemwriteEngine
import Xbsv.Engine.Pipe
import Xbsv.Engine.ReadCredits
import Xbsv.Engine.ReadDelivery
import Xbsv.Engine.ReadProgress
import Xbsv.Engine.ServerIndex
import Xbsv.Engine.WriteBursts
import Xbsv.Engine.WriteCredits
import Xbsv.Pcie.Arbitration
import Xbsv.Pcie.Completions
import Xbsv.Pcie.DensePackets
import Xbsv.Pcie.Dispatching
import Xbsv.Pcie.Gearbox
import Xbsv.Pcie.GearboxLoopback
import Xbsv.Pcie.Interrupts
import Xbsv.Pcie.MemMasterEngine
import Xbsv.Pcie.MemSlaveEngine
import Xbsv.Pcie.Mifo
import Xbsv.Pcie.PioRequests
import Xbsv.Pcie.ReadCompletions
import Xbsv.Pcie.Splitter
import Xbsv.Pcie.Tlp
import Xbsv.Pcie.WriteBeats
import Xbsv.Pcie.WritePackets
import Xbsv.Portal.Adapter
import Xbsv.Portal.AddressGenerator
import Xbsv.Portal.CppGen
import Xbsv.Portal.CtrlMux
import Xbsv.Portal.Duals
import Xbsv.Portal.Floats
import Xbsv.Portal.Indications
import Xbsv.Portal.Layout
import Xbsv.Portal.Marshalling
import Xbsv.Portal.MappedPages
import Xbsv.Portal.MemPortal
import Xbsv.Portal.Neighbours
import Xbsv.Portal.Packing
import Xbsv.Portal.PageReads
import Xbsv.Portal.PageWrites
import Xbsv.Portal.Proxy
import Xbsv.Portal.Types
import Xbsv.Portal.UnmappedPages
import Xbsv.Portal.Widths
import Xbsv.Portal.Wrapper
import Xbsv.Rules.Drain
import Xbsv.Rules.Fifo
import Xbsv.Rules.Lanes
import Xbsv.Rules.Net
import Xbsv.Rules.Server
import Xbsv.Rules.System
import Xbsv.Loops.While
import Xbsv.Search.MP
import Xbsv.Rules.Ends
import Xbsv.Rules.Epochs
import Xbsv.Search.MemReader
import Xbsv.Search.Dma2BRAM
import Xbsv.Search.MPEngine
import Xbsv.Search.Scanning
import Xbsv.Search.Agreement
import Xbsv.Loops.Checked
import Xbsv.Strings.Restart
import Xbsv.Search.Borders
import Xbsv.Dma.Handshake
import Xbsv.Portal.Poller
import Xbsv.Portal.Preprocess
import Xbsv.Portalmem.Allocator
import Xbsv.Portalmem.Cleanup
import Xbsv.Portalmem.Mmap
import Xbsv.Portalmem.VmaAccess
import Xbsv.Search.SoftwareSearch
import Xbsv.Dma.ReaderBuff
import Xbsv.Cores.BlueScope
import Xbsv.Cores.Bram
import Xbsv.Cores.BramMux
import Xbsv.Cores.PipeMul
import Xbsv.Cores.RingBuffer
import Xbsv.Cores.StackReg
import Xbsv.Dma.AxiMaster
import Xbsv.Dma.WriterBuff
import Xbsv.Dma2BRAM.ReadClient
import Xbsv.Engine.SingleBeats
import Xbsv.Pcie.MemInterrupt
import Xbsv.Portal.Directory
import Xbsv.Dma2BRAM.WriteClient
import Xbsv.Dma2BRAM.WriteProgress
import Xbsv.Engine.FifoBank
import Xbsv.Pipe.Fimo
import Xbsv.Pipe.FirstLast
import Xbsv.Pipe.MifoRuns
import Xbsv.Pipe.StaticFunnel
import Xbsv.Pipe.FunnelTree
import Xbsv.Pipe.RoundRobin
import Xbsv.Rules.Routes
import Xbsv.Noc.SerialFIFO
import Xbsv.Noc.NocNode
import Xbsv.Noc.Delivery
import Xbsv.Noc.Line
import Xbsv.Noc.Mesh
import Xbsv.Cores.FibMachine
import Xbsv.Cores.FibWide
import Xbsv.Cores.Fib
import Xbsv.Rules.Parts
import Xbsv.Stores.Replay
import Xbsv.Stores.Placed
import Xbsv.Dma.Placement
import Xbsv.Dma.SharedUnit
import Xbsv.Dma.Ram
import Xbsv.Dma.ObjectMemory
import Xbsv.Engine.ObjectStore
import Xbsv.Memcpy.Memcpy
import Xbsv.Memcpy.CopyJob
import Xbsv.Memcpy.Copies
import Xbsv.Fsm.Statement
import Xbsv.Strings.Lcs
import Xbsv.Strings.Mcs
import Xbsv.Strings.HirschA
import Xbsv.Strings.HirschB
import Xbsv.Portal.Flowcontrol
import Xbsv.Rules.Chain
import Xbsv.Serial.SpiTap
import Xbsv.Serial.Serialconfig
