import ItchOrderBook.Ref.L3OrderTable
import ItchOrderBook.Lib.Tally
import ItchOrderBook.Book.Orders
import ItchOrderBook.Ref.Bbo
import ItchOrderBook.Ref.Book
import ItchOrderBook.Book.OrderStore
import ItchOrderBook.Book.PriceStore
import ItchOrderBook.Book.Half
import ItchOrderBook.Book.Invariant
import ItchOrderBook.Book.Runs
import ItchOrderBook.Framing.Delivery
import ItchOrderBook.Book.Refusals
import ItchOrderBook.Lib.Clocked
import ItchOrderBook.Rtl.MoldUdp64Parser
import ItchOrderBook.Framing.Beats
import ItchOrderBook.Framing.Payload
import ItchOrderBook.Framing.Header
import ItchOrderBook.Framing.Agreement
import ItchOrderBook.Framing.BadHeader
import ItchOrderBook.Ref.ItchParser
import ItchOrderBook.Rtl.Definitions
import ItchOrderBook.Rtl.ItchParser
import ItchOrderBook.Decode.Outputs
import ItchOrderBook.Decode.Line
import ItchOrderBook.Decode.Message
import ItchOrderBook.Decode.Cases
import ItchOrderBook.Decode.Reference
import ItchOrderBook.Decode.Packets
import ItchOrderBook.Decode.Verdict
import ItchOrderBook.Decode.Chain
import ItchOrderBook.Decode.Valid
import ItchOrderBook.Book.Capacity
import ItchOrderBook.Ref.Control
import ItchOrderBook.Rtl.Control
import ItchOrderBook.Session.InStep
import ItchOrderBook.Session.Locates
import ItchOrderBook.Session.Packets
import ItchOrderBook.Pipeline.HalfStep
import ItchOrderBook.Rtl.L2PriceTable
import ItchOrderBook.Lib.Sweep
import ItchOrderBook.Tables.Readiness
import ItchOrderBook.Decode.Timing
import ItchOrderBook.Rtl.Book
import ItchOrderBook.Rtl.Top
import ItchOrderBook.Decode.Clearance
import ItchOrderBook.Gating.Gates
import ItchOrderBook.Gating.Flow
import ItchOrderBook.Gating.Stream
import ItchOrderBook.OrderTable.Messages
import ItchOrderBook.OrderTable.Schedules
import ItchOrderBook.Pipeline.Levels
import ItchOrderBook.Pipeline.Search
import ItchOrderBook.Pipeline.Shown
import ItchOrderBook.Pipeline.Refill
import ItchOrderBook.Pipeline.Messages
import ItchOrderBook.Pipeline.Runs
import ItchOrderBook.Pipeline.Startup
import ItchOrderBook.Decode.Chunks
import ItchOrderBook.Ref.PktGen
import ItchOrderBook.Decode.RoundTrip
import ItchOrderBook.Framing.Transport
import ItchOrderBook.Framing.Generator
import ItchOrderBook.Book.OrderMemory
import ItchOrderBook.Book.PriceMemory
import ItchOrderBook.OrderTable.Bypass
import ItchOrderBook.Pipeline.Copies
import ItchOrderBook.Pipeline.Reported
import ItchOrderBook.Pipeline.OrderStage
import ItchOrderBook.Pipeline.Served
import ItchOrderBook.System.Messages
import ItchOrderBook.System.Admission
import ItchOrderBook.System.Loops
import ItchOrderBook.Sim.AxisDriver
import ItchOrderBook.Sim.TestBench
import ItchOrderBook.System.Accepted
import ItchOrderBook.System.Sessions
import ItchOrderBook.System.Located
import ItchOrderBook.System.Handover
import ItchOrderBook.System.Monitor
import ItchOrderBook.System.Startup
import ItchOrderBook.System.Refinement
import ItchOrderBook.Lib.Grouping
import ItchOrderBook.Ref.Consistency
import ItchOrderBook.Book.Consistency
import ItchOrderBook.System.Lockstep
import ItchOrderBook.System.FullPipeline
import ItchOrderBook.System.CoSimulation
import ItchOrderBook.System.Latency
import ItchOrderBook.System.Filter
import ItchOrderBook.Lib.Scoreboard
import ItchOrderBook.Lib.Sequenced
import ItchOrderBook.Lib.Latest
import ItchOrderBook.System.Network
import ItchOrderBook.System.Trading
