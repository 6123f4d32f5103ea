import Breadboard.Json.Printer
import Breadboard.Netlist.Flatten
import Breadboard.Device.Run
import Breadboard.Schedule.Graph
import Breadboard.Schedule.Placement
import Breadboard.Schedule.Basic
import Breadboard.Simulation.Resolve
import Breadboard.Simulation.Settle
import Breadboard.Simulation.Usage
import Breadboard.Demo
import Breadboard.Simulation.Basic
import Breadboard.Simulation.Query
import Breadboard.CommandLine
import Breadboard.Main
import Breadboard.Proofs.Order
import Breadboard.Proofs.Placement
import Breadboard.Proofs.Graph
import Breadboard.Proofs.Blocks
import Breadboard.Proofs.Firing
import Breadboard.Proofs.Cover
import Breadboard.Proofs.Effect
import Breadboard.Proofs.Built
import Breadboard.Proofs.Perform
import Breadboard.Proofs.Wired
import Breadboard.Proofs.Static
import Breadboard.Proofs.Trace
import Breadboard.Proofs.Lockstep
import Breadboard.Proofs.Growth
import Breadboard.Proofs.Binding
import Breadboard.Proofs.Forest
import Breadboard.Proofs.Groups
import Breadboard.Proofs.Connections
import Breadboard.Proofs.Sharing
import Breadboard.Proofs.Once
import Breadboard.Proofs.Tracking
import Breadboard.Proofs.Operations
import Breadboard.Proofs.Reachable
import Breadboard.Proofs.Drivers
import Breadboard.Proofs.Looks
import Breadboard.Proofs.Voices
import Breadboard.Proofs.Blank
import Breadboard.Proofs.Fixpoint
import Breadboard.Proofs.Stable
import Breadboard.Proofs.Bridged
import Breadboard.Proofs.Retrace
import Breadboard.Proofs.Idempotence
import Breadboard.Proofs.Spoken
import Breadboard.Proofs.Twins
import Breadboard.Proofs.Synchronous
import Breadboard.Proofs.Attach
import Breadboard.Proofs.Calm
import Breadboard.Proofs.Carried
import Breadboard.Proofs.Directory
import Breadboard.Proofs.Hierarchy
import Breadboard.Proofs.Loops
import Breadboard.Proofs.Attempts
import Breadboard.Proofs.Widths
import Breadboard.Proofs.Pairing
import Breadboard.Proofs.Sealed
import Breadboard.Proofs.Bare
import Breadboard.Proofs.Marks
import Breadboard.Proofs.Unused
import Breadboard.Proofs.Influence
import Breadboard.Proofs.Sessions
import Breadboard.Proofs.Proper
import Breadboard.Proofs.Ranged
import Breadboard.Proofs.Turning
import Breadboard.Proofs.Adrift
import Breadboard.Proofs.Restart
import Breadboard.Proofs.Roster
import Breadboard.Proofs.Storage
import Breadboard.Proofs.Rebuilding
import Breadboard.Proofs.Exchange
import Breadboard.Proofs.Ranked
import Breadboard.Proofs.Embedded
import Breadboard.Proofs.Renumbered
import Breadboard.Proofs.Tandem
import Breadboard.Proofs.Clean
import Breadboard.Proofs.Reordering
import Breadboard.Proofs.Drawing
import Breadboard.Proofs.Redrawn
import Breadboard.Proofs.Guards
import Breadboard.Proofs.GuardedFlatten
import Breadboard.Proofs.GuardedGraph
import Breadboard.Proofs.GuardedSchedule
import Breadboard.Proofs.Untrapped
import Breadboard.Proofs.Cycles
import Breadboard.Proofs.ClockEdge
import Breadboard.Proofs.Tally
import Breadboard.Proofs.Flushes
import Breadboard.Proofs.SharedBus
import Breadboard.Proofs.Outlets
import Breadboard.Proofs.Declared
import Breadboard.Proofs.LaidBus
import Breadboard.Proofs.BusRank
import Breadboard.Proofs.BusRun
import Breadboard.Proofs.Thinned
import Breadboard.Proofs.OneBlock
import Breadboard.Proofs.Unheard
import Breadboard.Proofs.Outside
import Breadboard.Proofs.Overlay
import Breadboard.Proofs.Onward
import Breadboard.Proofs.Alongside
import Breadboard.Proofs.Overruled
import Breadboard.Proofs.Waits
import Breadboard.Proofs.Dangling
import Breadboard.Proofs.Shift
import Breadboard.Proofs.Fringe
import Breadboard.Proofs.Expanding
import Breadboard.Proofs.Excerpt
import Breadboard.Proofs.Addresses
import Breadboard.Proofs.PortTexts
import Breadboard.Proofs.Unmarked
import Breadboard.Proofs.BusMemory
import Breadboard.Proofs.Ascent
import Breadboard.Proofs.Housed
import Breadboard.Proofs.Sheet
import Breadboard.Proofs.SheetRun
import Breadboard.Proofs.RippleCarry
import Breadboard.Proofs.Counting
