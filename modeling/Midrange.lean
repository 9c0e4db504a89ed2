import Midrange.Main
import Midrange.Proofs.Graph.Reach
import Midrange.Proofs.Graph.Neighbours
import Midrange.Proofs.Graph.DepthFirst
import Midrange.Proofs.Graph.Component
import Midrange.Proofs.Graph.Recursion
import Midrange.Proofs.Depth.Stretch
import Midrange.Proofs.Depth.Path
import Midrange.Proofs.Depth.Survey
import Midrange.Proofs.Depth.Routines
import Midrange.Proofs.Depth.Agenda
import Midrange.Proofs.Depth.Arrival
import Midrange.Proofs.Depth.Nesting
import Midrange.Proofs.Depth.Search
import Midrange.Proofs.Depth.Run
import Midrange.Proofs.Depth.Termination
import Midrange.Proofs.Depth.LongestPath
import Midrange.Proofs.Depth.Coverage
import Midrange.Proofs.Depth.Limit
import Midrange.Proofs.Depth.Schedule
import Midrange.Proofs.Symbols.Names
import Midrange.Proofs.Depth.CallChain
import Midrange.Proofs.Graph.Renaming
import Midrange.Proofs.Depth.CallOrder
import Midrange.Proofs.Depth.Renaming
import Midrange.Proofs.Depth.Lockstep
import Midrange.Proofs.Depth.Labels
import Midrange.Proofs.Instruction.Encoding
import Midrange.Proofs.Instruction.Tracking
import Midrange.Proofs.Depth.Overrun
import Midrange.Proofs.Depth.SeedDepth
import Midrange.Proofs.Depth.Alike
import Midrange.Proofs.Depth.Relabelling
import Midrange.Proofs.Depth.Footprint
import Midrange.Proofs.Depth.Links
import Midrange.Proofs.Depth.ShownLinks
import Midrange.Proofs.Image.Record
import Midrange.Proofs.Image.Bytes
import Midrange.Proofs.Image.HexFile
import Midrange.Proofs.Image.HexReading
import Midrange.Proofs.Image.Words
import Midrange.Proofs.Text.Lines
import Midrange.Proofs.Image.Writing
import Midrange.Proofs.Image.Loading
import Midrange.Proofs.Symbols.History
import Midrange.Proofs.Image.Placed
import Midrange.Proofs.Sweep
import Midrange.Proofs.Listing.Annotation
import Midrange.Proofs.Listing.Definitions
import Midrange.Proofs.Image.Memory
import Midrange.Proofs.Listing.Reading
import Midrange.Proofs.CommandLine.Status
import Midrange.Proofs.Depth.AgendaHistory
import Midrange.Proofs.Depth.Passage
import Midrange.Proofs.Hints.Grammar
import Midrange.Proofs.Hints.Loading
import Midrange.Proofs.Depth.Removal
import Midrange.Proofs.Hints.Notices
import Midrange.Proofs.Instruction.Rendering
import Midrange.Proofs.Sweep.Census
import Midrange.Proofs.Image.Corruption
import Midrange.Proofs.Graph.BackLinks
import Midrange.Proofs.Graph.Drawing
import Midrange.Proofs.Text.Digits
import Midrange.Proofs.Text.Numeral
import Midrange.Proofs.CommandLine.Ranges
import Midrange.Proofs.Graph.Group
import Midrange.Proofs.Instruction.Range
