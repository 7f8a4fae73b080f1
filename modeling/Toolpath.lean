import Toolpath.Bounds
import Toolpath.CommandLine
import Toolpath.Cut.Array
import Toolpath.CutFile
import Toolpath.Main
import Toolpath.Program.Basic
import Toolpath.Settings.File
import Toolpath.Settings.Output
import Toolpath.Proofs.Program.Issued
import Toolpath.Proofs.Program.Carving
import Toolpath.Proofs.Program.SafeTravel
import Toolpath.Proofs.Program.Depth
import Toolpath.Proofs.Decimal.Numeral
import Toolpath.Proofs.Program.Controller
import Toolpath.Proofs.Program.Remark
import Toolpath.Proofs.Program.Lines
import Toolpath.Proofs.Program.Comments
import Toolpath.Proofs.Traversal.Recorded
import Toolpath.Proofs.Geometry.Exact
import Toolpath.Proofs.Measure.Exact
import Toolpath.Proofs.Program.Turn
import Toolpath.Proofs.Cut.Scaled
import Toolpath.Proofs.Traversal.Rescaled
import Toolpath.Proofs.Traversal.NativeUnit
import Toolpath.Proofs.Outline.Circle
import Toolpath.Proofs.Program.Scaled
import Toolpath.Proofs.Program.UnitChange
import Toolpath.Proofs.Program.Joined
import Toolpath.Proofs.Bounds.Coverage
import Toolpath.Proofs.Settings.RoundTrip
import Toolpath.Proofs.Program.Cone
import Toolpath.Proofs.Program.SinglePass
import Toolpath.Proofs.Program.Independent
import Toolpath.Proofs.Program.Arcs
import Toolpath.Proofs.Measure.Wide
import Toolpath.Proofs.Measure.Terms
import Toolpath.Proofs.Program.HoleSize
import Toolpath.Proofs.Program.Ending
import Toolpath.Proofs.Program.RapidHeights
import Toolpath.Proofs.Job.Stock
import Toolpath.Proofs.Outline.WellFormed
import Toolpath.Proofs.Form.Cut
import Toolpath.Proofs.Bounds.Lowest
import Toolpath.Proofs.Traversal.Nesting
import Toolpath.Proofs.Form.Saved
import Toolpath.Proofs.Plan.Taper
import Toolpath.Proofs.Program.Vertices
import Toolpath.Proofs.Settings.Agreement
import Toolpath.Proofs.Plan.Schedule
import Toolpath.Proofs.Measure.Difference
import Toolpath.Proofs.Outline.Swept
import Toolpath.Proofs.Outline.TurnBack
import Toolpath.Proofs.Outline.Fillet
import Toolpath.Proofs.Outline.Rectangle
import Toolpath.Proofs.Outline.Restyled
import Toolpath.Proofs.Outline.Overrun
import Toolpath.Proofs.Cut.GridOrder
import Toolpath.Proofs.Traversal.Repeated
import Toolpath.Proofs.Traversal.UnitScale
import Toolpath.Proofs.Traversal.Merged
import Toolpath.Proofs.Program.Words
