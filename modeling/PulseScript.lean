import PulseScript.Stored.Circuit
import PulseScript.Stored.Device
import PulseScript.Script.Writer
import PulseScript.Proofs.Words
import PulseScript.Proofs.ContextText
import PulseScript.Proofs.Couplers
import PulseScript.Proofs.SameCouplers
import PulseScript.Proofs.Layout
import PulseScript.Proofs.SequentialLabels
import PulseScript.Proofs.Construction
import PulseScript.Proofs.Parts
import PulseScript.Proofs.Domain
import PulseScript.Proofs.Reading
import PulseScript.Proofs.Assembling
import PulseScript.Proofs.MomentText
import PulseScript.Proofs.Values
import PulseScript.Proofs.Equality
import PulseScript.Proofs.Placement
import PulseScript.Proofs.Scheduling
import PulseScript.Proofs.Returning
import PulseScript.Proofs.RoundTrip
import PulseScript.Proofs.Statements
import PulseScript.Proofs.Causes
import PulseScript.Proofs.LineNumbers
import PulseScript.Proofs.Recompile
import PulseScript.Proofs.Calls
import PulseScript.Proofs.Unrolling
import PulseScript.Proofs.ProgramOrder
import PulseScript.Proofs.Segments
import PulseScript.Proofs.Filtering
import PulseScript.Proofs.SilentLines
import PulseScript.Proofs.TextLayout
import PulseScript.Proofs.BlockText
import PulseScript.Proofs.Prescan
import PulseScript.Proofs.ValidDevices
import PulseScript.Proofs.MomentLines
import PulseScript.Proofs.Barriers
import PulseScript.Proofs.Rearranging
import PulseScript.Proofs.Stripping
import PulseScript.Proofs.Appending
import PulseScript.Proofs.Concatenation
import PulseScript.Proofs.Writing
import PulseScript.Proofs.Loading
import PulseScript.Proofs.DeviceScripts
import PulseScript.Proofs.MomentShape
import PulseScript.Proofs.Renaming
import PulseScript.Proofs.Rounding
import PulseScript.Proofs.ExactArithmetic
import PulseScript.Proofs.IdleTimes
import PulseScript.Proofs.PulseTrains
import PulseScript.Proofs.LinePlaces
import PulseScript.Proofs.Lexing
import PulseScript.Proofs.Stretches
import PulseScript.Proofs.Instructions
import PulseScript.Proofs.LineEnds
import PulseScript.Proofs.SymbolicAngles
