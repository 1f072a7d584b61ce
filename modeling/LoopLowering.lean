import LoopLowering.Dialect
import LoopLowering.Options.Text
import LoopLowering.Program
import LoopLowering.Tree.Grammar
import LoopLowering.Proofs.Captures
import LoopLowering.Proofs.Dispatch
import LoopLowering.Proofs.LoopFree
import LoopLowering.Proofs.Resolution
import LoopLowering.Proofs.WriteBack
import LoopLowering.Proofs.Openings
import LoopLowering.Proofs.Termination
import LoopLowering.Proofs.Occurrences
import LoopLowering.Proofs.Writes
import LoopLowering.Proofs.Enclosing
import LoopLowering.Proofs.Hygiene
import LoopLowering.Proofs.Destinations
import LoopLowering.Proofs.FreeNames
import LoopLowering.Proofs.Sightings
import LoopLowering.Proofs.BodyVars
import LoopLowering.Proofs.InPlace
import LoopLowering.Proofs.FreshStart
import LoopLowering.Proofs.Requests
import LoopLowering.Proofs.Reassembly
import LoopLowering.Proofs.Declarations
import LoopLowering.Proofs.References
import LoopLowering.Proofs.LoopFunction
