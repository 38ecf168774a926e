import Typesweep.Main
import Typesweep.Proofs.Checker
import Typesweep.Proofs.Config.Hidden
import Typesweep.Proofs.Config.Inheritance
import Typesweep.Proofs.Config.Members
import Typesweep.Proofs.Config.Moving
import Typesweep.Proofs.Config.Projects
import Typesweep.Proofs.Config.Shorthand
import Typesweep.Proofs.Config.Termination
import Typesweep.Proofs.Diagnostic.Line
import Typesweep.Proofs.Diagnostic.Output
import Typesweep.Proofs.Discovery
import Typesweep.Proofs.Ignore.Callers
import Typesweep.Proofs.Ignore.Precedence
import Typesweep.Proofs.Jsonc.Lines
import Typesweep.Proofs.Jsonc.Stripping
import Typesweep.Proofs.Ownership.Locality
import Typesweep.Proofs.Ownership.Nesting
import Typesweep.Proofs.Path.Display
import Typesweep.Proofs.Path.Folding
import Typesweep.Proofs.Plan.Execution
import Typesweep.Proofs.Report
import Typesweep.Proofs.Schedule.Clock
