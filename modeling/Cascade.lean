import Cascade.Main
import Cascade.Precedence
import Cascade.Proofs.Conversion.Cycle
import Cascade.Proofs.Isolation
import Cascade.Proofs.Resolution.Termination
import Cascade.Proofs.Resolution.Reentry
import Cascade.Proofs.Composition
import Cascade.Proofs.ConfigFile
import Cascade.Proofs.Resolution.Bounds
import Cascade.Proofs.Resolution.Documents
import Cascade.Proofs.Resolution.Journals
import Cascade.Proofs.Resolution.PathReference
import Cascade.Proofs.Routes
import Cascade.Proofs.Processors
import Cascade.Proofs.Requests
import Cascade.Proofs.Conversion.OwnForm
import Cascade.Proofs.Conversion.OwnEntry
import Cascade.Proofs.Conversion.OwnPatterns
import Cascade.Proofs.FileNames
import Cascade.Proofs.Package
import Cascade.Proofs.Resolution.ProcessorPatterns
import Cascade.Proofs.Resolution.SoundModules
import Cascade.Proofs.Runs
import Cascade.Proofs.Resolution.References
import Cascade.Proofs.Resolution.Reports
import Cascade.Proofs.Resolution.Leaks
import Cascade.Proofs.FullName
import Cascade.Proofs.Shorthand
import Cascade.Proofs.Resolution.Registration
import Cascade.Proofs.Absence
import Cascade.Proofs.FileOutcome
import Cascade.Proofs.Discovery
import Cascade.Proofs.Confinement.Patterns
import Cascade.Proofs.Confinement.Loading
import Cascade.Proofs.Conversion.Representation
import Cascade.Proofs.SettingsFile
import Cascade.Proofs.Display
import Cascade.Proofs.Reporting
