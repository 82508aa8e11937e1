import Offside.Main
import Offside.Proofs.Ending
import Offside.Proofs.Buffer
import Offside.Proofs.Identifiers
import Offside.Proofs.Shadowing
import Offside.Proofs.Tests
import Offside.Proofs.OneReport
import Offside.Proofs.Declarations
import Offside.Proofs.LineEndings
import Offside.Proofs.Fitting
import Offside.Proofs.Joining
import Offside.Proofs.Homogeneity
import Offside.Proofs.LineSeparators
import Offside.Proofs.ReadBack
import Offside.Proofs.Chains
import Offside.Proofs.Citations
import Offside.Proofs.LineTexts
import Offside.Proofs.Isolation
import Offside.Proofs.TestRuns
