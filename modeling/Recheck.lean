import Recheck.Exchange.Reader
import Recheck.Exchange.Writer
import Recheck.Main
import Recheck.Proofs.Looking
import Recheck.Proofs.Simultaneous
import Recheck.Proofs.Convertible
import Recheck.Proofs.Growth
import Recheck.Proofs.Refusal
import Recheck.Proofs.Locations
import Recheck.Proofs.Workspace.Restoration
import Recheck.Proofs.Numerals
import Recheck.Proofs.LevelProofs
import Recheck.Proofs.Regularity.Equalities
import Recheck.Proofs.Regularity.Instances
import Recheck.Proofs.Coverage
import Recheck.Proofs.Deferral.Resolution
import Recheck.Proofs.Cumulativity
import Recheck.Proofs.Stratification
import Recheck.Proofs.Flatness
