import Fluxion.Derivation.Json
import Fluxion.Proofs.Agreement
import Fluxion.Proofs.Binary64.Stable
import Fluxion.Proofs.Blame
import Fluxion.Proofs.Constants
import Fluxion.Proofs.Correct
import Fluxion.Proofs.Faults
import Fluxion.Proofs.Growth
import Fluxion.Proofs.Json.Values
import Fluxion.Proofs.Misplaced
import Fluxion.Proofs.Overrated
import Fluxion.Proofs.Repeated
import Fluxion.Proofs.Reprinted
import Fluxion.Proofs.Spaces
import Fluxion.Proofs.Spelling
import Fluxion.Stack
import Fluxion.Token.Json
import Fluxion.Proofs.Kept
