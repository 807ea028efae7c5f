import GrantPath.Background
import GrantPath.Main
import GrantPath.Proofs.Accounting
import GrantPath.Proofs.BoundedStore
import GrantPath.Proofs.CallDiscipline
import GrantPath.Proofs.DepthBound
import GrantPath.Proofs.Expansions
import GrantPath.Proofs.FailingGroups
import GrantPath.Proofs.FailingSearches
import GrantPath.Proofs.Faults
import GrantPath.Proofs.Interference
import GrantPath.Proofs.Listings
import GrantPath.Proofs.LiveDecisions
import GrantPath.Proofs.LookUps
import GrantPath.Proofs.NamedQueries
import GrantPath.Proofs.Nesting
import GrantPath.Proofs.OnePrincipal
import GrantPath.Proofs.PlainSearch
import GrantPath.Proofs.Provenance
import GrantPath.Proofs.Repetition
import GrantPath.Proofs.Revocation
import GrantPath.Proofs.SameKey
import GrantPath.Proofs.Settings
import GrantPath.Proofs.Survival
import GrantPath.Proofs.Targets
import GrantPath.Proofs.TimedMap
import GrantPath.Proofs.Warming
import GrantPath.Rehearsal
