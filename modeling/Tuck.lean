import Tuck.Audit.Tamper
import Tuck.Barrier.Refinement
import Tuck.Cluster.Coherence
import Tuck.Core.Unseal
import Tuck.Policy.GlobLanguage
import Tuck.Core.Lineage
import Tuck.Api.UseLimit
import Tuck.Core.Cubbyhole
import Tuck.Secrets.PathLocks
import Tuck.Secrets.KVv1Races
import Tuck.Wrapping.Runs
import Tuck.Identity.Logins
import Tuck.AppRole.UseLimit
import Tuck.Onboarding.AllOrNothing
import Tuck.Seal.Secrecy
import Tuck.Raft.Backend
import Tuck.Audit.Restart
import Tuck.Audit.Accounting
import Tuck.Csi.Delivery
import Tuck.Api.JoinToken
import Tuck.Audit.Ring
import Tuck.Audit.Stats
import Tuck.Mount.Store
import Tuck.Audit.Rotate
import Tuck.Api.TokenRoles
import Tuck.Gost.Streebog
import Tuck.Audit.Verify
import Tuck.Api.SecretIDs
import Tuck.Core.RoleCounts
import Tuck.Operator.Tracking
import Tuck.Csi.Refresh
import Tuck.Gost.Field
import Tuck.Onboarding.RoleNames
