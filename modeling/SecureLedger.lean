import SecureLedger.Authorization
import SecureLedger.FailedMutation
import SecureLedger.AuditStatus
import SecureLedger.Deletion
import SecureLedger.Refinement
import SecureLedger.AuditQuery
import SecureLedger.Paging
import SecureLedger.Timestamps
import SecureLedger.TokenLifetime
import SecureLedger.Validation
import SecureLedger.Probes
import SecureLedger.Service
import SecureLedger.Serializable
import SecureLedger.Lives
import SecureLedger.Shutdown
import SecureLedger.Config
import SecureLedger.Checklist.Faithful
import SecureLedger.Checklist.Agreement
import SecureLedger.Checklist.Severities
import SecureLedger.Checklist.NotApplicable
import SecureLedger.Checklist.Importers
