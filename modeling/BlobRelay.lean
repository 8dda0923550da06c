import BlobRelay.Foundation.OrderedMap
import BlobRelay.Foundation.Run
import BlobRelay.Foundation.Pool
import BlobRelay.Foundation.Mutex
import BlobRelay.Foundation.FileStore
import BlobRelay.Foundation.CompareExchange
import BlobRelay.Foundation.Chunks
import BlobRelay.Foundation.SetAction
import BlobRelay.Foundation.WorkList
import BlobRelay.Foundation.Repetition
import BlobRelay.Foundation.Answering
import BlobRelay.Types
import BlobRelay.TagGenerator
import BlobRelay.SessionStore
import BlobRelay.ReserveLoop
import BlobRelay.ExactReservation
import BlobRelay.SessionManager
import BlobRelay.SessionImpl
import BlobRelay.StreamingPut
import BlobRelay.StreamingGet
import BlobRelay.Handlers
import BlobRelay.System
import BlobRelay.Invariant
import BlobRelay.Steps
import BlobRelay.Reachability
import BlobRelay.Reception
import BlobRelay.PutTrace
import BlobRelay.Persistence
import BlobRelay.Session
import BlobRelay.Removal
import BlobRelay.Lifetime
import BlobRelay.GetDecision
import BlobRelay.Tags
import BlobRelay.TransactionIndex
import BlobRelay.RoundTrip
import BlobRelay.UploadFiles
import BlobRelay.ServedUploads
import BlobRelay.Orphans
import BlobRelay.Disposal
import BlobRelay.Alone
import BlobRelay.Sequential
import BlobRelay.SessionIndex
import BlobRelay.Contexts
import BlobRelay.Identifiers
import BlobRelay.Accounts
import BlobRelay.QuotaSafety
import BlobRelay.Grammar
import BlobRelay.Admission
import BlobRelay.ConcurrentPuts
import BlobRelay.BulkRemoval
import BlobRelay.ExceptionSafety
import BlobRelay.WholeReservation
import BlobRelay.LocalService
import BlobRelay.LocalUpload
import BlobRelay.LocalDownload
import BlobRelay.DownloadStream
import BlobRelay.UploadStream
import BlobRelay.ConcurrentRemoval
import BlobRelay.Ledger
import BlobRelay.Quiescence
import BlobRelay.Restart
import BlobRelay.Snapshot
import BlobRelay.Responses
import BlobRelay.Client
import BlobRelay.ClientDownload
import BlobRelay.PutOutcomes
import BlobRelay.TagInputs
import BlobRelay.DeletionSteps
import BlobRelay.DeletionMutex
import BlobRelay.DeletionAtomicity
import BlobRelay.DeletionProgress
import BlobRelay.DeletionQuota
import BlobRelay.Erasure
import BlobRelay.Confinement
import BlobRelay.SmokeTest
import BlobRelay.SmokeDownload
import BlobRelay.Entitlement
import BlobRelay.BlobStore
import BlobRelay.StoreRefinement
