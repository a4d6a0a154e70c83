import CardKeepr.Lib.Bytes
import CardKeepr.Lib.StableSort
import CardKeepr.Shared.JsonlBlocks
import CardKeepr.Shared.JsonlDecomposition
import CardKeepr.Shared.JsonlAssembler
import CardKeepr.Shared.JsonlEquivalence
import CardKeepr.Shared.JsString
import CardKeepr.Shared.Json
import CardKeepr.Shared.JsonGrammar
import CardKeepr.Shared.JsonParse
import CardKeepr.Shared.CanonicalJson
import CardKeepr.Shared.CanonicalText
import CardKeepr.Shared.CanonicalForm
import CardKeepr.Shared.CanonicalTies
import CardKeepr.Shared.StreamedMembers
import CardKeepr.Shared.StreamedReader
import CardKeepr.Shared.StreamedText
import CardKeepr.Shared.StreamedResume
import CardKeepr.Shared.StreamedTokens
import CardKeepr.Shared.StreamedGrammar
import CardKeepr.Shared.StreamedAcceptance
import CardKeepr.Shared.StreamedCorrectness
import CardKeepr.Shared.Sha256
import CardKeepr.Shared.CanonicalMembers
import CardKeepr.Lib.Program
import CardKeepr.Lib.Replay
import CardKeepr.Reconciliation.Text
import CardKeepr.Reconciliation.ReducerState
import CardKeepr.Reconciliation.ReducerIndex
import CardKeepr.Reconciliation.TextReplay
import CardKeepr.Reconciliation.ReducerReads
import CardKeepr.Reconciliation.ReducerViews
import CardKeepr.Reconciliation.ReducerWrites
import CardKeepr.Reconciliation.ReducerCommits
import CardKeepr.Reconciliation.ReducerSteps
import CardKeepr.Reconciliation.ReducerReplay
import CardKeepr.Lib.ExternalSort
import CardKeepr.Shared.WellFormed
import CardKeepr.Reconciliation.TextFill
import CardKeepr.Reconciliation.TextSlices
import CardKeepr.Shared.IsoTime
import CardKeepr.Lib.Fallible
import CardKeepr.SourceEvidence.AcquisitionBudget
import CardKeepr.SourceEvidence.AcquisitionLedger
import CardKeepr.Reconciliation.IdentityCorrections
import CardKeepr.Reconciliation.IdentityHistory
import CardKeepr.Reconciliation.IdentityResolution
import CardKeepr.Ingestion.RunEvents
import CardKeepr.Ingestion.EventPayloads
import CardKeepr.Ingestion.RunCommands
import CardKeepr.Ingestion.RunEventLog
import CardKeepr.Ingestion.RunAcceptance
import CardKeepr.Ingestion.RunProjection
import CardKeepr.Ingestion.RunRebuild
import CardKeepr.Lib.Threads
import CardKeepr.Publication.StagingObjects
import CardKeepr.Publication.StagingPrograms
import CardKeepr.Publication.StagingSafety
import CardKeepr.Publication.StagingResolution
import CardKeepr.Publication.Tables
import CardKeepr.Publication.Programs
import CardKeepr.Publication.Switch
import CardKeepr.Publication.Commits
import CardKeepr.Publication.Protocol
import CardKeepr.SourceEvidence.CollectionPauses
import CardKeepr.SourceEvidence.PauseHistory
import CardKeepr.Shared.JsonPointer
import CardKeepr.Shared.JsonRestore
import CardKeepr.Curated.Proposals
import CardKeepr.Curated.Store
import CardKeepr.Curated.Lifecycle
import CardKeepr.Curated.Preparations
import CardKeepr.Curated.Events
import CardKeepr.Curated.Conflicts
import CardKeepr.Curated.Views
import CardKeepr.Curated.Overlaps
import CardKeepr.Curated.Selection
import CardKeepr.Curated.Candidate
import CardKeepr.Curated.Effects
import CardKeepr.Curated.Removal
import CardKeepr.Publication.PublicLifecycle
import CardKeepr.Publication.LifecycleFold
import CardKeepr.Ingestion.AdministrationReuse
import CardKeepr.Export.DeletionGuarantees
import CardKeepr.SourceEvidence.RequestOwnership
import CardKeepr.Ingestion.Reservations
import CardKeepr.Lib.InsertionMap
import CardKeepr.Lib.SecureHash
import CardKeepr.Shared.Sha256Standard
import CardKeepr.Reconciliation.ProductResolution
import CardKeepr.Reconciliation.ProductReobservation
import CardKeepr.Reconciliation.ProductUnchanged
import CardKeepr.Reconciliation.SourceSelection
import CardKeepr.Reconciliation.AcceptedSource
import CardKeepr.Reconciliation.AcceptedSourceWalk
import CardKeepr.Read.CardSearch
import CardKeepr.Reconciliation.RulesTextErrata
import CardKeepr.Reconciliation.ErrataOrder
import CardKeepr.Reconciliation.ErrataMerge
import CardKeepr.Reconciliation.ErrataIndependence
import CardKeepr.SourceEvidence.HostPacing
import CardKeepr.SourceEvidence.HostPacingBounds
import CardKeepr.SourceEvidence.DiscoverySelection
import CardKeepr.SourceEvidence.DiscoveryAdmission
import CardKeepr.SourceEvidence.DiscoveryReplays
import CardKeepr.Lib.Steps
import CardKeepr.Shared.Gunzip
import CardKeepr.Shared.GunzipWindow
import CardKeepr.Shared.GunzipProgress
import CardKeepr.Shared.GunzipCalls
import CardKeepr.Shared.GunzipChunks
import CardKeepr.Reconciliation.IdentityRuns
import CardKeepr.Ingestion.SearchRepairLoss
import CardKeepr.Reconciliation.ImageFiles
import CardKeepr.Reconciliation.DigimonAuthority
import CardKeepr.Reconciliation.ReviewedPrintings
import CardKeepr.Read.CardFollowing
import CardKeepr.Reconciliation.WithdrawalConflicts
import CardKeepr.Reconciliation.PartitionManifest
import CardKeepr.Lib.References
import CardKeepr.Adapters.HtmlText
import CardKeepr.Adapters.HtmlDecoding
import CardKeepr.Adapters.FieldCoverage
import CardKeepr.Adapters.FlightPayload
import CardKeepr.Adapters.FlightScripts
import CardKeepr.Adapters.FlightRows
import CardKeepr.Adapters.FlightDecoding
import CardKeepr.SourceEvidence.Finalization
import CardKeepr.SourceEvidence.FinalizationGate
import CardKeepr.SourceEvidence.Resumes
import CardKeepr.SourceEvidence.ResumeOnce
import CardKeepr.Publication.SearchProjection
import CardKeepr.Publication.SearchCoverage
import CardKeepr.Ingestion.PayloadChunks
import CardKeepr.Read.CompositionFilters
import CardKeepr.Read.FilterMeanings
import CardKeepr.Read.FilterSoundness
import CardKeepr.Publication.ExportComponents
import CardKeepr.Publication.ExportRows
import CardKeepr.Read.CompositionExport
import CardKeepr.Read.ExportAnswers
import CardKeepr.Reconciliation.ReducerRoundTrip
import CardKeepr.Reconciliation.SortedRecords
import CardKeepr.Reconciliation.SortedBatches
import CardKeepr.Reconciliation.SortedMerge
import CardKeepr.Reconciliation.SortedReading
