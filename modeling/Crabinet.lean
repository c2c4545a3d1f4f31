import Crabinet.Zip.EncoderRuns
import Crabinet.Zip.PlannedLength
import Crabinet.Zip.RoundTrip
import Crabinet.Browse.FolderSizeRuns
import Crabinet.Client.Spoofing
import Crabinet.Search.IndexRuns
import Crabinet.Share.Depth
import Crabinet.Trash.Collection
import Crabinet.Share.TrashCrashes
import Crabinet.Share.ReplacementCrashes
import Crabinet.Share.PublicationRaces
import Crabinet.Access.SubjectGate
import Crabinet.Auth.SessionRuns
import Crabinet.Tokens.Separation
import Crabinet.Requests.AuditRuns
import Crabinet.Share.Preflight
import Crabinet.Trash.PageRuns
import Crabinet.Share.Emptying
import Crabinet.Share.TrashAtomicity
import Crabinet.Startup.Components
import Crabinet.Oidc.Runs
import Crabinet.Thumbnail.SingleFlight
import Crabinet.Auth.CeremonyRuns
import Crabinet.Filesystem.PathGrammar
import Crabinet.Browse.DownloadName
import Crabinet.Browse.Range
import Crabinet.Search.Paging
import Crabinet.Tokens.Versions
import Crabinet.Search.QueryTokens
import Crabinet.Search.ReconcileExact
import Crabinet.Share.StagedUploads
import Crabinet.Share.ArchiveDestination
import Crabinet.Thumbnail.CacheRuns
import Crabinet.Share.PreflightStrict
import Crabinet.Thumbnail.TiffBounds
import Crabinet.Thumbnail.Orientation
import Crabinet.Thumbnail.Downscaled
import Crabinet.Auth.RateLimiterFlood
import Crabinet.Preview.Containers
import Crabinet.Oidc.SafeReturn
import Crabinet.Web.MarkdownSafety
import Crabinet.Library.Slices
import Crabinet.Preview.MediaWalks
import Crabinet.Library.TextSlices
import Crabinet.Preview.SvgDocument
import Crabinet.Preview.XmlDocument
import Crabinet.Preview.SvgScan
import Crabinet.Preview.SvgRecognition
import Crabinet.Library.Wildcards
import Crabinet.Search.Candidates
import Crabinet.Search.Confinement
import Crabinet.Thumbnail.JpegHeader
import Crabinet.Thumbnail.WebpDimensions
import Crabinet.Thumbnail.Plan
import Crabinet.Thumbnail.PlanBounds
import Crabinet.Thumbnail.CacheIndexRuns
import Crabinet.Library.Occurrences
import Crabinet.Web.MarkdownParser
import Crabinet.Web.HeadingIds
import Crabinet.Web.MarkdownText
import Crabinet.Library.SparseMap
import Crabinet.Auth.Preferences
import Crabinet.Auth.PreferenceRuns
import Crabinet.Startup.Paths
import Crabinet.Web.NormalRoutes
import Crabinet.Browse.ArchiveStreamRuns
import Crabinet.Browse.ArchiveWalkSafety
import Crabinet.Browse.ArchivedFolders
import Crabinet.Browse.ArchiveDownloadRuns
import Crabinet.Web.ArchiveLinks
import Crabinet.Editing.ErrorAnswers
import Crabinet.Editing.EditorDialog
import Crabinet.Editing.TextSaves
import Crabinet.Editing.NoLostUpdate
import Crabinet.Filesystem.Replacement
import Crabinet.Editing.ClosedEditors
import Crabinet.Editing.EditsInSequence
