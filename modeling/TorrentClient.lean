import TorrentClient.TransitionRuns
import TorrentClient.EffectPrograms
import TorrentClient.PeerMessages
import TorrentClient.DownloadFiles
import TorrentClient.PeerMessageStream
import TorrentClient.DownloadPieces
import TorrentClient.ManagerEvents
import TorrentClient.Download
import TorrentClient.DownloadGeometry
import TorrentClient.PieceTiling
import TorrentClient.DownloadInvariant
import TorrentClient.PartialReads
import TorrentClient.RangeParts
import TorrentClient.FileRanges
import TorrentClient.FileRenames
import TorrentClient.FileVisits
import TorrentClient.FileCompletion
import TorrentClient.StoredBlocks
import TorrentClient.PieceCompletion
import TorrentClient.CompletionBroadcasts
import TorrentClient.DownloadEvents
import TorrentClient.LoopSafety
import TorrentClient.BlockWrites
import TorrentClient.ServedData
import TorrentClient.ContentAssembly
import TorrentClient.RequestQueue
import TorrentClient.PeerAddresses
import TorrentClient.PeerConnection
import TorrentClient.ConnectionSteps
import TorrentClient.UploadQueue
import TorrentClient.RequestPipeline
import TorrentClient.ConnectedDownload
import TorrentClient.BlockRequests
import TorrentClient.BlockOwnership
import TorrentClient.DecimalNumerals
import TorrentClient.OrderedEntries
import TorrentClient.BencodeTrees
import TorrentClient.BencodeItems
import TorrentClient.BencodeValues
import TorrentClient.BencodeDecoder
import TorrentClient.DecoderReads
import TorrentClient.BencodeRoundTrip
import TorrentClient.DecoderAdvances
import TorrentClient.CanonicalIntegers
import TorrentClient.DecodedItems
import TorrentClient.SkipOverflows
import TorrentClient.SkipSafety
import TorrentClient.StructLookups
import TorrentClient.MetaInfoValues
import TorrentClient.CarriedFields
import TorrentClient.InfoHash
import TorrentClient.ItemFields
import TorrentClient.Manager
import TorrentClient.CompactPeers
import TorrentClient.ConnectionTable
import TorrentClient.Client
import TorrentClient.PieceNews
import TorrentClient.LiveConnections
import TorrentClient.TorrentReload
import TorrentClient.TrackerPeers
import TorrentClient.TrackerSpawns
import TorrentClient.ConnectionCalls
import TorrentClient.ConnectionTasks
import TorrentClient.FailureSpecs
import TorrentClient.FramePanics
import TorrentClient.OutstandingRequests
import TorrentClient.RequestExchanges
import TorrentClient.UploadTokens
import TorrentClient.WriterDeadlock
import TorrentClient.DecoderAgreement
import TorrentClient.DecoderDrift
import TorrentClient.OptionalFields
import TorrentClient.KeyedQueues
import TorrentClient.QueueOrder
import TorrentClient.PackedBits
import TorrentClient.BitfieldRoundTrip
import TorrentClient.HandlerOutcomes
import TorrentClient.AnnounceShuffle
import TorrentClient.QueryStrings
import TorrentClient.AnnounceUrls
import TorrentClient.PathResolution
import TorrentClient.FilePaths
import TorrentClient.Handshake
import TorrentClient.HandshakeAgreement
import TorrentClient.WatchedRounds
import TorrentClient.PeerConversation
import TorrentClient.ClientSwarm
import TorrentClient.FilteredLists
import TorrentClient.Tracker
import TorrentClient.TrackerTasks
import TorrentClient.TrackerFailures
import TorrentClient.SeededDownload
import TorrentClient.SeededCalls
import TorrentClient.ForwardedBlocks
import TorrentClient.SeededBudget
import TorrentClient.SeededRuns
import TorrentClient.SeededLedger
import TorrentClient.SeededInvariants
import TorrentClient.SeededProgress
import TorrentClient.DownloadOutlook
import TorrentClient.SeededTermination
import TorrentClient.SeededCompletion
import TorrentClient.FileSystems
import TorrentClient.DiskDownload
import TorrentClient.StateSimulations
import TorrentClient.StoredFiles
import TorrentClient.DiskSimulation
import TorrentClient.DiskContents
import TorrentClient.FileNames
import TorrentClient.DeliveredFiles
import TorrentClient.FinalStates
import TorrentClient.ClientTasks
import TorrentClient.RenameEvents
import TorrentClient.ClientNames
import TorrentClient.ClientWiring
import TorrentClient.BlockedLoops
import TorrentClient.ClientProgress
import TorrentClient.BlockedManager
import TorrentClient.AnnouncedPeers
import TorrentClient.ManagerNames
import TorrentClient.ConnectionRuns
import TorrentClient.ComponentRuns
import TorrentClient.StoppedManager
import TorrentClient.AnsweredQuestions
import TorrentClient.UnblockedRuns
import TorrentClient.FailingFiles
import TorrentClient.LackingTypes
import TorrentClient.ClientActs
import TorrentClient.PieceAnnouncements
import TorrentClient.StageKnowledge
import TorrentClient.MissedPieces
import TorrentClient.UnfedClients
import TorrentClient.SwarmDownloads
