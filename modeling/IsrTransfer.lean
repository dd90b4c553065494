import IsrTransfer.Effect.Program
import IsrTransfer.Data.BigEndian
import IsrTransfer.Posix.Walk
import IsrTransfer.Effect.Wire
import IsrTransfer.Posix.Calls
import IsrTransfer.Posix.Machine
import IsrTransfer.Protocol
import IsrTransfer.Transport
import IsrTransfer.Paths
import IsrTransfer.Stream
import IsrTransfer.Commands
import IsrTransfer.Listing
import IsrTransfer.Client
import IsrTransfer.StreamRules
import IsrTransfer.RoundTrip
import IsrTransfer.PathRules
import IsrTransfer.ServerRules
import IsrTransfer.Posix.RealPath
import IsrTransfer.Resolution
import IsrTransfer.NoClobber
import IsrTransfer.Posix.Execute
import IsrTransfer.ClientRules
import IsrTransfer.Scripted
import IsrTransfer.AnnouncedLength
import IsrTransfer.FailedTransfer
import IsrTransfer.Effect.Duplex
import IsrTransfer.Deadlock
import IsrTransfer.PathMeaning
import IsrTransfer.CommandCodec
import IsrTransfer.CompressedReceiver
import IsrTransfer.ListingParser
import IsrTransfer.ListingRoundTrip
import IsrTransfer.DownloadRuns
import IsrTransfer.MalformedListing
import IsrTransfer.SenderSound
import IsrTransfer.Replies
import IsrTransfer.Posix.Directories
import IsrTransfer.MkdirRecursive
import IsrTransfer.Posix.Lexical
import IsrTransfer.Posix.Destination
import IsrTransfer.Posix.Ancestors
import IsrTransfer.ServerJail
import IsrTransfer.DownloadParts
import IsrTransfer.ClientJail
import IsrTransfer.UncompressedReceiver
import IsrTransfer.TwoPasses
import IsrTransfer.TwoDecoders
import IsrTransfer.AnsweringServer
import IsrTransfer.DownloadDepth
import IsrTransfer.WholeFiles
import IsrTransfer.ServerOutcomes
import IsrTransfer.ClientOutcomes
import IsrTransfer.StoredFiles
import IsrTransfer.FileStore
import IsrTransfer.FaultyStreams
import IsrTransfer.TouchedFiles
import IsrTransfer.TreeServer
import IsrTransfer.DownloadFailures
import IsrTransfer.TreePaths
import IsrTransfer.MirroredTree
import IsrTransfer.Effect.Caller
import IsrTransfer.Effect.AcceptLoop
import IsrTransfer.UploadFailures
import IsrTransfer.SendTalks
import IsrTransfer.MirroredUpload
import IsrTransfer.Effect.Sessions
import IsrTransfer.ClientDials
import IsrTransfer.ConcurrentStore
import IsrTransfer.Data.Buffer
import IsrTransfer.Data.Outcome
import IsrTransfer.Lz4.Memory
import IsrTransfer.Lz4.MemoryRules
import IsrTransfer.Lz4.Block
import IsrTransfer.Lz4.Decompress
import IsrTransfer.Lz4.MatchRules
import IsrTransfer.Lz4.DecompressRules
import IsrTransfer.Lz4.Compress
import IsrTransfer.Lz4.MatchFinder
import IsrTransfer.Lz4.CompressRules
import IsrTransfer.Lz4.Compressor
import IsrTransfer.Lz4.RoundTrip
import IsrTransfer.CommandLine
import IsrTransfer.CommandLineRules
import IsrTransfer.CommandLineStore
