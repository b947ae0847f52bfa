import BitTorrentBits.Foundation.CInt
import BitTorrentBits.Foundation.Memory
import BitTorrentBits.Foundation.Ledger
import BitTorrentBits.Foundation.Machine
import BitTorrentBits.Foundation.Refinement
import BitTorrentBits.Foundation.Query
import BitTorrentBits.Bencode.Grammar
import BitTorrentBits.Bencode.Scanning
import BitTorrentBits.Bencode.Balance
import BitTorrentBits.Bencode.Tokenizer
import BitTorrentBits.Bencode.TokenizerSteps
import BitTorrentBits.Bencode.TokenizerRuns
import BitTorrentBits.Bencode.Canonical
import BitTorrentBits.Bencode.Bounds
import BitTorrentBits.Bencode.Acceptance
import BitTorrentBits.Bencode.Spaced
import BitTorrentBits.Bencode.Subvalues
import BitTorrentBits.Bencode.TokenSequence
import BitTorrentBits.Bencode.CallsLeft
import BitTorrentBits.Torrent.ParseTorrentFile
import BitTorrentBits.Torrent.FlatReading
import BitTorrentBits.Torrent.ParseTurns
import BitTorrentBits.Torrent.ParseRuns
import BitTorrentBits.Torrent.Metainfo
import BitTorrentBits.Torrent.StrayFree
import BitTorrentBits.Torrent.ParsedRight
import BitTorrentBits.Torrent.StoredValues
import BitTorrentBits.Torrent.Reader
import BitTorrentBits.Torrent.ReaderRuns
import BitTorrentBits.Torrent.RunEnds
import BitTorrentBits.Torrent.StoredNumbers
import BitTorrentBits.Torrent.FileOutcomes
import BitTorrentBits.Torrent.HashCalls
import BitTorrentBits.Torrent.InfoSpans
import BitTorrentBits.Torrent.LoopEnds
import BitTorrentBits.Wire.BigEndian
import BitTorrentBits.Wire.Conn
import BitTorrentBits.Wire.Message
import BitTorrentBits.Wire.DecodeMessage
import BitTorrentBits.Wire.Frames
import BitTorrentBits.Wire.HandshakeMsg
import BitTorrentBits.Wire.DecodeHandshakeMsg
import BitTorrentBits.Wire.PerformHandshake
import BitTorrentBits.Wire.PayloadRecvs
import BitTorrentBits.Wire.MessageStreams
import BitTorrentBits.Wire.Link
import BitTorrentBits.Tracker.ResponseData
import BitTorrentBits.Tracker.Request
import BitTorrentBits.Tracker.TrackerResponse
import BitTorrentBits.Tracker.ParsedResponse
import BitTorrentBits.Tracker.PeerAddress
import BitTorrentBits.Tracker.RequestUrl
import BitTorrentBits.Pieces.Bitfield
import BitTorrentBits.Pieces.PiecesPool
import BitTorrentBits.Pieces.PoolRefinement
import BitTorrentBits.Pieces.DownloadedFile
import BitTorrentBits.Pieces.OutputFile
import BitTorrentBits.Pieces.AdditionOrder
import BitTorrentBits.Pieces.DownloadPiece
import BitTorrentBits.Pieces.Rounds
import BitTorrentBits.Pieces.AcceptedBlocks
import BitTorrentBits.Pieces.BlockTiling
import BitTorrentBits.Pieces.Coverage
import BitTorrentBits.Pieces.BitfieldSet
import BitTorrentBits.Pieces.PieceOverLink
import BitTorrentBits.Pieces.WholePiece
import BitTorrentBits.Pieces.Crashes
import BitTorrentBits.Swarm.Workers
import BitTorrentBits.Swarm.Ownership
import BitTorrentBits.Swarm.Indices
import BitTorrentBits.Swarm.Leaving
import BitTorrentBits.Swarm.Iterations
import BitTorrentBits.Swarm.SingleWorker
import BitTorrentBits.Swarm.Attempts
import BitTorrentBits.Swarm.Recovery
import BitTorrentBits.Swarm.Courses
import BitTorrentBits.Swarm.InsertedMessages
import BitTorrentBits.Swarm.BitfieldReads
import BitTorrentBits.Swarm.Successes
import BitTorrentBits.Client.Threads
import BitTorrentBits.Client.SetUp
import BitTorrentBits.Client.Conversation
import BitTorrentBits.Client.Provenance
import BitTorrentBits.Client.DownloadTorrent
import BitTorrentBits.Client.Completion
import BitTorrentBits.Client.HonestPeer
import BitTorrentBits.Client.Crashes
import BitTorrentBits.Client.Safety
import BitTorrentBits.Client.Preparation
import BitTorrentBits.Client.UsedUp
import BitTorrentBits.Client.Published
import BitTorrentBits.Client.Traffic
