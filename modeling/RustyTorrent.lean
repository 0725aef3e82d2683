import RustyTorrent.Library.RustExec
import RustyTorrent.Library.ErrorRuns
import RustyTorrent.Library.TraceCosts
import RustyTorrent.Library.OrderedMaps
import RustyTorrent.Library.Numerals
import RustyTorrent.Library.Utf8Text
import RustyTorrent.Library.BigEndian
import RustyTorrent.Library.ExactChunks
import RustyTorrent.Library.FirstSeen
import RustyTorrent.Library.JoinHandles
import RustyTorrent.Library.PercentText
import RustyTorrent.Library.StrSlices
import RustyTorrent.Library.UnixPaths
import RustyTorrent.Library.ByteStreams
import RustyTorrent.Library.StreamFutures
import RustyTorrent.Library.TwoSides
import RustyTorrent.Library.DuplexLinks
import RustyTorrent.Library.FramedPipes
import RustyTorrent.Library.WriteHalves
import RustyTorrent.Library.BufferedWriters
import RustyTorrent.Library.FutureRuns
import RustyTorrent.Library.BufferWrites
import RustyTorrent.Library.Tilings
import RustyTorrent.Library.PointUpdates
import RustyTorrent.Bencode.BencodeValue
import RustyTorrent.Bencode.BencodeDecoder
import RustyTorrent.Bencode.DecoderCursor
import RustyTorrent.Bencode.BencodeGrammar
import RustyTorrent.Bencode.BencodeRecognition
import RustyTorrent.Bencode.CanonicalEncoding
import RustyTorrent.Bencode.DecoderSafety
import RustyTorrent.Bencode.DecoderWork
import RustyTorrent.Bencode.CursorErrors
import RustyTorrent.Bencode.DecodeErrors
import RustyTorrent.Bencode.TruncatedTexts
import RustyTorrent.Bencode.EntrySpans
import RustyTorrent.Bencode.DecodedWeight
import RustyTorrent.Bencode.KeyOrder
import RustyTorrent.Bencode.RedundantNumerals
import RustyTorrent.Bencode.CanonicalLength
import RustyTorrent.Torrent.TorrentMetainfo
import RustyTorrent.Torrent.InfoHashSpan
import RustyTorrent.Torrent.AcceptedTorrent
import RustyTorrent.Torrent.PieceTable
import RustyTorrent.Torrent.PieceTiling
import RustyTorrent.Torrent.CanonicalTorrent
import RustyTorrent.Torrent.DeclaredSizes
import RustyTorrent.Torrent.PathContainment
import RustyTorrent.Torrent.DeclaredPaths
import RustyTorrent.Torrent.AnnounceLine
import RustyTorrent.Torrent.InfoIdentity
import RustyTorrent.Torrent.CheckedTotals
import RustyTorrent.Torrent.MagnetUri
import RustyTorrent.Torrent.MagnetHash
import RustyTorrent.Torrent.MagnetComposition
import RustyTorrent.Torrent.MagnetSlices
import RustyTorrent.Torrent.MagnetDigits
import RustyTorrent.Torrent.MagnetRoundTrip
import RustyTorrent.Torrent.MalformedEscapes
import RustyTorrent.Torrent.MagnetDecoding
import RustyTorrent.Torrent.MagnetEscaping
import RustyTorrent.Peer.PeerMessage
import RustyTorrent.Peer.WireFraming
import RustyTorrent.Peer.PieceAssembly
import RustyTorrent.Peer.PieceBitfield
import RustyTorrent.Peer.PieceSet
import RustyTorrent.Peer.PeerConnection
import RustyTorrent.Peer.TimeoutStep
import RustyTorrent.Peer.BitfieldRule
import RustyTorrent.Peer.HaveRecorded
import RustyTorrent.Peer.UpdateHandOver
import RustyTorrent.Peer.OutgoingMessages
import RustyTorrent.Peer.PeerOperations
import RustyTorrent.Peer.CheckedCounters
import RustyTorrent.Peer.PeerSession
import RustyTorrent.Peer.AnnouncedPieces
import RustyTorrent.Peer.PeerHandshake
import RustyTorrent.Peer.HandshakeAgreement
import RustyTorrent.Peer.BitfieldPhase
import RustyTorrent.Peer.PeerConnect
import RustyTorrent.Tracker.TrackerAnnounce
import RustyTorrent.Tracker.HttpTracker
import RustyTorrent.Tracker.UdpTracker
import RustyTorrent.Tracker.CompactPeers
import RustyTorrent.Tracker.PeerListCodec
import RustyTorrent.Tracker.TrackerMerge
import RustyTorrent.Tracker.AnnounceReports
import RustyTorrent.Tracker.OwnQuery
import RustyTorrent.Tracker.UdpExchange
import RustyTorrent.Tracker.UdpErrors
import RustyTorrent.Tracker.UdpUrl
import RustyTorrent.Tracker.HttpAnnounce
import RustyTorrent.Tracker.PeerDiscovery
