import RustyTorrent.Library.BigEndian
import RustyTorrent.Library.ExactChunks
import RustyTorrent.Library.Utf8Text
import RustyTorrent.Tracker.TrackerAnnounce

/- The UDP tracker exchange of src/tracker/udp.rs, once its address is known. What the socket
   meets and what the random generator draws come from outside. Logging is left out. -/
namespace UdpTracker
open RustExec BigEndian ExactChunks Utf8Text TrackerAnnounce

inductive UdpTrackerError where
  | invalidUrl (text : String)
  | socket
  | trackerError (msg : String)
  | invalidResponse (text : String)
  | timeout
  | connectionFailed
  deriving DecidableEq, Repr

/-- What a send meets within its fifteen seconds. -/
inductive Sending where
  | accepted
  | ioError
  | silence
  deriving DecidableEq, Repr

/-- What a receive meets within its fifteen seconds. -/
inductive Arrival where
  | datagram (bytes : Bytes)
  | ioError
  | silence
  deriving DecidableEq, Repr

/-- The socket and its surroundings: whether bind and connect succeed, what the coming sends
    and receives meet, and the datagrams sent so far. -/
structure Network where
  opens : Bool
  sending : List Sending
  arriving : List Arrival
  sent : List Bytes
  deriving DecidableEq, Repr

def openSocket : Exec Network UdpTrackerError Unit := do
  let net ← readState
  if net.opens then return () else fail .socket

def send (datagram : Bytes) : Exec Network UdpTrackerError Unit := do
  let net ← readState
  match net.sending with
  | .accepted :: later =>
      writeState { net with sending := later, sent := net.sent ++ [datagram] }
  | .ioError :: later => do
      writeState { net with sending := later }
      fail .socket
  | _ => fail .timeout

/-- The buffer after a receive, with the number of bytes received. A datagram that is longer
    than the buffer loses its end; the buffer keeps what a shorter one does not reach. -/
def recv (buf : Bytes) : Exec Network UdpTrackerError (Nat × Bytes) := do
  let net ← readState
  match net.arriving with
  | .datagram bytes :: later => do
      writeState { net with arriving := later }
      let n := min bytes.length buf.length
      return (n, bytes.take n ++ buf.drop n)
  | .ioError :: later => do
      writeState { net with arriving := later }
      fail .socket
  | _ => fail .timeout

def readBe (width : Nat) : Exec Bytes UdpTrackerError Nat := do
  let rest ← readState
  if width ≤ rest.length then do
    writeState (rest.drop width)
    return ofBe (rest.take width)
  else fail .socket

def readU32 : Exec Bytes UdpTrackerError UInt32 := do
  let n ← readBe 4
  return UInt32.ofNat n

def readU64 : Exec Bytes UdpTrackerError UInt64 := do
  let n ← readBe 8
  return UInt64.ofNat n

def connectRequest (transactionId : UInt32) : Bytes :=
  toBe 8 0x41727101980 ++ toBe 4 0 ++ toBe 4 transactionId.toNat

def announceRequest (connectionId : UInt64) (transactionId key : UInt32)
    (facts : AnnounceFacts) : Bytes :=
  toBe 8 connectionId.toNat ++ toBe 4 1 ++ toBe 4 transactionId.toNat ++
    facts.infoHash.toList ++ facts.peerId.toList ++
    toBe 8 facts.downloaded.toNat ++ toBe 8 facts.left.toNat ++ toBe 8 facts.uploaded.toNat ++
    toBe 4 0 ++ toBe 4 0 ++ toBe 4 key.toNat ++
    -- num_want is -1 as an i32
    toBe 4 0xffffffff ++ toBe 2 facts.port.toNat

/-- The three numbers that `rand::random` gives the exchange. -/
structure Draws where
  connectTransactionId : UInt32
  announceTransactionId : UInt32
  key : UInt32
  deriving DecidableEq, Repr

/-- The reads of the connect phase: action, transaction id and connection id. -/
def readConnectHeader : Exec Bytes UdpTrackerError (UInt32 × UInt32 × UInt64) := do
  let action ← readU32
  let respTxid ← readU32
  let connectionId ← readU64
  return (action, respTxid, connectionId)

def readReplyHeader : Exec Bytes UdpTrackerError (UInt32 × UInt32) := do
  let action ← readU32
  let respTxid ← readU32
  return (action, respTxid)

def readCounts : Exec Bytes UdpTrackerError (UInt32 × UInt32 × UInt32) := do
  let interval ← readU32
  let leechers ← readU32
  let seeders ← readU32
  return (interval, leechers, seeders)

/-- The loop over the peers of an announce reply. -/
def pushPeers : List (Vector UInt8 6) → List PeerAddr → List PeerAddr
  | [], peers => peers
  | chunk :: rest, peers =>
      let ip := IpAddr.v4 ⟨chunk.get 0, chunk.get 1, chunk.get 2, chunk.get 3⟩
      let port := be16 (chunk.get 4) (chunk.get 5)
      if port ≠ 0 then pushPeers rest (peers ++ [⟨ip, port⟩]) else pushPeers rest peers

def announcedPeers (peerData : Bytes) : List PeerAddr := pushPeers (chunksExact 6 peerData) []

/-- The end of the exchange, once the reply to the announce is cut to what was received. -/
def readAnnounceReply (transactionId : UInt32) (annResp : Bytes) :
    Exec Network UdpTrackerError AnnounceResponse := do
  let ((action, respTxid), cursor) ← within annResp readReplyHeader
  if action = 3 then do
    let text ← slice annResp 8 annResp.length
    fail (.trackerError (fromUtf8Lossy text))
  else if action ≠ 1 then
    fail (.invalidResponse "Unexpected action in announce response")
  else if respTxid ≠ transactionId then
    fail (.invalidResponse "Announce transaction ID mismatch")
  else do
    let ((interval, _), _) ← within cursor readCounts
    let peerData ← slice annResp 20 annResp.length
    return { interval := UInt64.ofNat interval.toNat, peers := announcedPeers peerData }

def announcePhase (draws : Draws) (facts : AnnounceFacts) (connectionId : UInt64) :
    Exec Network UdpTrackerError AnnounceResponse := do
  send (announceRequest connectionId draws.announceTransactionId draws.key facts)
  let (n, annResp) ← recv (List.replicate (20 + 6 * 500) 0)
  if n < 20 then fail (.invalidResponse "Announce response too short")
  else readAnnounceReply draws.announceTransactionId (annResp.take n)

def connectAndAnnounce (draws : Draws) (facts : AnnounceFacts) :
    Exec Network UdpTrackerError AnnounceResponse := do
  openSocket
  send (connectRequest draws.connectTransactionId)
  let (_, connectResp) ← recv (List.replicate 16 0)
  let ((action, respTxid, connectionId), _) ← within connectResp readConnectHeader
  if action ≠ 0 then fail .connectionFailed
  else if respTxid ≠ draws.connectTransactionId then
    fail (.invalidResponse "Connect transaction ID mismatch")
  else announcePhase draws facts connectionId

end UdpTracker
