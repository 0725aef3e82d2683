import RustyTorrent.Bencode.BencodeDecoder
import RustyTorrent.Library.BigEndian
import RustyTorrent.Library.ExactChunks
import RustyTorrent.Library.PercentText
import RustyTorrent.Tracker.TrackerAnnounce

/- The announce URL and the compact peer list of src/tracker/http.rs. The url package is a
   parameter; the request over HTTP and the reading of its answer are left out. -/
namespace HttpTracker
open RustExec BigEndian ExactChunks PercentText TrackerAnnounce

inductive TrackerError where
  | urlBuild (text : String)
  | malformedPeers (length : Nat)
  deriving DecidableEq, Repr

/-- The operations of the url package that the client uses, and `Url::query` to speak about
    their result. A failed parse gives the text of its error. -/
structure UrlPackage where
  Url : Type
  parse : String → Except String Url
  setQuery : Url → Option String → Url
  query : Url → Option String
  toText : Url → String

def announceQuery (facts : AnnounceFacts) : List Char :=
  "info_hash=".toList ++ facts.infoHash.toList.flatMap percentByte ++
    "&peer_id=".toList ++ facts.peerId.toList.flatMap percentByte ++
    "&port=".toList ++ decimalText facts.port.toNat ++
    "&uploaded=".toList ++ decimalText facts.uploaded.toNat ++
    "&downloaded=".toList ++ decimalText facts.downloaded.toNat ++
    "&compact=1".toList ++
    "&left=".toList ++ decimalText facts.left.toNat

def buildAnnounceUrl (pkg : UrlPackage) (announce : String) (facts : AnnounceFacts) :
    Except TrackerError String :=
  match pkg.parse announce with
  | .error text => .error (.urlBuild text)
  | .ok url => .ok (pkg.toText (pkg.setQuery url (some (String.ofList (announceQuery facts)))))

def unmarshalPeers (data : Bytes) : Except TrackerError (List PeerAddr) :=
  if data.length % 6 ≠ 0 then .error (.malformedPeers data.length)
  else .ok ((chunksExact 6 data).map fun chunk =>
    let ip := IpAddr.v4 ⟨chunk.get 0, chunk.get 1, chunk.get 2, chunk.get 3⟩
    let port := be16 (chunk.get 4) (chunk.get 5)
    { ip, port })

end HttpTracker
