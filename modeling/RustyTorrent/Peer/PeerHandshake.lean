import RustyTorrent.Library.BufferWrites
import RustyTorrent.Library.StreamFutures

/- The handshake of src/peer/handshake.rs, on any stream. -/
namespace PeerHandshake
open RustExec ByteStreams BufferWrites StreamFutures

/-- b"BitTorrent protocol" -/
def protocol : Bytes :=
  [0x42, 0x69, 0x74, 0x54, 0x6f, 0x72, 0x72, 0x65, 0x6e, 0x74, 0x20, 0x70, 0x72, 0x6f, 0x74, 0x6f,
    0x63, 0x6f, 0x6c]

def handshakeSize : Nat := 68

inductive HandshakeError where
  | io
  | invalidProtocolLength (length : UInt8)
  | unknownProtocol
  | infoHashMismatch
  deriving DecidableEq, Repr

structure HandshakeResult where
  peerId : Vector UInt8 20
  infoHash : Vector UInt8 20
  deriving DecidableEq, Repr

/-- The blocks that build_handshake copies into a buffer of zeros. -/
def blocks (infoHash peerId : Vector UInt8 20) : List (Write UInt8) :=
  [⟨0, [UInt8.ofNat protocol.length]⟩, ⟨1, protocol⟩, ⟨28, infoHash.toList⟩, ⟨48, peerId.toList⟩]

theorem blocks_fit (infoHash peerId : Vector UInt8 20) :
    ∀ w ∈ blocks infoHash peerId, w.Fits handshakeSize := by
  simp [blocks, Write.Fits, handshakeSize, protocol]

def buildHandshake (infoHash peerId : Vector UInt8 20) : Vector UInt8 handshakeSize :=
  ⟨(overwriteAll (List.replicate handshakeSize 0) (blocks infoHash peerId)).toArray, by
    rw [List.size_toArray, overwriteAll_length (by simpa using blocks_fit infoHash peerId),
      List.length_replicate]⟩

def readHandshake : Future HandshakeError HandshakeResult := do
  let pstrlenBuf ← Future.readExact .io 1
  if pstrlenBuf[0].toNat ≠ protocol.length then
    .fail (.invalidProtocolLength pstrlenBuf[0])
  else do
    let buf ← Future.readExact .io 67
    if (buf.take 19).toList ≠ protocol then .fail .unknownProtocol
    else return { peerId := buf.extract 47 67, infoHash := buf.extract 27 47 }

theorem readHandshake_eq : readHandshake = .read .io 1 fun pstrlenBuf =>
    if pstrlenBuf[0].toNat ≠ protocol.length then .fail (.invalidProtocolLength pstrlenBuf[0])
    else .read .io 67 fun buf =>
      if (buf.take 19).toList ≠ protocol then .fail .unknownProtocol
      else .done { peerId := buf.extract 47 67, infoHash := buf.extract 27 47 } := rfl

def performHandshake (infoHash peerId : Vector UInt8 20) :
    Future HandshakeError HandshakeResult := do
  let outgoing := buildHandshake infoHash peerId
  Future.writeAll outgoing.toList
  Future.flushAll
  let result ← readHandshake
  if result.infoHash ≠ infoHash then .fail .infoHashMismatch else return result

end PeerHandshake
