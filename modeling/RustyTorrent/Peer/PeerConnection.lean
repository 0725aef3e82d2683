import RustyTorrent.Peer.PeerMessage
import RustyTorrent.Peer.PieceBitfield

/- The peer client of src/peer/client.rs from the end of the handshake on. The peer's
   address and id, its statistics and what is sent to it are left out. -/
namespace PeerConnection
open RustExec ByteStreams PeerMessage PieceBitfield

inductive ClientError where
  | message (error : MessageError)
  deriving DecidableEq, Repr

structure PeerClient where
  stream : Reader
  choked : Bool
  bitfield : Bitfield
  deriving DecidableEq, Repr

/-- The match of recv_bitfield on what it has read; `again` continues the loop. -/
def onReceived (p : Profile) (numPieces : Nat) (again : Exec Reader ClientError Bitfield) :
    Option Message → Exec Reader ClientError Bitfield
  | none => again
  | some m =>
      if m.id = .bitfield then return Bitfield.fromBytes m.payload.bytes numPieces
      else if m.id = .unchoke ∨ m.id = .have ∨ m.id = .choke ∨ m.id = .interested ∨
          m.id = .notInterested then again
      else Bitfield.new p numPieces

/-- The loop of recv_bitfield. Every round but the last reads at least the four bytes of a
    length prefix. -/
def recvLoop (p : Profile) (numPieces : Nat) : Nat → Exec Reader ClientError Bitfield
  | 0 => exhaust
  | fuel + 1 => do
      let received ← mapErr .message Message.read
      onReceived p numPieces (recvLoop p numPieces fuel) received

def recvBitfield (p : Profile) (numPieces : Nat) : Exec Reader ClientError Bitfield := do
  let stream ← readState
  recvLoop p numPieces (stream.arrived.length + 1)

/-- connect, once the handshake on the stream is done. -/
def connect (p : Profile) (numPieces : Nat) (stream : Reader) :
    Exec Unit ClientError PeerClient := do
  let (received, stream) ← within stream (timeout (recvBitfield p numPieces))
  let bitfield ← match received with
    | some bitfield => pure bitfield
    | none => Bitfield.new p numPieces
  return { stream, choked := true, bitfield }

def onStream {α : Type} : Exec Reader ClientError α → Exec PeerClient ClientError α :=
  onField (·.stream) fun self stream => { self with stream }

def readMessage : Exec PeerClient ClientError (Option Message) :=
  onStream (mapErr .message Message.read)

def handleMessage (p : Profile) (msg : Message) : Exec PeerClient ClientError Unit := do
  let self ← readState
  match msg.id with
  | .choke => writeState { self with choked := true }
  | .unchoke => writeState { self with choked := false }
  | .have =>
      match msg.parseHave with
      | .ok piece => do
          let bitfield ← self.bitfield.setPiece p piece.toNat
          writeState { self with bitfield }
      | .error _ => return ()
  | _ => return ()

end PeerConnection
