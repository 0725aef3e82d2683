import RustyTorrent.Library.BigEndian
import RustyTorrent.Library.ByteStreams

/- The wire messages of src/peer/message.rs. The builders for outgoing messages and the
   writer are left out. -/
namespace PeerMessage
open RustExec BigEndian ByteStreams

inductive MessageId where
  | choke
  | unchoke
  | interested
  | notInterested
  | have
  | bitfield
  | request
  | piece
  | cancel
  deriving DecidableEq, Repr

inductive MessageError where
  | io
  | invalidId (byte : UInt8)
  | tooLarge (length : UInt32)
  | unexpectedType (expected : String) (got : UInt8)
  | payloadTooShort (msgType : String) (need got : Nat)
  | indexMismatch (expected got : UInt32)
  deriving DecidableEq, Repr

def MessageId.toByte : MessageId → UInt8
  | .choke => 0
  | .unchoke => 1
  | .interested => 2
  | .notInterested => 3
  | .have => 4
  | .bitfield => 5
  | .request => 6
  | .piece => 7
  | .cancel => 8

def MessageId.fromByte (byte : UInt8) : Except MessageError MessageId :=
  match byte with
  | 0 => .ok .choke
  | 1 => .ok .unchoke
  | 2 => .ok .interested
  | 3 => .ok .notInterested
  | 4 => .ok .have
  | 5 => .ok .bitfield
  | 6 => .ok .request
  | 7 => .ok .piece
  | 8 => .ok .cancel
  | other => .error (.invalidId other)

structure Message where
  id : MessageId
  payload : ByteSeq
  deriving DecidableEq, Repr

/-- 16 MiB -/
def maxMessageSize : UInt32 := 16777216

namespace Message

def serialize (p : Profile) (self : Message) : Exec Unit MessageError Bytes := do
  let length ← unsigned p 32 (1 + self.payload.bytes.length % 2 ^ 32 : Nat)
  let _ ← usizeAdd p 4 length
  return toBe 4 length ++ self.id.toByte :: self.payload.bytes

theorem u32_fits (length : UInt32) : length.toNat < 2 ^ 63 := by
  have := length.toNat_lt
  omega

def read : Exec Reader MessageError (Option Message) := do
  let lenBuf ← readExact .io 4 (by decide)
  let length := UInt32.ofNat (ofBe lenBuf.bytes)
  if length = 0 then return none
  else if length > maxMessageSize then fail (.tooLarge length)
  else do
    let msgBuf ← readExact .io length.toNat (u32_fits length)
    let byte ← index msgBuf.bytes 0
    let id ← ofExcept (MessageId.fromByte byte)
    let _ ← slice msgBuf.bytes 1 msgBuf.bytes.length
    return some ⟨id, msgBuf.drop 1⟩

/-- `Buf::get_u32` of a byte slice: the number and the slice behind it. -/
def getU32 {σ ε : Type} (bytes : Bytes) : Exec σ ε (UInt32 × Bytes) :=
  if 4 ≤ bytes.length then pure (UInt32.ofNat (ofBe (bytes.take 4)), bytes.drop 4)
  else panicWith .bounds

def parseHave (self : Message) : Except MessageError UInt32 :=
  if self.id ≠ .have then .error (.unexpectedType "have" self.id.toByte)
  else if self.payload.bytes.length < 4 then
    .error (.payloadTooShort "have" 4 self.payload.bytes.length)
  else .ok (UInt32.ofNat (ofBe (self.payload.bytes.take 4)))

/-- `copy_from_slice` into a range of the buffer. -/
def copyInto (start stop : Nat) (block : Bytes) : Exec Bytes MessageError Unit := do
  let buf ← readState
  let target ← slice buf start stop
  if target.length = block.length then
    writeState (buf.take start ++ block ++ buf.drop stop)
  else panicWith .bounds

def parsePiece (p : Profile) (self : Message) (expectedIndex : UInt32) :
    Exec Bytes MessageError Nat := do
  if self.id ≠ .piece then fail (.unexpectedType "piece" self.id.toByte)
  else if self.payload.bytes.length < 8 then
    fail (.payloadTooShort "piece" 8 self.payload.bytes.length)
  else do
    let (pieceIndex, rest) ← getU32 self.payload.bytes
    let (start, _) ← getU32 rest
    if pieceIndex ≠ expectedIndex then fail (.indexMismatch expectedIndex pieceIndex)
    else do
      let block ← slice self.payload.bytes 8 self.payload.bytes.length
      let buf ← readState
      let bound ← usizeAdd p start.toNat block.length
      if bound > buf.length then do
        let need ← usizeAdd p start.toNat block.length
        fail (.payloadTooShort "piece data" need buf.length)
      else do
        let stop ← usizeAdd p start.toNat block.length
        copyInto start.toNat stop block
        return block.length

end Message

end PeerMessage
