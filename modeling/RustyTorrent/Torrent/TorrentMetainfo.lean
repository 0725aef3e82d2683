import RustyTorrent.Bencode.BencodeDecoder

/- The metainfo parser of src/torrent/metainfo.rs. SHA-1 is a parameter. Reading the file
   from disk, the output path and the printed size are left out. -/
namespace TorrentMetainfo
open RustExec OrderedMaps Utf8Text BencodeValue BencodeDecoder

abbrev Digest := Vector UInt8 20

inductive MetainfoError where
  | decode (error : DecodeError)
  | missingField (name : String)
  | invalidField (name : String)
  | malformedPieces (length : Nat)
  | infoDictNotFound
  deriving DecidableEq, Repr

structure FileInfo where
  length : UInt64
  path : List String
  deriving DecidableEq, Repr

structure Metainfo where
  announce : String
  announceList : List (List String)
  infoHash : Digest
  name : String
  pieceLength : UInt64
  pieceHashes : List Digest
  totalLength : UInt64
  files : List FileInfo
  isSingleFile : Bool
  deriving DecidableEq, Repr

/-- b"4:infod" -/
def infoKey : Bytes := [0x34, 0x3a, 0x69, 0x6e, 0x66, 0x6f, 0x64]

/-- The scan for the info key over the range of `remaining` places that starts at `i`. -/
def scanInfoKey (p : Profile) (data : Bytes) :
    (i remaining : Nat) → Exec Unit MetainfoError (Option Nat)
  | _, 0 => return none
  | i, remaining + 1 => do
      let stop ← usizeAdd p i infoKey.length
      let window ← slice data i stop
      if window = infoKey then do
        let pos ← usizeAdd p i 6
        return some pos
      else scanInfoKey p data (i + 1) remaining

/-- The slice that is hashed, with the place where it starts. -/
def infoSlice (p : Profile) (data : ByteSeq) : Exec Unit MetainfoError (Nat × Bytes) := do
  let pos ← scanInfoKey p data.bytes 0 (data.bytes.length - infoKey.length)
  let start ← okOr pos .infoDictNotFound
  let _ ← slice data.bytes start data.bytes.length
  let (_, consumed) ← mapErr .decode (decodePartial p (data.drop start))
  let stop ← usizeAdd p start consumed
  let infoBytes ← slice data.bytes start stop
  return (start, infoBytes)

def computeInfoHash (p : Profile) (sha1 : Bytes → Digest) (data : ByteSeq) :
    Exec Unit MetainfoError Digest := do
  let (_, infoBytes) ← infoSlice p data
  return sha1 infoBytes

/-- `copy_from_slice` into an array of twenty bytes. -/
def copyDigest (bytes : Bytes) : Exec Unit MetainfoError Digest :=
  if size : bytes.length = 20 then pure ⟨bytes.toArray, by simpa using size⟩
  else panicWith .bounds

/-- The loop of split_piece_hashes over the range of `remaining` pieces that starts at `i`. -/
def splitLoop (p : Profile) (raw : Bytes) :
    (i remaining : Nat) → List Digest → Exec Unit MetainfoError (List Digest)
  | _, 0, hashes => return hashes
  | i, remaining + 1, hashes => do
      let start ← unsigned p 64 (i * 20 : Nat)
      let next ← usizeAdd p i 1
      let stop ← unsigned p 64 (next * 20 : Nat)
      let bytes ← slice raw start stop
      let hash ← copyDigest bytes
      splitLoop p raw (i + 1) remaining (hashes ++ [hash])

def splitPieceHashes (p : Profile) (raw : Bytes) : Exec Unit MetainfoError (List Digest) :=
  if raw.length % 20 ≠ 0 then fail (.malformedPieces raw.length)
  else splitLoop p raw 0 (raw.length / 20) []

def parseAnnounceList (root : Value) : List (List String) :=
  (((root.getStr "announce-list").bind Value.asList).map fun tiers =>
    tiers.filterMap fun tier =>
      tier.asList.map fun urls => urls.filterMap Value.asStr).getD []

/-- The body of the loop over the files of a multi-file torrent. -/
def parseFile (fileVal : Value) : Exec Unit MetainfoError FileInfo := do
  let _ ← okOr fileVal.asDict (.invalidField "info.files[].dict")
  let length ← okOr ((fileVal.getStr "length").bind Value.asInteger)
    (.missingField "info.files[].length")
  let pathList ← okOr ((fileVal.getStr "path").bind Value.asList)
    (.missingField "info.files[].path")
  return ⟨length.toUInt64, pathList.filterMap Value.asStr⟩

def parseFiles (p : Profile) :
    List Value → List FileInfo → Nat → Exec Unit MetainfoError (List FileInfo × Nat)
  | [], files, total => return (files, total)
  | fileVal :: rest, files, total => do
      let file ← parseFile fileVal
      let total ← unsigned p 64 (total + file.length.toNat : Nat)
      parseFiles p rest (files ++ [file]) total

/-- The files, their total length and whether the torrent has the single-file layout. -/
def parseLayout (p : Profile) (info : Value) (name : String) :
    Exec Unit MetainfoError (List FileInfo × UInt64 × Bool) :=
  match info.getStr "length" with
  | some lengthVal => do
      let length ← okOr lengthVal.asInteger (.invalidField "info.length")
      return ([⟨length.toUInt64, [name]⟩], length.toUInt64, true)
  | none =>
    match info.getStr "files" with
    | some filesVal => do
        let fileList ← okOr filesVal.asList (.invalidField "info.files")
        let (files, total) ← parseFiles p fileList [] 0
        return (files, UInt64.ofNat total, false)
    | none => fail (.missingField "info.length or info.files")

def fromBytes (p : Profile) (sha1 : Bytes → Digest) (data : ByteSeq) :
    Exec Unit MetainfoError Metainfo := do
  let value ← mapErr .decode (decode p data)
  let _ ← okOr value.asDict (.invalidField "root")
  let announce := ((value.getStr "announce").bind Value.asStr).getD ""
  let announceList := parseAnnounceList value
  let info ← okOr (value.getStr "info") (.missingField "info")
  let _ ← okOr info.asDict (.invalidField "info")
  let infoHash ← computeInfoHash p sha1 data
  let name ← okOr ((info.getStr "name").bind Value.asStr) (.missingField "info.name")
  let pieceLength ← okOr ((info.getStr "piece length").bind Value.asInteger)
    (.missingField "info.piece length")
  let piecesRaw ← okOr ((info.getStr "pieces").bind Value.asBytes) (.missingField "info.pieces")
  let pieceHashes ← splitPieceHashes p piecesRaw
  let (files, totalLength, isSingleFile) ← parseLayout p info name
  return { announce, announceList, infoHash, name, pieceLength := pieceLength.toUInt64,
           pieceHashes, totalLength, files, isSingleFile }

/-- The length of a piece. The subtraction saturates at zero. -/
def Metainfo.pieceSize (m : Metainfo) (p : Profile) (index : Nat) :
    Exec Unit MetainfoError UInt64 := do
  let start ← unsigned p 64 (index * m.pieceLength.toNat : Nat)
  let remaining := m.totalLength.toNat - start
  return UInt64.ofNat (min m.pieceLength.toNat remaining)

end TorrentMetainfo
