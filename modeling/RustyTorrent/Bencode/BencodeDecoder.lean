import RustyTorrent.Bencode.BencodeValue
import RustyTorrent.Library.Numerals

/- The cursor decoder of src/bencode/decoder.rs. Every usize addition, slice and index of
   the source goes through the checked operation of the same meaning, and every parse
   function reports its cursor on entry. Recursion and loops run on fuel. -/
namespace BencodeDecoder
open RustExec OrderedMaps Utf8Text Numerals BencodeValue

inductive DecodeError where
  | unexpectedEof (pos : Nat)
  | invalidInteger (pos : Nat)
  | invalidStringLength (pos : Nat)
  | unexpectedByte (byte : UInt8) (pos : Nat)
  | invalidDictKey (pos : Nat)
  | trailingData (pos : Nat)
  deriving DecidableEq, Repr

structure Decoder where
  data : Bytes
  pos : Nat
  deriving DecidableEq, Repr

def Decoder.new (data : Bytes) : Decoder := ⟨data, 0⟩

/- b'i', b'l', b'd', b'e' and b':' -/
def letterI : UInt8 := 0x69
def letterL : UInt8 := 0x6c
def letterD : UInt8 := 0x64
def letterE : UInt8 := 0x65
def colon : UInt8 := 0x3a

def peek : Exec Decoder DecodeError UInt8 := do
  let self ← readState
  okOr self.data[self.pos]? (.unexpectedEof self.pos)

def advance (p : Profile) : Exec Decoder DecodeError UInt8 := do
  let byte ← peek
  let self ← readState
  let pos ← usizeAdd p self.pos 1
  writeState { self with pos }
  return byte

def expect (p : Profile) (expected : UInt8) : Exec Decoder DecodeError Unit := do
  let byte ← advance p
  if byte ≠ expected then do
    let self ← readState
    let before ← usizeSub p self.pos 1
    fail (.unexpectedByte byte before)
  else return ()

/-- The loop that parse_integer and parse_bytes share: stop at a byte or at the end. -/
def scanUntil (p : Profile) (stop : UInt8) : Nat → Exec Decoder DecodeError Unit
  | 0 => exhaust
  | fuel + 1 => do
      let self ← readState
      if self.pos < self.data.length then do
        let byte ← index self.data self.pos
        if byte ≠ stop then do
          let pos ← usizeAdd p self.pos 1
          writeState { self with pos }
          scanUntil p stop fuel
        else return ()
      else return ()

def parseInteger (p : Profile) : Exec Decoder DecodeError Value := do
  let self ← readState
  enter self.pos self.data.length
  expect p letterI
  let self ← readState
  let start := self.pos
  scanUntil p letterE (self.data.length + 1)
  let self ← readState
  let raw ← slice self.data start self.pos
  let numStr ← okOr (fromUtf8 raw) (.invalidInteger start)
  let num ← okOr (parseI64 (utf8Bytes numStr)) (.invalidInteger start)
  expect p letterE
  return .integer num

/-- The end of parse_bytes, once the length is read and the colon is passed. -/
def takeBytes (p : Profile) (length : Nat) : Exec Decoder DecodeError Value := do
  let self ← readState
  let bound ← usizeAdd p self.pos length
  if bound > self.data.length then fail (.unexpectedEof self.pos)
  else do
    let stop ← usizeAdd p self.pos length
    let bytes ← slice self.data self.pos stop
    let pos ← usizeAdd p self.pos length
    writeState { self with pos }
    return .bytes bytes

def parseBytes (p : Profile) : Exec Decoder DecodeError Value := do
  let self ← readState
  enter self.pos self.data.length
  let start := self.pos
  scanUntil p colon (self.data.length + 1)
  let self ← readState
  let raw ← slice self.data start self.pos
  let lenStr ← okOr (fromUtf8 raw) (.invalidStringLength start)
  let length ← okOr (parseUsize (utf8Bytes lenStr)) (.invalidStringLength start)
  expect p colon
  takeBytes p length

mutual

def parseValueFuel (p : Profile) : Nat → Exec Decoder DecodeError Value
  | 0 => exhaust
  | fuel + 1 => do
      let self ← readState
      enter self.pos self.data.length
      let byte ← peek
      if byte = letterI then parseInteger p
      else if byte = letterL then parseListFuel p fuel
      else if byte = letterD then parseDictFuel p fuel
      else if isDigit byte then parseBytes p
      else fail (.unexpectedByte byte self.pos)

def parseListFuel (p : Profile) : Nat → Exec Decoder DecodeError Value
  | 0 => exhaust
  | fuel + 1 => do
      let self ← readState
      enter self.pos self.data.length
      expect p letterL
      let items ← parseItems p fuel []
      expect p letterE
      return .list items

/-- The loop of parse_list. -/
def parseItems (p : Profile) : Nat → List Value → Exec Decoder DecodeError (List Value)
  | 0, _ => exhaust
  | fuel + 1, items => do
      let byte ← peek
      if byte ≠ letterE then do
        let item ← parseValueFuel p fuel
        parseItems p fuel (items ++ [item])
      else return items

def parseDictFuel (p : Profile) : Nat → Exec Decoder DecodeError Value
  | 0 => exhaust
  | fuel + 1 => do
      let self ← readState
      enter self.pos self.data.length
      expect p letterD
      let map ← parseEntries p fuel OrderedMap.empty
      expect p letterE
      return .dict map

/-- The loop of parse_dict. -/
def parseEntries (p : Profile) :
    Nat → OrderedMap Bytes Value → Exec Decoder DecodeError (OrderedMap Bytes Value)
  | 0, _ => exhaust
  | fuel + 1, map => do
      let byte ← peek
      if byte ≠ letterE then do
        let self ← readState
        let keyPos := self.pos
        let keyVal ← parseValueFuel p fuel
        match keyVal with
        | .bytes key => do
            let value ← parseValueFuel p fuel
            parseEntries p fuel (map.insert key value)
        | _ => fail (.invalidDictKey keyPos)
      else return map

end

def fuelFor (length : Nat) : Nat := 3 * length + 1

def parseValue (p : Profile) : Exec Decoder DecodeError Value := do
  let self ← readState
  parseValueFuel p (fuelFor self.data.length)

def decode (p : Profile) (data : ByteSeq) : Exec Unit DecodeError Value := do
  let (value, decoder) ← within (Decoder.new data.bytes) (parseValue p)
  if decoder.pos ≠ data.bytes.length then fail (.trailingData decoder.pos)
  else return value

def decodePartial (p : Profile) (data : ByteSeq) : Exec Unit DecodeError (Value × Nat) := do
  let (value, decoder) ← within (Decoder.new data.bytes) (parseValue p)
  return (value, decoder.pos)

end BencodeDecoder
