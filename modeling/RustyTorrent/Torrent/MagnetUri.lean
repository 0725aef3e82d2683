import RustyTorrent.Library.PercentText
import RustyTorrent.Library.StrSlices

/- The magnet link parser of src/torrent/magnet.rs. A `&str` is the list of its characters,
   and every slice of the source is checked for character boundaries. -/
namespace MagnetUri
open RustExec PercentText StrSlices

inductive MagnetError where
  | invalidScheme
  | missingInfoHash
  | invalidInfoHash (length : Nat)
  | invalidUrn
  | hexDecode (text : String)
  deriving DecidableEq, Repr

structure MagnetLink where
  infoHash : Vector UInt8 20
  displayName : Option String
  trackers : List String
  deriving DecidableEq, Repr

/-- The character that an escape stands for. A malformed one is kept as it is. -/
def unescape (hex : List Char) : List Char :=
  match byteFromHex hex with
  | .ok byte => [Char.ofUInt8 byte]
  | .error _ => '%' :: hex

def urlDecode : List Char → List Char
  | [] => []
  | c :: rest =>
      if c = '%' then
        match rest with
        | high :: low :: rest => unescape [high, low] ++ urlDecode rest
        | short => unescape short
      else if c = '+' then ' ' :: urlDecode rest
      else c :: urlDecode rest

theorem urlDecode_plain {c : Char} {rest : List Char} (notPercent : c ≠ '%') (notPlus : c ≠ '+') :
    urlDecode (c :: rest) = c :: urlDecode rest := by
  rw [urlDecode.eq_def]
  simp [notPercent, notPlus]

theorem urlDecode_pair {high low : Char} {h l : Nat} {rest : List Char}
    (first : hexValue high = some h) (second : hexValue low = some l) :
    urlDecode ('%' :: high :: low :: rest) =
      Char.ofUInt8 (UInt8.ofNat (h * 16 + l)) :: urlDecode rest := by
  have read : byteFromHex [high, low] = .ok (UInt8.ofNat (h * 16 + l)) :=
    byteFromHex_two.mpr ⟨l, second, Or.inr ⟨h, first, rfl⟩⟩
  simp [urlDecode, unescape, read]

/-- "magnet:?" -/
def scheme : List Char := ['m', 'a', 'g', 'n', 'e', 't', ':', '?']

/-- "urn:btih:" -/
def urn : List Char := ['u', 'r', 'n', ':', 'b', 't', 'i', 'h', ':']

def keyXt : List Char := ['x', 't']
def keyDn : List Char := ['d', 'n']
def keyTr : List Char := ['t', 'r']

/-- The loop of parse_xt over the range of `remaining` bytes that starts at `i`. -/
def hashLoop (hashHex : List Char) :
    (i remaining : Nat) → Vector UInt8 20 → Exec Unit MagnetError (Vector UInt8 20)
  | _, 0, infoHash => return infoHash
  | i, remaining + 1, infoHash => do
      let digits ← sliceStr hashHex (i * 2) (i * 2 + 2)
      let byte ← ofExcept ((byteFromHex digits).mapError fun e => .hexDecode e.text)
      hashLoop hashHex (i + 1) remaining (infoHash.setIfInBounds i byte)

def parseXt (xt : List Char) : Exec Unit MagnetError (Vector UInt8 20) := do
  let hashHex ← okOr (urn.isPrefixOf? xt) .invalidUrn
  if byteLength hashHex ≠ 40 then fail (.invalidInfoHash (byteLength hashHex))
  else hashLoop hashHex 0 20 (.replicate 20 0)

def splitParam (pair : List Char) : List Char × List Char :=
  ((splitFirst '=' pair).1, (splitFirst '=' pair).2.getD [])

def parse (uri : List Char) : Exec Unit MagnetError MagnetLink :=
  if ¬ scheme.isPrefixOf uri then fail .invalidScheme
  else do
    let query ← sliceStr uri 8 (byteLength uri)
    let params := (query.splitOn '&').map splitParam
    let xt ← okOr ((params.find? fun param => param.1 = keyXt).map Prod.snd) .missingInfoHash
    let infoHash ← parseXt xt
    let displayName := (params.find? fun param => param.1 = keyDn).map fun param =>
      String.ofList (urlDecode param.2)
    let trackers := (params.filter fun param => param.1 = keyTr).map fun param =>
      String.ofList (urlDecode param.2)
    return { infoHash, displayName, trackers }

def MagnetLink.infoHashHex (self : MagnetLink) : List Char := self.infoHash.toList.flatMap lowerHex

end MagnetUri
