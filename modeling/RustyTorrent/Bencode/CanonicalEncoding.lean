import RustyTorrent.Bencode.BencodeRecognition

/- The canonical encoding that the documentation of `Value` describes, as the reference for
   the decoder. The source has no encoder of its own. -/
namespace CanonicalEncoding
open RustExec OrderedMaps Numerals BencodeValue BencodeDecoder BencodeGrammar BencodeRecognition

def encBytes (b : Bytes) : Bytes := decimal b.length ++ colon :: b

mutual

def enc : Value → Bytes
  | .integer n => letterI :: decimalInt n.toInt ++ [letterE]
  | .bytes b => encBytes b
  | .list items => letterL :: encItems items ++ [letterE]
  | .dict map => letterD :: encEntries map ++ [letterE]

def encItems : List Value → Bytes
  | [] => []
  | item :: items => enc item ++ encItems items

/-- The keys of a map ascend bytewise, so its entries are written in that order. -/
def encEntries : {low : Option Bytes} → Entries Bytes Value low → Bytes
  | _, .nil => []
  | _, .cons key value _ rest => encBytes key ++ enc value ++ encEntries rest

end

def encPair (pair : Bytes × Value) : Bytes := encBytes pair.1 ++ enc pair.2

def encBefore (key : Bytes) (map : OrderedMap Bytes Value) : Bytes :=
  (map.toList.takeWhile fun pair => pair.1 < key).flatMap encPair

theorem encEntries_eq {low : Option Bytes} (entries : Entries Bytes Value low) :
    encEntries entries = entries.toList.flatMap encPair := by
  induction entries with
  | nil => simp [encEntries, Entries.toList]
  | cons key value above rest ih => simp [encEntries, Entries.toList, encPair, ih]

theorem encEntries_split {map : OrderedMap Bytes Value} {key : Bytes} {value : Value}
    (found : map.get key = some value) :
    ∃ after, encEntries map = encBefore key map ++ encBytes key ++ enc value ++ after := by
  obtain ⟨before, after, split, smaller, _⟩ := split_at_key map found
  have taken : (map.toList.takeWhile fun pair => pair.1 < key) = before := by
    rw [split, List.takeWhile_append_of_pos (by simpa using smaller)]
    simp
  refine ⟨after.flatMap encPair, ?_⟩
  rw [encEntries_eq, encBefore, taken, split]
  simp [encPair]

theorem encBytes_spelled (b : Bytes) (fits : (encBytes b).length < 2 ^ 63) :
    Spells (.value (.bytes b)) (encBytes b) := by
  have small : b.length < 2 ^ 64 := by
    simp only [encBytes, List.length_append, List.length_cons] at fits
    omega
  have reads := parseUsize_decimal small
  have digits := decimal_digits b.length
  unfold encBytes
  cases h : decimal b.length with
  | nil => exact absurd h (decimal_ne_nil b.length)
  | cons c raw =>
    rw [h] at reads digits
    exact .bytes (digits c (by simp)) reads

mutual

theorem enc_spelled : (v : Value) → (enc v).length < 2 ^ 63 → Spells (.value v) (enc v)
  | .integer n, _ => .integer (parseI64_decimalInt n)
  | .bytes b, fits => encBytes_spelled b fits
  | .list items, fits => by
      have inner : (encItems items).length < 2 ^ 63 := by
        simp only [enc, List.length_append, List.length_cons] at fits
        omega
      exact .list (encItems_spelled items inner)
  | .dict map, fits => by
      have inner : (encEntries map).length < 2 ^ 63 := by
        simp only [enc, List.length_append, List.length_cons] at fits
        omega
      have whole := Spells.dict (encEntries_spelled map inner)
      rwa [ofPairs_toList] at whole

theorem encItems_spelled : (items : List Value) → (encItems items).length < 2 ^ 63 →
    Spells (.items items) (encItems items)
  | [], _ => .noItems
  | item :: items, fits => by
      simp only [encItems, List.length_append] at fits
      exact .item (enc_spelled item (by omega)) (encItems_spelled items (by omega))

theorem encEntries_spelled : {low : Option Bytes} → (entries : Entries Bytes Value low) →
    (encEntries entries).length < 2 ^ 63 → Spells (.pairs entries.toList) (encEntries entries)
  | _, .nil, _ => .noPairs
  | _, .cons key value _ rest, fits => by
      simp only [encEntries, List.length_append] at fits
      exact .pair (encBytes_spelled key (by omega)) (enc_spelled value (by omega))
        (encEntries_spelled rest (by omega))

end

theorem decode_enc {p : Profile} (v : Value) (fits : (enc v).length < 2 ^ 63) :
    Returns (decode p ⟨enc v, fits⟩) () v () :=
  decodes_value.mpr (enc_spelled v fits)

theorem decode_enc_nested :
    let map := OrderedMap.ofPairs
      [([0x62], .list [.integer (-1)]), ([0x61], .bytes [0x69, 0x31, 0x65])]
    (enc (.dict map)).length < 2 ^ 63 ∧ ∃ fits,
      Returns (decode .release ⟨enc (.dict map), fits⟩) () (.dict map) () :=
  ⟨by decide +kernel, by decide +kernel, decode_enc _ _⟩

end CanonicalEncoding
