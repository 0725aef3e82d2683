import RustyTorrent.Bencode.CanonicalEncoding
import RustyTorrent.Torrent.InfoHashSpan
import RustyTorrent.Torrent.PieceTable

/- Torrents by description, their canonical encoding, and what from_bytes makes of it. -/
namespace CanonicalTorrent
open RustExec OrderedMaps Utf8Text Numerals BencodeValue BencodeDecoder BencodeGrammar
  BencodeRecognition CanonicalEncoding EntrySpans TorrentMetainfo AcceptedTorrent PieceTable
  InfoHashSpan

structure FileDescription where
  length : Nat
  fits : length < 2 ^ 63
  path : List String

inductive Layout where
  | single (length : Nat) (fits : length < 2 ^ 63)
  | multi (files : List FileDescription) (sum : (files.map FileDescription.length).sum < 2 ^ 64)

namespace Layout

def totalLength : Layout → Nat
  | .single length _ => length
  | .multi files _ => (files.map FileDescription.length).sum

/-- Every file with its length. The single-file layout has one, under the torrent's name. -/
def files (name : String) : Layout → List (Nat × List String)
  | .single length _ => [(length, [name])]
  | .multi files _ => files.map fun file => (file.length, file.path)

def isSingle : Layout → Bool
  | .single _ _ => true
  | .multi _ _ => false

/-- The keys of info that the parser looks up: it does not ask for files when there is a
    length. -/
def lookedUp : Layout → List String
  | .single _ _ => ["name", "piece length", "pieces", "length"]
  | .multi _ _ => ["name", "piece length", "pieces", "length", "files"]

end Layout

structure Description where
  announce : String
  announceList : Option (List (List String))
  name : String
  pieceLength : Nat
  positive : 0 < pieceLength
  fits : pieceLength < 2 ^ 63
  pieces : List Digest
  layout : Layout
  rootExtra : OrderedMap Bytes Value
  infoExtra : OrderedMap Bytes Value
  rootFree : ∀ key ∈ ["announce", "announce-list", "info"], rootExtra.get (utf8Bytes key) = none
  infoFree : ∀ key ∈ layout.lookedUp, infoExtra.get (utf8Bytes key) = none

def number (n : Nat) : Value := .integer (Int64.ofNat n)

def text (s : String) : Value := .bytes (utf8Bytes s)

def fileValue (file : FileDescription) : Value :=
  .dict (OrderedMap.ofPairs
    [(utf8Bytes "length", number file.length), (utf8Bytes "path", .list (file.path.map text))])

def layoutPair : Layout → Bytes × Value
  | .single length _ => (utf8Bytes "length", number length)
  | .multi files _ => (utf8Bytes "files", .list (files.map fileValue))

namespace Description

def infoMap (d : Description) : OrderedMap Bytes Value :=
  d.infoExtra.insertAll
    [(utf8Bytes "name", text d.name), (utf8Bytes "piece length", number d.pieceLength),
      (utf8Bytes "pieces", .bytes (d.pieces.flatMap Vector.toList)), layoutPair d.layout]

def rootMap (d : Description) : OrderedMap Bytes Value :=
  match d.announceList with
  | none =>
      d.rootExtra.insertAll
        [(utf8Bytes "announce", text d.announce), (infoName, .dict d.infoMap)]
  | some tiers =>
      d.rootExtra.insertAll
        [(utf8Bytes "announce", text d.announce), (infoName, .dict d.infoMap),
          (utf8Bytes "announce-list", .list (tiers.map fun tier => .list (tier.map text)))]

def encode (d : Description) : Bytes := enc (.dict d.rootMap)

end Description

variable {p : Profile} {sha1 : Bytes → Digest}

theorem dict_getStr (map : OrderedMap Bytes Value) (key : String) :
    (Value.dict map).getStr key = map.get (utf8Bytes key) := rfl

theorem rootMap_announce (d : Description) :
    d.rootMap.get (utf8Bytes "announce") = some (text d.announce) := by
  unfold Description.rootMap
  cases d.announceList <;> simp [OrderedMap.insertAll, get_insert, infoName]

theorem rootMap_info (d : Description) : d.rootMap.get infoName = some (.dict d.infoMap) := by
  unfold Description.rootMap
  cases d.announceList <;> simp [OrderedMap.insertAll, get_insert, infoName]

theorem rootMap_announceList (d : Description) :
    d.rootMap.get (utf8Bytes "announce-list") =
      d.announceList.map fun tiers => .list (tiers.map fun tier => .list (tier.map text)) := by
  have free := d.rootFree "announce-list" (by simp)
  unfold Description.rootMap
  cases d.announceList <;> simp [OrderedMap.insertAll, get_insert, infoName, free]

theorem infoMap_name (d : Description) : d.infoMap.get (utf8Bytes "name") = some (text d.name) := by
  cases h : d.layout <;> simp [Description.infoMap, h, layoutPair, OrderedMap.insertAll, get_insert]

theorem infoMap_pieceLength (d : Description) :
    d.infoMap.get (utf8Bytes "piece length") = some (number d.pieceLength) := by
  cases h : d.layout <;> simp [Description.infoMap, h, layoutPair, OrderedMap.insertAll, get_insert]

theorem infoMap_pieces (d : Description) :
    d.infoMap.get (utf8Bytes "pieces") = some (.bytes (d.pieces.flatMap Vector.toList)) := by
  cases h : d.layout <;> simp [Description.infoMap, h, layoutPair, OrderedMap.insertAll, get_insert]

theorem asStr_text (s : String) : (text s).asStr = some s := as_str_of_text s

theorem texts_read (strings : List String) :
    (strings.map text).filterMap Value.asStr = strings := by
  induction strings with
  | nil => rfl
  | cons s rest ih => simp [asStr_text, ih]

theorem announceList_read (d : Description) :
    parseAnnounceList (.dict d.rootMap) = d.announceList.getD [] := by
  unfold parseAnnounceList
  rw [dict_getStr, rootMap_announceList]
  cases d.announceList with
  | none => rfl
  | some tiers =>
    change (tiers.map fun tier => Value.list (tier.map text)).filterMap
      (fun tier => tier.asList.map fun urls => urls.filterMap Value.asStr) = tiers
    rw [List.filterMap_map]
    change tiers.filterMap (fun tier => some ((tier.map text).filterMap Value.asStr)) = tiers
    simp only [texts_read, List.filterMap_some]

theorem number_toUInt64 {n : Nat} (fits : n < 2 ^ 63) : (Int64.ofNat n).toUInt64.toNat = n := by
  change (UInt64.ofNat n).toNat = n
  rw [UInt64.toNat_ofNat']
  omega

theorem parseFile_fileValue (file : FileDescription) {u : Unit} {read : FileInfo} :
    Returns (parseFile (fileValue file)) () read u ↔
      read = ⟨(Int64.ofNat file.length).toUInt64, file.path⟩ := by
  have length : (fileValue file).getStr "length" = some (number file.length) := by
    simp [fileValue, dict_getStr, OrderedMap.ofPairs, OrderedMap.insertAll, get_insert]
  have path : (fileValue file).getStr "path" = some (.list (file.path.map text)) := by
    simp [fileValue, dict_getStr, OrderedMap.ofPairs, OrderedMap.insertAll, get_insert]
  rw [parseFile, length, path]
  simp only [fileValue, Value.asDict, returns_okOr_bind, Option.bind_some, number,
    Value.asInteger, Value.asList, texts_read, returns_pure, Option.some.injEq, exists_eq_left']
  simp [eq_comm]

theorem parseFiles_files (files : List FileDescription) {acc : List FileInfo} {total : Nat}
    (fits : total + (files.map FileDescription.length).sum < 2 ^ 64) :
    Returns (parseFiles p (files.map fileValue) acc total) ()
      (acc ++ files.map fun file => ⟨(Int64.ofNat file.length).toUInt64, file.path⟩,
        total + (files.map FileDescription.length).sum) () := by
  induction files generalizing acc total with
  | nil => simp [parseFiles]
  | cons file rest ih =>
    simp only [List.map_cons, List.sum_cons] at fits
    rw [List.map_cons, parseFiles, returns_bind_step ((parseFile_fileValue file).mpr rfl)]
    dsimp only
    rw [number_toUInt64 file.fits, returns_unsigned_nat_bind (by omega)]
    have later := @ih (acc ++ [⟨(Int64.ofNat file.length).toUInt64, file.path⟩])
      (total + file.length) (by omega)
    simpa [Nat.add_assoc] using later

def ReadsLayout (layout : Layout) (name : String) (files : List FileInfo) (total : UInt64)
    (single : Bool) : Prop :=
  (files.map fun file => (file.length.toNat, file.path)) = layout.files name ∧
    total.toNat = layout.totalLength ∧ single = layout.isSingle

theorem layout_read (d : Description) :
    ∃ files total single, Returns (parseLayout p (.dict d.infoMap) d.name) ()
        (files, total, single) () ∧ ReadsLayout d.layout d.name files total single := by
  unfold parseLayout
  rw [dict_getStr, dict_getStr]
  cases h : d.layout with
  | single length fits =>
    have found : d.infoMap.get (utf8Bytes "length") = some (number length) := by
      simp [Description.infoMap, h, layoutPair, OrderedMap.insertAll, get_insert]
    rw [found]
    refine ⟨_, _, _, returns_okOr_bind.mpr ⟨_, rfl, returns_value _ _⟩, ?_⟩
    have exact := number_toUInt64 fits
    exact ⟨by simp only [List.map_cons, List.map_nil, exact, Layout.files], exact, rfl⟩
  | multi files sum =>
    have free := d.infoFree "length" (by simp [h, Layout.lookedUp])
    have none : d.infoMap.get (utf8Bytes "length") = none := by
      simp [Description.infoMap, h, layoutPair, OrderedMap.insertAll, get_insert, free]
    have found : d.infoMap.get (utf8Bytes "files") = some (.list (files.map fileValue)) := by
      simp [Description.infoMap, h, layoutPair, OrderedMap.insertAll, get_insert]
    rw [none, found]
    have loop := @parseFiles_files p files [] 0 (by simpa using sum)
    refine ⟨files.map fun file => ⟨(Int64.ofNat file.length).toUInt64, file.path⟩,
      UInt64.ofNat (files.map FileDescription.length).sum, false,
      returns_okOr_bind.mpr ⟨_, rfl, ?_⟩, ?_, ?_, rfl⟩
    · rw [returns_bind_step loop]
      exact returns_pure.mpr ⟨by simp, rfl⟩
    · rw [List.map_map]
      apply List.map_congr_left
      intro file member
      simp only [Function.comp_apply, number_toUInt64 file.fits]
    · rw [UInt64.toNat_ofNat', Nat.mod_eq_of_lt sum]
      rfl

theorem encode_split (d : Description) :
    ∃ post, post ≠ [] ∧ d.encode = (letterD :: encBefore infoName d.rootMap) ++ infoHead ++
      enc (.dict d.infoMap) ++ post := by
  obtain ⟨after, split⟩ := encEntries_split (rootMap_info d)
  have key : encBytes infoName = infoHead := by decide +kernel
  refine ⟨after ++ [letterE], by simp, ?_⟩
  rw [Description.encode, enc, split, key]
  simp

theorem pieces_length (d : Description) :
    (d.pieces.flatMap Vector.toList).length ≤ (enc (.dict d.infoMap)).length := by
  obtain ⟨after, split⟩ := encEntries_split (infoMap_pieces d)
  rw [enc, split]
  simp only [enc, encBytes, List.length_append, List.length_cons]
  omega

theorem canonical_torrent_parses (d : Description) (fits : d.encode.length < 2 ^ 63)
    (first : ∀ i, Occurs d.encode i → (letterD :: encBefore infoName d.rootMap).length ≤ i) :
    ∃ m, Returns (fromBytes p sha1 ⟨d.encode, fits⟩) () m () ∧ m.name = d.name ∧
      m.pieceLength.toNat = d.pieceLength ∧ m.pieceHashes = d.pieces ∧
      (m.files.map fun file => (file.length.toNat, file.path)) = d.layout.files d.name ∧
      m.totalLength.toNat = d.layout.totalLength ∧ m.isSingleFile = d.layout.isSingle ∧
      m.announce = d.announce ∧ m.announceList = d.announceList.getD [] ∧
      m.infoHash = sha1 (enc (.dict d.infoMap)) := by
  obtain ⟨post, closed, whole⟩ := encode_split d
  obtain ⟨files, total, single, layout, listed, sum, single_iff⟩ := @layout_read p d
  have lengths := congrArg List.length whole
  simp only [List.length_append] at lengths
  have pieces := pieces_length d
  have spelled : Spells (.value (.dict d.infoMap)) (enc (.dict d.infoMap)) :=
    enc_spelled _ (by omega)
  have decoded : Returns (decode p ⟨d.encode, fits⟩) () (.dict d.rootMap) () :=
    decodes_value.mpr (enc_spelled _ fits)
  have hashed : Returns (computeInfoHash p sha1 ⟨d.encode, fits⟩) ()
      (sha1 (enc (.dict d.infoMap))) () := by
    rw [computeInfoHash_eq_map, returns_map]
    exact ⟨_, (infoSlice_iff_first whole closed spelled).mpr first, rfl⟩
  have split : Returns (splitPieceHashes p (d.pieces.flatMap Vector.toList)) () d.pieces () :=
    (returns_splitPieceHashes (by omega)).mpr rfl
  refine ⟨⟨d.announce, d.announceList.getD [], sha1 (enc (.dict d.infoMap)), d.name,
    (Int64.ofNat d.pieceLength).toUInt64, d.pieces, total, files, single⟩, ?_, rfl,
    number_toUInt64 d.fits, rfl, listed, sum, single_iff, rfl, rfl, rfl⟩
  refine returns_fromBytes.mpr ⟨d.rootMap, d.infoMap, d.pieces.flatMap Vector.toList,
    Int64.ofNat d.pieceLength, decoded, rootMap_info d, ?_, ?_, hashed, infoMap_name d,
    infoMap_pieceLength d, rfl, infoMap_pieces d, split, layout⟩
  · rw [dict_getStr, rootMap_announce, Option.bind_some, asStr_text]
    rfl
  · rw [announceList_read]

def twoFiles : Description where
  announce := "http://t/a"
  announceList := some [["http://t/a", "udp://t:1"], []]
  name := "dir"
  pieceLength := 16384
  positive := by decide
  fits := by decide
  pieces := [Vector.replicate 20 7]
  layout := .multi [⟨3, by decide, ["x", "y"]⟩, ⟨0, by decide, ["z"]⟩] (by decide)
  rootExtra := OrderedMap.ofPairs [(utf8Bytes "comment", text "none")]
  infoExtra := OrderedMap.ofPairs [(utf8Bytes "private", number 1)]
  rootFree := by decide +kernel
  infoFree := by decide +kernel

theorem two_files_fit : twoFiles.encode.length < 2 ^ 63 := by decide +kernel

theorem canonical_torrent_parses_two_files :
    ∃ m, Returns (fromBytes .debug (fun _ => Vector.replicate 20 0)
        ⟨twoFiles.encode, two_files_fit⟩) () m () ∧
      m.name = "dir" ∧ m.pieceLength.toNat = 16384 ∧ m.pieceHashes = [Vector.replicate 20 7] ∧
      (m.files.map fun file => (file.length.toNat, file.path)) = [(3, ["x", "y"]), (0, ["z"])] ∧
      m.totalLength.toNat = 3 ∧ m.isSingleFile = false ∧ m.announce = "http://t/a" ∧
      m.announceList = [["http://t/a", "udp://t:1"], []] ∧
      m.infoHash = Vector.replicate 20 0 := by
  have clear : ∀ i < (letterD :: encBefore infoName twoFiles.rootMap).length,
      ¬ Occurs twoFiles.encode i := by decide +kernel
  exact canonical_torrent_parses twoFiles two_files_fit fun i occurs =>
    not_lt.mp fun early => clear i early occurs

end CanonicalTorrent
