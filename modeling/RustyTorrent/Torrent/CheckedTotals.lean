import RustyTorrent.Bencode.DecodedWeight
import RustyTorrent.Torrent.InfoIdentity
import RustyTorrent.Torrent.PieceTable

/- What the overflow checks of a debug build change about from_bytes. -/
namespace CheckedTotals
open RustExec OrderedMaps Utf8Text BencodeValue BencodeDecoder BencodeGrammar BencodeRecognition
  DecodedWeight TorrentMetainfo AcceptedTorrent PieceTable InfoHashSpan InfoIdentity

variable {p q : Profile} {sha1 : Bytes → Digest} {data : ByteSeq} {m : Metainfo}

def lengthSum (files : List FileInfo) : Nat := (files.map fun file => file.length.toNat).sum

def ReadAs (fileList : List Value) (files : List FileInfo) : Prop :=
  List.Forall₂ (fun fileVal file => Returns (parseFile fileVal) () file ()) fileList files

theorem returns_parseFiles {fileList : List Value} {files out : List FileInfo} {total sum : Nat}
    (small : total < 2 ^ 64) :
    Returns (parseFiles p fileList files total) () (out, sum) () ↔
      ∃ read, ReadAs fileList read ∧ out = files ++ read ∧
        sum = (total + lengthSum read) % 2 ^ 64 ∧
        (p = .debug → total + lengthSum read < 2 ^ 64) := by
  induction fileList generalizing files total with
  | nil =>
    have kept : total % 2 ^ 64 = total := Nat.mod_eq_of_lt small
    rw [parseFiles, returns_pure]
    constructor
    · intro same
      obtain ⟨rfl, rfl⟩ := Prod.mk.inj same.1
      exact ⟨[], .nil, (List.append_nil _).symm, kept.symm, fun _ => small⟩
    · intro parts
      obtain ⟨read, each, rfl, rfl, -⟩ := parts
      cases each
      exact ⟨Prod.ext (List.append_nil _).symm kept.symm, rfl⟩
  | cons fileVal rest ih =>
    rw [parseFiles, returns_bind]
    constructor
    · intro parts
      obtain ⟨file, _, first, run⟩ := parts
      obtain ⟨total', _, add, run⟩ := returns_bind.mp run
      obtain ⟨rfl, rfl, checked⟩ := returns_unsigned_nat.mp add
      obtain ⟨read, each, rfl, rfl, fits⟩ := (ih (Nat.mod_lt _ (by decide))).mp run
      refine ⟨file :: read, .cons first each, by simp, ?_, ?_⟩
      · rw [Nat.mod_add_mod, Nat.add_assoc]
        rfl
      · intro debug
        have less := fits debug
        rw [Nat.mod_eq_of_lt (checked debug), Nat.add_assoc] at less
        exact less
    · intro parts
      obtain ⟨read, each, rfl, rfl, fits⟩ := parts
      cases each with
      | @cons _ file _ read first each =>
        have whole : lengthSum (file :: read) = file.length.toNat + lengthSum read := rfl
        refine ⟨file, (), first, returns_bind.mpr ⟨_, (), returns_unsigned_nat.mpr
          ⟨rfl, rfl, ?_⟩, (ih (Nat.mod_lt _ (by decide))).mpr ⟨read, each, by simp, ?_, ?_⟩⟩⟩
        · intro debug
          have less := fits debug
          omega
        · rw [Nat.mod_add_mod, whole, Nat.add_assoc]
        · intro debug
          have less := fits debug
          rw [Nat.mod_eq_of_lt (by omega)]
          omega

theorem panics_parseFiles {fileList : List Value} {files read : List FileInfo} {total : Nat}
    (each : ReadAs fileList read) (small : total < 2 ^ 64)
    (beyond : 2 ^ 64 ≤ total + lengthSum read) :
    Panics (parseFiles .debug fileList files total) () := by
  induction each generalizing files total with
  | nil =>
    simp only [lengthSum, List.map_nil, List.sum_nil] at beyond
    omega
  | @cons fileVal file rest read first each ih =>
    have whole : lengthSum (file :: read) = file.length.toNat + lengthSum read := rfl
    rw [parseFiles]
    apply panics_bind_after first
    by_cases fits : total + file.length.toNat < 2 ^ 64
    · have add : Returns (unsigned .debug 64 (total + file.length.toNat : Nat) :
          Exec Unit MetainfoError Nat) () (total + file.length.toNat) () :=
        returns_unsigned_nat.mpr ⟨rfl, (Nat.mod_eq_of_lt fits).symm, fun _ => fits⟩
      exact panics_bind_after add (ih fits (by omega))
    · exact panics_bind_first (panics_unsigned (by omega))

section Layout
variable {info : Value} {name : String} {files : List FileInfo} {total : UInt64} {single : Bool}

theorem returns_parseLayout :
    Returns (parseLayout p info name) () (files, total, single) () ↔
      ((∃ length, info.getStr "length" = some (.integer length) ∧
          files = [⟨length.toUInt64, [name]⟩] ∧ single = true) ∨
        ∃ fileList, info.getStr "length" = none ∧ info.getStr "files" = some (.list fileList) ∧
          ReadAs fileList files ∧ single = false) ∧
      total.toNat = lengthSum files % 2 ^ 64 ∧ (p = .debug → lengthSum files < 2 ^ 64) := by
  unfold parseLayout
  cases written : info.getStr "length" with
  | some lengthVal =>
    have one (length : Int64) : lengthSum [⟨length.toUInt64, [name]⟩] = length.toUInt64.toNat := by
      simp [lengthSum]
    constructor
    · intro run
      obtain ⟨length, isInteger, run⟩ := returns_okOr_bind.mp run
      obtain ⟨same, -⟩ := returns_pure.mp run
      obtain ⟨rfl, others⟩ := Prod.mk.inj same
      obtain ⟨rfl, rfl⟩ := Prod.mk.inj others
      obtain rfl := as_integer_eq_some.mp isInteger
      have less := length.toUInt64.toNat_lt
      rw [one, Nat.mod_eq_of_lt less]
      exact ⟨.inl ⟨length, rfl, rfl, rfl⟩, rfl, fun _ => less⟩
    · intro parts
      obtain ⟨⟨length, same, rfl, rfl⟩ | ⟨_, none, -⟩, sum, -⟩ := parts
      · obtain rfl := Option.some.inj same
        rw [one, Nat.mod_eq_of_lt length.toUInt64.toNat_lt, UInt64.toNat_inj] at sum
        exact returns_okOr_bind.mpr ⟨length, rfl, returns_pure.mpr ⟨by rw [sum], rfl⟩⟩
      · cases none
  | none =>
    dsimp only
    cases listed : info.getStr "files" with
    | none => simp
    | some filesVal =>
      constructor
      · intro run
        obtain ⟨fileList, isList, run⟩ := returns_okOr_bind.mp run
        obtain ⟨⟨out, sum⟩, _, loop, run⟩ := returns_bind.mp run
        obtain ⟨read, each, rfl, rfl, fits⟩ := (returns_parseFiles (by decide)).mp loop
        dsimp only at run
        obtain ⟨same, -⟩ := returns_pure.mp run
        obtain ⟨rfl, others⟩ := Prod.mk.inj same
        obtain ⟨rfl, rfl⟩ := Prod.mk.inj others
        obtain rfl := as_list_eq_some.mp isList
        rw [Nat.zero_add] at fits
        refine ⟨.inr ⟨fileList, rfl, rfl, each, rfl⟩, ?_, fits⟩
        rw [Nat.zero_add, UInt64.toNat_ofNat', Nat.mod_mod]
      · intro parts
        obtain ⟨⟨_, some, -⟩ | ⟨fileList, -, same, each, rfl⟩, sum, fits⟩ := parts
        · cases some
        · obtain rfl := Option.some.inj same
          refine returns_okOr_bind.mpr ⟨fileList, rfl, returns_bind.mpr ⟨(files, lengthSum files %
            2 ^ 64), (), (returns_parseFiles (by decide)).mpr ⟨files, each, rfl, ?_, ?_⟩, ?_⟩⟩
          · rw [Nat.zero_add]
          · rw [Nat.zero_add]
            exact fits
          · refine returns_pure.mpr ⟨?_, rfl⟩
            rw [← sum, UInt64.ofNat_toNat]

theorem debug_layout_iff :
    Returns (parseLayout .debug info name) () (files, total, single) () ↔
      Returns (parseLayout .release info name) () (files, total, single) () ∧
        lengthSum files < 2 ^ 64 := by
  rw [returns_parseLayout, returns_parseLayout]
  simp [and_assoc]

end Layout

theorem found_lighter {map : OrderedMap Bytes Value} {key : Bytes} {v : Value}
    (found : map.get key = some v) : weight v ≤ weight (.dict map) := by
  obtain ⟨before, after, split, -⟩ := split_at_key map found
  rw [dict_weight, split]
  simp only [List.map_append, List.map_cons, List.sum_append, List.sum_cons, pairWeight]
  omega

theorem raw_fits {root info : OrderedMap Bytes Value} {raw : Bytes}
    (decoded : Returns (decode p data) () (.dict root) ())
    (found : (Value.dict root).getStr "info" = some (.dict info))
    (pieces : (Value.dict info).getStr "pieces" = some (.bytes raw)) : raw.length < 2 ^ 63 := by
  have whole := spelling_pays (decodes_value.mp decoded)
  have inner := found_lighter found
  have leaf := found_lighter pieces
  have fits := data.fits
  simp only [phraseWeight] at whole
  have node : raw.length ≤ weight (.bytes raw) := by
    simp only [weight, nodes, payload]
    omega
  omega

theorem hash_profile {hash : Digest} :
    Returns (computeInfoHash p sha1 data) () hash () ↔
      Returns (computeInfoHash q sha1 data) () hash () := by
  simp only [computeInfoHash_eq_map, returns_map, Prod.exists, returns_infoSlice]

theorem split_profile {raw : Bytes} {hashes : List Digest} (fits : raw.length < 2 ^ 63)
    (run : Returns (splitPieceHashes p raw) () hashes ()) :
    Returns (splitPieceHashes q raw) () hashes () :=
  (returns_splitPieceHashes fits).mpr ((returns_splitPieceHashes fits).mp run)

theorem debug_declares_iff {info : OrderedMap Bytes Value}
    (fits : ∀ raw, (Value.dict info).getStr "pieces" = some (.bytes raw) → raw.length < 2 ^ 63) :
    Declares .debug info m ↔ Declares .release info m ∧ lengthSum m.files < 2 ^ 64 := by
  constructor
  · intro declares
    obtain ⟨raw, pieces, run⟩ := declares.pieces
    obtain ⟨layout, small⟩ := debug_layout_iff.mp declares.layout
    refine ⟨⟨declares.name, declares.pieceLength, ?_, layout⟩, small⟩
    exact ⟨raw, pieces, split_profile (fits raw pieces) run⟩
  · intro parts
    obtain ⟨declares, small⟩ := parts
    obtain ⟨raw, pieces, run⟩ := declares.pieces
    exact ⟨declares.name, declares.pieceLength, ⟨raw, pieces, split_profile (fits raw pieces) run⟩,
      debug_layout_iff.mpr ⟨declares.layout, small⟩⟩

theorem debug_accepts_iff :
    Returns (fromBytes .debug sha1 data) () m () ↔
      Returns (fromBytes .release sha1 data) () m () ∧ lengthSum m.files < 2 ^ 64 := by
  rw [accepted_iff, accepted_iff]
  constructor
  · intro accepted
    obtain ⟨root, info, decoded, found, announce, tiers, hashed, declares⟩ := accepted
    obtain ⟨declares, small⟩ :=
      (debug_declares_iff fun raw pieces => raw_fits decoded found pieces).mp declares
    exact ⟨⟨root, info, decodes_value.mpr (decodes_value.mp decoded), found, announce, tiers,
      hash_profile.mp hashed, declares⟩, small⟩
  · intro accepted
    obtain ⟨⟨root, info, decoded, found, announce, tiers, hashed, declares⟩, small⟩ := accepted
    exact ⟨root, info, decodes_value.mpr (decodes_value.mp decoded), found, announce, tiers,
      hash_profile.mp hashed, (debug_declares_iff fun raw pieces => raw_fits decoded found
        pieces).mpr ⟨declares, small⟩⟩

theorem panics_parseLayout {info : Value} {name : String} {fileList : List Value}
    {read : List FileInfo} (none : info.getStr "length" = none)
    (listed : info.getStr "files" = some (.list fileList)) (each : ReadAs fileList read)
    (beyond : 2 ^ 64 ≤ lengthSum read) : Panics (parseLayout .debug info name) () := by
  unfold parseLayout
  rw [none, listed]
  have loop := @panics_parseFiles fileList [] read 0 each (by decide) (by omega)
  exact panics_okOr_bind rfl (panics_bind_first loop)

theorem panics_at_layout (accepted : Returns (fromBytes .release sha1 data) () m ())
    (layout : ∀ info, Returns (parseLayout .release info m.name) ()
        (m.files, m.totalLength, m.isSingleFile) () →
      Panics (parseLayout .debug info m.name) ()) : Panics (fromBytes .debug sha1 data) () := by
  obtain ⟨root, info, decoded, found, -, -, hashed, declares⟩ := accepted_iff.mp accepted
  obtain ⟨n, sized, -⟩ := declares.pieceLength
  obtain ⟨raw, pieces, run⟩ := declares.pieces
  have split : Returns (splitPieceHashes .debug raw) () m.pieceHashes () :=
    split_profile (raw_fits decoded found pieces) run
  have decodes : Returns (decode .debug data) () (.dict root) () :=
    decodes_value.mpr (decodes_value.mp decoded)
  unfold fromBytes
  apply panics_bind_after (returns_mapErr.mpr decodes)
  apply panics_okOr_bind rfl
  apply panics_okOr_bind found
  apply panics_okOr_bind rfl
  apply panics_bind_after (hash_profile.mp hashed)
  apply panics_okOr_bind (bind_as_str.mpr declares.name)
  apply panics_okOr_bind (bind_as_integer.mpr sized)
  apply panics_okOr_bind (bind_as_bytes.mpr pieces)
  apply panics_bind_after split
  exact panics_bind_first (layout _ declares.layout)

/-- A debug build accepts what a release build accepts, with the same result, as long as the
    lengths of the files add up below 2^64. Above, the release build goes on with the total
    modulo 2^64, and the debug build panics. -/
theorem builds_differ_in_totals (sha1 : Bytes → Digest) (data : ByteSeq) (m : Metainfo) :
    (Returns (fromBytes .debug sha1 data) () m () ↔
      Returns (fromBytes .release sha1 data) () m () ∧ lengthSum m.files < 2 ^ 64) ∧
    (Returns (fromBytes .release sha1 data) () m () →
      m.totalLength.toNat = lengthSum m.files % 2 ^ 64 ∧
        (2 ^ 64 ≤ lengthSum m.files → Panics (fromBytes .debug sha1 data) ())) := by
  refine ⟨debug_accepts_iff, ?_⟩
  intro accepted
  obtain ⟨-, info, -, -, -, -, -, declares⟩ := accepted_iff.mp accepted
  refine ⟨(returns_parseLayout.mp declares.layout).2.1, ?_⟩
  intro beyond
  apply panics_at_layout accepted
  intro info' layout
  obtain ⟨⟨length, -, files, -⟩ | ⟨fileList, none, listed, each, -⟩, -⟩ :=
    returns_parseLayout.mp layout
  · have less := length.toUInt64.toNat_lt
    simp only [files, lengthSum, List.map_cons, List.map_nil, List.sum_cons, List.sum_nil] at beyond
    omega
  · exact panics_parseLayout none listed each beyond

/-- The lengths -1 and 1, read as 2^64 - 1 and 1. -/
def wrappingTorrent : ByteSeq :=
  ⟨utf8Bytes ("d4:infod5:filesld6:lengthi-1e4:pathl1:aeed6:lengthi1e4:pathl1:beee" ++
    "4:name1:n12:piece lengthi1e6:pieces0:ee"), by decide +kernel⟩

def wrappingMetainfo : Metainfo :=
  { announce := "", announceList := [], infoHash := Vector.replicate 20 0, name := "n",
    pieceLength := 1, pieceHashes := [], totalLength := 0,
    files := [⟨18446744073709551615, ["a"]⟩, ⟨1, ["b"]⟩], isSingleFile := false }

theorem builds_differ_in_totals_wrapping :
    Returns (fromBytes .release (fun _ => .replicate 20 0) wrappingTorrent) () wrappingMetainfo () ∧
      Panics (fromBytes .debug (fun _ => .replicate 20 0) wrappingTorrent) () := by
  have accepted : Returns (fromBytes .release (fun _ => .replicate 20 0) wrappingTorrent) ()
      wrappingMetainfo () := by decide +kernel
  exact ⟨accepted, ((builds_differ_in_totals _ _ _).2 accepted).2 (by decide +kernel)⟩

end CheckedTotals
