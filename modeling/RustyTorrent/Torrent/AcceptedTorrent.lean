import RustyTorrent.Torrent.TorrentMetainfo

/- What a text that from_bytes accepts must hold, field by field. -/
namespace AcceptedTorrent
open RustExec OrderedMaps Utf8Text BencodeValue BencodeDecoder TorrentMetainfo

variable {p : Profile} {sha1 : Bytes → Digest}

theorem as_dict_eq_some {v : Value} {map : OrderedMap Bytes Value} :
    v.asDict = some map ↔ v = .dict map := by
  cases v <;> simp [Value.asDict]

theorem as_integer_eq_some {v : Value} {n : Int64} : v.asInteger = some n ↔ v = .integer n := by
  cases v <;> simp [Value.asInteger]

theorem as_bytes_eq_some {v : Value} {b : Bytes} : v.asBytes = some b ↔ v = .bytes b := by
  cases v <;> simp [Value.asBytes]

theorem as_list_eq_some {v : Value} {items : List Value} :
    v.asList = some items ↔ v = .list items := by
  cases v <;> simp [Value.asList]

theorem bind_as_integer {o : Option Value} {n : Int64} :
    o.bind Value.asInteger = some n ↔ o = some (.integer n) := by
  simp [Option.bind_eq_some_iff, as_integer_eq_some]

theorem bind_as_bytes {o : Option Value} {b : Bytes} :
    o.bind Value.asBytes = some b ↔ o = some (.bytes b) := by
  simp [Option.bind_eq_some_iff, as_bytes_eq_some]

theorem as_str_eq_some_iff {v : Value} {s : String} :
    v.asStr = some s ↔ v = .bytes (utf8Bytes s) := by
  constructor
  · exact as_str_eq_some
  · rintro rfl
    exact as_str_of_text s

theorem bind_as_str {o : Option Value} {s : String} :
    o.bind Value.asStr = some s ↔ o = some (.bytes (utf8Bytes s)) := by
  simp [Option.bind_eq_some_iff, as_str_eq_some_iff]

theorem returns_fromBytes {data : ByteSeq} {m : Metainfo} {u : Unit} :
    Returns (fromBytes p sha1 data) () m u ↔
      ∃ root info piecesRaw pieceLength, Returns (decode p data) () (.dict root) () ∧
        (Value.dict root).getStr "info" = some (.dict info) ∧
        m.announce = (((Value.dict root).getStr "announce").bind Value.asStr).getD "" ∧
        m.announceList = parseAnnounceList (.dict root) ∧
        Returns (computeInfoHash p sha1 data) () m.infoHash () ∧
        (Value.dict info).getStr "name" = some (.bytes (utf8Bytes m.name)) ∧
        (Value.dict info).getStr "piece length" = some (.integer pieceLength) ∧
        m.pieceLength = pieceLength.toUInt64 ∧
        (Value.dict info).getStr "pieces" = some (.bytes piecesRaw) ∧
        Returns (splitPieceHashes p piecesRaw) () m.pieceHashes () ∧
        Returns (parseLayout p (.dict info) m.name) ()
          (m.files, m.totalLength, m.isSingleFile) () := by
  constructor
  · intro run
    obtain ⟨value, _, decoded, run⟩ := returns_bind.mp run
    obtain ⟨root, isDict, run⟩ := returns_okOr_bind.mp run
    obtain rfl := as_dict_eq_some.mp isDict
    obtain ⟨_, found, run⟩ := returns_okOr_bind.mp run
    obtain ⟨info, isDict, run⟩ := returns_okOr_bind.mp run
    obtain rfl := as_dict_eq_some.mp isDict
    obtain ⟨hash, _, hashed, run⟩ := returns_bind.mp run
    obtain ⟨name, named, run⟩ := returns_okOr_bind.mp run
    obtain ⟨pieceLength, sized, run⟩ := returns_okOr_bind.mp run
    obtain ⟨piecesRaw, pieces, run⟩ := returns_okOr_bind.mp run
    obtain ⟨hashes, _, split, run⟩ := returns_bind.mp run
    obtain ⟨⟨files, totalLength, isSingleFile⟩, _, layout, run⟩ := returns_bind.mp run
    obtain ⟨rfl, -⟩ := returns_pure.mp run
    exact ⟨root, info, piecesRaw, pieceLength, returns_mapErr.mp decoded, found, rfl, rfl, hashed,
      bind_as_str.mp named, bind_as_integer.mp sized, rfl, bind_as_bytes.mp pieces, split, layout⟩
  · rintro ⟨root, info, piecesRaw, pieceLength, decoded, found, announce, announceList, hashed,
      named, sized, pieceSize, pieces, split, layout⟩
    unfold fromBytes
    rw [returns_bind_step (returns_mapErr.mpr decoded), returns_okOr_bind]
    refine ⟨root, rfl, returns_okOr_bind.mpr ⟨_, found, returns_okOr_bind.mpr ⟨info, rfl, ?_⟩⟩⟩
    rw [returns_bind_step hashed]
    refine returns_okOr_bind.mpr ⟨m.name, bind_as_str.mpr named, ?_⟩
    refine returns_okOr_bind.mpr ⟨pieceLength, bind_as_integer.mpr sized, ?_⟩
    refine returns_okOr_bind.mpr ⟨piecesRaw, bind_as_bytes.mpr pieces, ?_⟩
    rw [returns_bind_step split, returns_bind_step layout]
    refine returns_pure.mpr ⟨?_, rfl⟩
    cases m
    simp_all

end AcceptedTorrent
