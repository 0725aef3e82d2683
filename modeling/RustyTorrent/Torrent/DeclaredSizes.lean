import RustyTorrent.Torrent.AcceptedTorrent

/- The sizes that a torrent declares, from the signed integers of the text to the unsigned
   fields of the metainfo, and the sum of the files under both build profiles. -/
namespace DeclaredSizes
open RustExec OrderedMaps Utf8Text BencodeValue BencodeDecoder TorrentMetainfo AcceptedTorrent

variable {p : Profile} {sha1 : Bytes → Digest} {data : ByteSeq}

/-- The run of from_bytes gets as far as the layout of this info dictionary. -/
def Reaches (p : Profile) (sha1 : Bytes → Digest) (data : ByteSeq) (info : Value) (name : String)
    (pieceLength : Int64) : Prop :=
  ∃ root infoMap infoHash piecesRaw pieceHashes, info = .dict infoMap ∧
    Returns (decode p data) () (.dict root) () ∧
    (Value.dict root).getStr "info" = some info ∧
    Returns (computeInfoHash p sha1 data) () infoHash () ∧
    info.getStr "name" = some (.bytes (utf8Bytes name)) ∧
    info.getStr "piece length" = some (.integer pieceLength) ∧
    info.getStr "pieces" = some (.bytes piecesRaw) ∧
    Returns (splitPieceHashes p piecesRaw) () pieceHashes ()

def writtenLength (fileVal : Value) : Option Int64 := (fileVal.getStr "length").bind Value.asInteger

def writtenLengths (info : Value) : List Int64 :=
  match info.getStr "length" with
  | some lengthVal => lengthVal.asInteger.toList
  | none => (((info.getStr "files").bind Value.asList).getD []).filterMap writtenLength

structure Exact (info : Value) (pieceLength : Int64) (m : Metainfo) : Prop where
  pieceLength : (m.pieceLength.toNat : Int) = pieceLength.toInt
  lengths : m.files.map (fun file => (file.length.toNat : Int)) =
    (writtenLengths info).map Int64.toInt
  total : m.totalLength.toNat = (m.files.map fun file => file.length.toNat).sum

/-- The declared sizes survive, and no addition on the way overflows. -/
def SizesExact (p : Profile) (sha1 : Bytes → Digest) (data : ByteSeq) : Prop :=
  (∀ m, Returns (fromBytes p sha1 data) () m () →
    ∃ info name pieceLength, Reaches p sha1 data info name pieceLength ∧
      Exact info pieceLength m) ∧
  ∀ info name pieceLength, Reaches p sha1 data info name pieceLength →
    Safe (parseLayout p info name) ()

def fileEntry (fileVal : Value) : Option Int64 :=
  if fileVal.asDict.isSome ∧ ((fileVal.getStr "path").bind Value.asList).isSome
  then writtenLength fileVal else none

/-- The lengths of the file entries in front of the first malformed one. -/
def readable : List Value → List Int64
  | [] => []
  | fileVal :: rest =>
      match fileEntry fileVal with
      | some length => length :: readable rest
      | none => []

def castSum (lengths : List Int64) : Nat := (lengths.map fun n => n.toUInt64.toNat).sum

/-- No declared size is negative, and the files sum up to less than 2^64, where a negative
    length that is read before a malformed entry counts as it is cast. -/
def SizesFit (info : Value) (pieceLength : Int64) : Prop :=
  match info.getStr "length" with
  | some lengthVal => ∀ n, lengthVal = .integer n → 0 ≤ pieceLength.toInt ∧ 0 ≤ n.toInt
  | none => ∀ fileList, info.getStr "files" = some (.list fileList) →
      castSum (readable fileList) < 2 ^ 64 ∧
        ((readable fileList).length = fileList.length →
          0 ≤ pieceLength.toInt ∧ ∀ n ∈ readable fileList, 0 ≤ n.toInt)

theorem cast_exact_iff (n : Int64) : (n.toUInt64.toNat : Int) = n.toInt ↔ 0 ≤ n.toInt := by
  have value : n.toInt = n.toBitVec.toInt := rfl
  have cast : n.toUInt64.toNat = n.toBitVec.toNat := rfl
  have bound := n.toBitVec.isLt
  rw [value, cast, BitVec.toInt_eq_toNat_cond]
  split <;> omega

theorem casts_exact_iff (lengths : List Int64) :
    lengths.map (fun n => (n.toUInt64.toNat : Int)) = lengths.map Int64.toInt ↔
      ∀ n ∈ lengths, 0 ≤ n.toInt := by
  simp only [List.map_inj_left, cast_exact_iff]

theorem parseFile_entry {fileVal : Value} {length : Int64}
    (entry : fileEntry fileVal = some length) :
    ∃ path, Returns (parseFile fileVal) () ⟨length.toUInt64, path⟩ () := by
  unfold fileEntry at entry
  split at entry
  · rename_i shape
    obtain ⟨map, isDict⟩ := Option.isSome_iff_exists.mp shape.1
    obtain ⟨pathList, isList⟩ := Option.isSome_iff_exists.mp shape.2
    refine ⟨pathList.filterMap Value.asStr, ?_⟩
    unfold parseFile
    refine returns_okOr_bind.mpr ⟨map, isDict, returns_okOr_bind.mpr ⟨length, entry, ?_⟩⟩
    exact returns_okOr_bind.mpr ⟨pathList, isList, returns_value _ _⟩
  · cases entry

theorem entry_of_parseFile {fileVal : Value} {file : FileInfo} {u : Unit}
    (run : Returns (parseFile fileVal) () file u) :
    ∃ length, fileEntry fileVal = some length ∧ file.length = length.toUInt64 := by
  obtain ⟨map, isDict, run⟩ := returns_okOr_bind.mp run
  obtain ⟨length, written, run⟩ := returns_okOr_bind.mp run
  obtain ⟨pathList, isList, run⟩ := returns_okOr_bind.mp run
  obtain ⟨rfl, -⟩ := returns_pure.mp run
  refine ⟨length, ?_, rfl⟩
  rw [fileEntry, if_pos ⟨by simp [isDict], by simp [isList]⟩]
  exact written

theorem safe_parseFile (fileVal : Value) : Safe (parseFile fileVal) () := by
  unfold parseFile
  refine safe_bind (safe_okOr _ _ _) fun _ _ _ => ?_
  refine safe_bind (safe_okOr _ _ _) fun _ _ _ => ?_
  exact safe_bind (safe_okOr _ _ _) fun _ _ _ => safe_pure _ _

theorem castSum_cons (n : Int64) (lengths : List Int64) :
    castSum (n :: lengths) = n.toUInt64.toNat + castSum lengths := by
  simp [castSum]

theorem safe_parseFiles_iff {fileList : List Value} {files : List FileInfo} {total : Nat}
    (fits : total < 2 ^ 64) :
    Safe (parseFiles p fileList files total) () ↔
      total + castSum (readable fileList) < 2 ^ 64 := by
  induction fileList generalizing files total with
  | nil =>
    rw [parseFiles]
    exact iff_of_true (safe_pure _ _) (by simpa [readable, castSum] using fits)
  | cons fileVal rest ih =>
    rw [parseFiles, readable]
    cases entry : fileEntry fileVal with
    | none =>
      refine iff_of_true (safe_bind (safe_parseFile _) fun file _ run => ?_)
        (by simpa [castSum] using fits)
      obtain ⟨length, found, -⟩ := entry_of_parseFile run
      simp [entry] at found
    | some length =>
      obtain ⟨path, run⟩ := parseFile_entry entry
      constructor
      · intro safe
        have added := safe_bind_after run safe
        obtain ⟨(sum : total + length.toUInt64.toNat < 2 ^ 64), later⟩ :=
          safe_unsigned_nat_bind_iff.mp added
        have whole := (ih sum).mp later
        rw [castSum_cons]
        omega
      · intro sum
        rw [castSum_cons] at sum
        have here : total + length.toUInt64.toNat < 2 ^ 64 := by omega
        apply safe_bind_step run (safe_parseFile _)
        exact safe_unsigned_nat_bind_iff.mpr ⟨here, (ih here).mpr (by omega)⟩

theorem readable_of_parseFiles {fileList : List Value} {files : List FileInfo} {total : Nat}
    {out : List FileInfo × Nat} {u : Unit}
    (run : Returns (parseFiles p fileList files total) () out u) :
    (readable fileList).length = fileList.length := by
  induction fileList generalizing files total with
  | nil => rfl
  | cons fileVal rest ih =>
    obtain ⟨file, _, read, run⟩ := returns_bind.mp run
    obtain ⟨sum, _, -, run⟩ := returns_bind.mp run
    obtain ⟨length, entry, -⟩ := entry_of_parseFile read
    simp [readable, entry, ih run]

theorem parseFiles_returns {fileList : List Value} {files : List FileInfo} {total : Nat}
    (whole : (readable fileList).length = fileList.length)
    (fits : total + castSum (readable fileList) < 2 ^ 64) :
    ∃ read : List FileInfo, Returns (parseFiles p fileList files total) ()
        (files ++ read, total + castSum (readable fileList)) () ∧
      read.map FileInfo.length = (readable fileList).map Int64.toUInt64 := by
  induction fileList generalizing files total with
  | nil => exact ⟨[], by simp [parseFiles, readable, castSum], rfl⟩
  | cons fileVal rest ih =>
    cases entry : fileEntry fileVal with
    | none => simp [readable, entry] at whole
    | some length =>
      obtain ⟨path, run⟩ := parseFile_entry entry
      simp only [readable, entry, List.length_cons, Nat.add_right_cancel_iff] at whole
      simp only [readable, entry, castSum_cons] at fits ⊢
      obtain ⟨read, later, lengths⟩ := @ih (files ++ [⟨length.toUInt64, path⟩])
        (total + length.toUInt64.toNat) whole (by omega)
      refine ⟨⟨length.toUInt64, path⟩ :: read, ?_, by simp [lengths]⟩
      have here : total + length.toUInt64.toNat < 2 ^ 64 := by omega
      rw [parseFiles, returns_bind_step run, returns_unsigned_nat_bind here]
      rwa [List.append_assoc, Nat.add_assoc] at later

theorem readable_written {fileList : List Value}
    (whole : (readable fileList).length = fileList.length) :
    fileList.filterMap writtenLength = readable fileList := by
  induction fileList with
  | nil => rfl
  | cons fileVal rest ih =>
    cases entry : fileEntry fileVal with
    | none => simp [readable, entry] at whole
    | some length =>
      simp only [readable, entry, List.length_cons, Nat.add_right_cancel_iff] at whole ⊢
      have written : writtenLength fileVal = some length := by
        unfold fileEntry at entry
        split at entry
        · exact entry
        · cases entry
      rw [List.filterMap_cons_some written, ih whole]

theorem reaches_unique {info info' : Value} {name name' : String} {pieceLength pieceLength' : Int64}
    (one : Reaches p sha1 data info name pieceLength)
    (other : Reaches p sha1 data info' name' pieceLength') :
    info = info' ∧ name = name' ∧ pieceLength = pieceLength' := by
  obtain ⟨root, _, _, _, _, -, decoded, found, -, named, sized, -, -⟩ := one
  obtain ⟨root', _, _, _, _, -, decoded', found', -, named', sized', -, -⟩ := other
  obtain ⟨same, -⟩ := returns_unique decoded decoded'
  rw [same, found'] at found
  cases found
  rw [named'] at named
  rw [sized'] at sized
  simp only [Option.some.injEq, Value.bytes.injEq, Value.integer.injEq] at named sized
  exact ⟨rfl, (utf8Bytes_injective named).symm, sized.symm⟩

theorem reaches_of_accepted {m : Metainfo} (run : Returns (fromBytes p sha1 data) () m ()) :
    ∃ info pieceLength, Reaches p sha1 data info m.name pieceLength ∧
      m.pieceLength = pieceLength.toUInt64 ∧
      Returns (parseLayout p info m.name) () (m.files, m.totalLength, m.isSingleFile) () := by
  obtain ⟨root, infoMap, piecesRaw, pieceLength, decoded, found, -, -, hashed, named, sized, cast,
    pieces, split, layout⟩ := returns_fromBytes.mp run
  exact ⟨.dict infoMap, pieceLength, ⟨root, infoMap, m.infoHash, piecesRaw, m.pieceHashes, rfl,
    decoded, found, hashed, named, sized, pieces, split⟩, cast, layout⟩

theorem accepted_of_layout {info : Value} {name : String} {pieceLength : Int64}
    {files : List FileInfo} {totalLength : UInt64} {single : Bool}
    (reached : Reaches p sha1 data info name pieceLength)
    (layout : Returns (parseLayout p info name) () (files, totalLength, single) ()) :
    ∃ m, Returns (fromBytes p sha1 data) () m () ∧ m.pieceLength = pieceLength.toUInt64 ∧
      m.files = files ∧ m.totalLength = totalLength := by
  obtain ⟨root, infoMap, infoHash, piecesRaw, pieceHashes, rfl, decoded, found, hashed, named,
    sized, pieces, split⟩ := reached
  refine ⟨⟨_, _, infoHash, name, pieceLength.toUInt64, pieceHashes, totalLength, files, single⟩,
    returns_fromBytes.mpr ⟨root, infoMap, piecesRaw, pieceLength, decoded, found, rfl, rfl, hashed,
      named, sized, rfl, pieces, split, layout⟩, rfl, rfl, rfl⟩

section Layout
variable {info : Value} {name : String}

theorem safe_parseLayout_iff :
    Safe (parseLayout p info name) () ↔
      (info.getStr "length" = none → ∀ fileList, info.getStr "files" = some (.list fileList) →
        castSum (readable fileList) < 2 ^ 64) := by
  unfold parseLayout
  split
  · rename_i lengthVal single
    refine iff_of_true (safe_bind (safe_okOr _ _ _) fun _ _ _ => safe_pure _ _) ?_
    intro none
    simp [single] at none
  · rename_i multi
    split
    · rename_i filesVal written
      rw [written]
      constructor
      · rintro safe - fileList list
        cases list
        have body := safe_bind_after (returns_okOr.mpr ⟨rfl, rfl⟩) safe
        have sum := (safe_parseFiles_iff (by omega)).mp (safe_of_bind body)
        omega
      · intro sums
        apply safe_bind (safe_okOr _ _ _)
        intro fileList _ isList
        obtain ⟨list, -⟩ := returns_okOr.mp isList
        have sum := sums multi fileList (by rw [as_list_eq_some.mp list])
        apply safe_bind ((safe_parseFiles_iff (by omega)).mpr (by simpa using sum))
        exact fun _ _ _ => safe_pure _ _
    · rename_i missing
      refine iff_of_true (safe_fail _ _) ?_
      intro _ fileList written
      simp [missing] at written

theorem layout_lengths {files : List FileInfo} {totalLength : UInt64} {single : Bool}
    (run : Returns (parseLayout p info name) () (files, totalLength, single) ())
    (safe : Safe (parseLayout p info name) ()) :
    files.map FileInfo.length = (writtenLengths info).map Int64.toUInt64 ∧
      totalLength.toNat = castSum (writtenLengths info) := by
  rw [safe_parseLayout_iff] at safe
  unfold parseLayout at run
  split at run
  · rename_i lengthVal written
    obtain ⟨length, isInteger, run⟩ := returns_okOr_bind.mp run
    obtain ⟨out, -⟩ := returns_pure.mp run
    cases out
    simp [writtenLengths, written, isInteger, castSum]
  · rename_i multi
    split at run
    · rename_i filesVal written
      obtain ⟨fileList, isList, run⟩ := returns_okOr_bind.mp run
      obtain ⟨⟨read, total⟩, _, loop, run⟩ := returns_bind.mp run
      obtain ⟨out, -⟩ := returns_pure.mp run
      cases out
      have whole := readable_of_parseFiles loop
      have sum := safe multi fileList (by rw [written, as_list_eq_some.mp isList])
      obtain ⟨files, again, lengths⟩ := @parseFiles_returns p fileList [] 0 whole (by omega)
      obtain ⟨same, -⟩ := returns_unique loop again
      cases same
      have all : writtenLengths info = readable fileList := by
        simp [writtenLengths, multi, written, isList, readable_written whole]
      rw [all]
      refine ⟨lengths, ?_⟩
      rw [UInt64.toNat_ofNat', Nat.mod_eq_of_lt (by omega), Nat.zero_add]
    · simp at run

theorem sizesFit_iff {pieceLength : Int64} :
    SizesFit info pieceLength ↔ Safe (parseLayout p info name) () ∧
      ((∃ out, Returns (parseLayout p info name) () out ()) →
        0 ≤ pieceLength.toInt ∧ ∀ n ∈ writtenLengths info, 0 ≤ n.toInt) := by
  rw [safe_parseLayout_iff]
  unfold SizesFit parseLayout writtenLengths
  split
  · rename_i lengthVal single
    simp only [single, reduceCtorEq, false_implies, true_and]
    constructor
    · rintro fits ⟨out, run⟩
      obtain ⟨length, isInteger, -⟩ := returns_okOr_bind.mp run
      simpa [isInteger] using fits length (as_integer_eq_some.mp isInteger)
    · rintro nonneg n rfl
      simpa [Value.asInteger] using nonneg ⟨_, returns_okOr_bind.mpr ⟨n, rfl, returns_value _ _⟩⟩
  · rename_i multi
    simp only [multi, true_implies]
    constructor
    · intro fits
      refine ⟨fun fileList written => (fits fileList written).1, ?_⟩
      intro both
      obtain ⟨out, run⟩ := both
      split at run
      · rename_i filesVal written
        obtain ⟨fileList, isList, run⟩ := returns_okOr_bind.mp run
        obtain ⟨_, _, loop, -⟩ := returns_bind.mp run
        have whole := readable_of_parseFiles loop
        rw [as_list_eq_some.mp isList] at written
        simpa [written, Value.asList, readable_written whole] using (fits fileList written).2 whole
      · simp at run
    · rintro ⟨sums, nonneg⟩ fileList written
      refine ⟨sums fileList written, fun whole => ?_⟩
      obtain ⟨read, loop, -⟩ := @parseFiles_returns p fileList [] 0 whole
        (by simpa using sums fileList written)
      simp only [written, Option.bind_some, Value.asList, Option.getD_some,
        readable_written whole] at nonneg
      apply nonneg
      exact ⟨_, returns_okOr_bind.mpr ⟨fileList, rfl,
        (returns_bind_step loop).mpr (returns_value _ _)⟩⟩

end Layout

theorem exact_iff_nonneg {info : Value} {pieceLength : Int64} {m : Metainfo}
    (pieces : m.pieceLength = pieceLength.toUInt64)
    (lengths : m.files.map FileInfo.length = (writtenLengths info).map Int64.toUInt64)
    (total : m.totalLength.toNat = castSum (writtenLengths info)) :
    Exact info pieceLength m ↔
      0 ≤ pieceLength.toInt ∧ ∀ n ∈ writtenLengths info, 0 ≤ n.toInt := by
  have casts : m.files.map (fun file => (file.length.toNat : Int)) =
      (writtenLengths info).map fun n => (n.toUInt64.toNat : Int) := by
    have cast := congrArg (List.map fun n : UInt64 => (n.toNat : Int)) lengths
    rw [List.map_map, List.map_map] at cast
    exact cast
  have sums : (m.files.map fun file => file.length.toNat).sum = castSum (writtenLengths info) := by
    have sum := congrArg (fun list => (List.map UInt64.toNat list).sum) lengths
    simp only [List.map_map] at sum
    exact sum
  rw [← cast_exact_iff, ← casts_exact_iff, ← casts, ← pieces]
  constructor
  · intro exact
    exact ⟨exact.pieceLength, exact.lengths⟩
  · intro both
    obtain ⟨pieceLength, written⟩ := both
    exact ⟨pieceLength, written, by rw [total, sums]⟩

/-- For every text and under both profiles, the sizes survive exactly where they fit. -/
theorem sizes_exact_iff_fit (p : Profile) (sha1 : Bytes → Digest) (data : ByteSeq) :
    SizesExact p sha1 data ↔
      ∀ info name pieceLength, Reaches p sha1 data info name pieceLength →
        SizesFit info pieceLength := by
  constructor
  · rintro ⟨accepted, safe⟩ info name pieceLength reached
    have safeLayout := safe info name pieceLength reached
    refine sizesFit_iff.mpr ⟨safeLayout, ?_⟩
    intro both
    obtain ⟨⟨files, totalLength, single⟩, layout⟩ := both
    obtain ⟨m, run, pieces, rfl, rfl⟩ := accepted_of_layout reached layout
    obtain ⟨info', name', pieceLength', reached', exact⟩ := accepted m run
    obtain ⟨rfl, rfl, rfl⟩ := reaches_unique reached reached'
    obtain ⟨lengths, total⟩ := layout_lengths layout safeLayout
    exact (exact_iff_nonneg pieces lengths total).mp exact
  · intro fits
    constructor
    · intro m run
      obtain ⟨info, pieceLength, reached, pieces, layout⟩ := reaches_of_accepted run
      obtain ⟨safe, nonneg⟩ := sizesFit_iff.mp (fits info m.name pieceLength reached)
      obtain ⟨lengths, total⟩ := layout_lengths layout safe
      exact ⟨info, m.name, pieceLength, reached,
        (exact_iff_nonneg pieces lengths total).mpr (nonneg ⟨_, layout⟩)⟩
    · intro info name pieceLength reached
      exact (sizesFit_iff.mp (fits info name pieceLength reached)).1

/-- d4:infod6:lengthi-1e4:name1:a12:piece lengthi-2e6:pieces0:ee -/
def negativeSizes : ByteSeq :=
  ⟨utf8Bytes "d4:infod6:lengthi-1e4:name1:a12:piece lengthi-2e6:pieces0:ee", by decide +kernel⟩

def negativeMetainfo : Metainfo :=
  ⟨"", [], .replicate 20 0, "a", 18446744073709551614, [], 18446744073709551615,
    [⟨18446744073709551615, ["a"]⟩], true⟩

theorem negative_sizes_accepted :
    Returns (fromBytes .release (fun _ => .replicate 20 0) negativeSizes) () negativeMetainfo () ∧
      ¬ SizesExact .release (fun _ => .replicate 20 0) negativeSizes := by
  have accepted : Returns (fromBytes .release (fun _ => .replicate 20 0) negativeSizes) ()
      negativeMetainfo () := by decide +kernel
  refine ⟨accepted, ?_⟩
  intro both
  obtain ⟨exact, -⟩ := both
  obtain ⟨info, name, pieceLength, -, survived⟩ := exact _ accepted
  have bound := pieceLength.toInt_lt
  have value : negativeMetainfo.pieceLength.toNat = 2 ^ 64 - 2 := by decide +kernel
  have same := survived.pieceLength
  rw [value] at same
  omega

end DeclaredSizes
