import RustyTorrent.Torrent.AcceptedTorrent

/- The piece hashes, and how they fit the piece length and the total length. from_bytes
   reads the three from independent fields and compares none of them. -/
namespace PieceTable
open RustExec OrderedMaps Utf8Text BencodeValue BencodeDecoder TorrentMetainfo
  AcceptedTorrent

variable {p : Profile}

theorem returns_copyDigest {bytes : Bytes} {hash : Digest} {u : Unit} :
    Returns (copyDigest bytes) () hash u ↔ hash.toList = bytes := by
  unfold copyDigest
  split
  · rename_i size
    rw [returns_pure]
    constructor
    · intro both
      obtain ⟨rfl, -⟩ := both
      simp [Vector.toList]
    · rintro rfl
      exact ⟨by ext; simp, rfl⟩
  · rename_i other
    simp only [returns_panicWith, false_iff]
    rintro rfl
    simp at other

theorem returns_splitLoop_succ {raw : Bytes} {i n : Nat} {acc out : List Digest} {u : Unit}
    (size : (i + 1) * 20 ≤ raw.length) (fits : raw.length < 2 ^ 63) :
    Returns (splitLoop p raw i (n + 1) acc) () out u ↔
      ∃ hash : Digest, hash.toList = (raw.drop (i * 20)).take 20 ∧
        Returns (splitLoop p raw (i + 1) n (acc ++ [hash])) () out u := by
  have bounds : i * 20 ≤ (i + 1) * 20 ∧ (i + 1) * 20 ≤ raw.length := by omega
  have window : (raw.take ((i + 1) * 20)).drop (i * 20) = (raw.drop (i * 20)).take 20 := by
    rw [List.drop_take]
    congr 1
    omega
  rw [splitLoop, returns_unsigned_nat_bind (by omega), returns_usizeAdd_bind (by omega),
    returns_unsigned_nat_bind (by omega), returns_slice_bind, window]
  constructor
  · intro both
    obtain ⟨-, run⟩ := both
    obtain ⟨hash, _, copied, run⟩ := returns_bind.mp run
    exact ⟨hash, returns_copyDigest.mp copied, run⟩
  · intro parts
    obtain ⟨hash, copied, run⟩ := parts
    refine ⟨bounds, ?_⟩
    rw [returns_bind_step (returns_copyDigest.mpr copied)]
    exact run

theorem returns_splitLoop {raw : Bytes} {i n : Nat} {acc out : List Digest} {u : Unit}
    (size : raw.length = (i + n) * 20) (fits : raw.length < 2 ^ 63) :
    Returns (splitLoop p raw i n acc) () out u ↔
      ∃ hashes, out = acc ++ hashes ∧ hashes.flatMap Vector.toList = raw.drop (i * 20) := by
  induction n generalizing i acc with
  | zero =>
    have done : raw.drop (i * 20) = [] := List.drop_eq_nil_of_le (by omega)
    rw [splitLoop, returns_pure, done]
    constructor
    · intro both
      obtain ⟨rfl, -⟩ := both
      exact ⟨[], by simp⟩
    · intro parts
      obtain ⟨hashes, rfl, none⟩ := parts
      cases hashes with
      | nil => simp
      | cons hash rest => simp at none
  | succ n ih =>
    have later := @ih (i + 1)
    have advance : raw.drop (i * 20) =
        (raw.drop (i * 20)).take 20 ++ raw.drop ((i + 1) * 20) := by
      rw [Nat.succ_mul, ← List.drop_drop, List.take_append_drop]
    rw [returns_splitLoop_succ (by omega) fits]
    constructor
    · intro parts
      obtain ⟨hash, copied, run⟩ := parts
      obtain ⟨hashes, rfl, joined⟩ := (later (by omega)).mp run
      refine ⟨hash :: hashes, by simp, ?_⟩
      rw [List.flatMap_cons, joined, copied, ← advance]
    · intro parts
      obtain ⟨hashes, rfl, joined⟩ := parts
      cases hashes with
      | nil =>
        have size' := congrArg List.length joined
        simp only [List.flatMap_nil, List.length_nil, List.length_drop] at size'
        omega
      | cons hash rest =>
        rw [List.flatMap_cons, advance] at joined
        have width : hash.toList.length = ((raw.drop (i * 20)).take 20).length := by
          simp only [Vector.length_toList, List.length_take, List.length_drop]
          omega
        obtain ⟨here, tail⟩ := List.append_inj joined width
        exact ⟨hash, here, (later (by omega)).mpr ⟨rest, by simp, tail⟩⟩

theorem returns_splitPieceHashes {raw : Bytes} {hashes : List Digest} {u : Unit}
    (fits : raw.length < 2 ^ 63) :
    Returns (splitPieceHashes p raw) () hashes u ↔ hashes.flatMap Vector.toList = raw := by
  unfold splitPieceHashes
  split
  · rename_i uneven
    simp only [returns_fail, false_iff]
    rintro rfl
    simp [List.length_flatMap] at uneven
  · rename_i even
    rw [returns_splitLoop (by omega) fits]
    simp

theorem splitLoop_length {raw : Bytes} {i n : Nat} {acc out : List Digest} {u : Unit}
    (run : Returns (splitLoop p raw i n acc) () out u) : out.length = acc.length + n := by
  induction n generalizing i acc with
  | zero =>
    obtain ⟨rfl, -⟩ := returns_pure.mp run
    rfl
  | succ n ih =>
    obtain ⟨start, _, -, run⟩ := returns_bind.mp run
    obtain ⟨next, _, -, run⟩ := returns_bind.mp run
    obtain ⟨stop, _, -, run⟩ := returns_bind.mp run
    obtain ⟨bytes, _, -, run⟩ := returns_bind.mp run
    obtain ⟨hash, _, -, run⟩ := returns_bind.mp run
    rw [ih run, List.length_append, List.length_singleton, Nat.add_assoc, Nat.add_comm 1 n]

theorem splitPieceHashes_length {raw : Bytes} {hashes : List Digest} {u : Unit}
    (run : Returns (splitPieceHashes p raw) () hashes u) : raw.length = 20 * hashes.length := by
  unfold splitPieceHashes at run
  split at run
  · exact absurd run returns_fail
  · have count := splitLoop_length run
    simp only [List.length_nil] at count
    omega

/-- Every piece has a size of at least one byte, computed without overflow, and the sizes
    add up to the total length. -/
def TableFits (p : Profile) (m : Metainfo) : Prop :=
  ∃ sizes : List UInt64, sizes.length = m.pieceHashes.length ∧
    (∀ i size, sizes[i]? = some size →
      Safe (m.pieceSize p i) () ∧ Returns (m.pieceSize p i) () size () ∧ 1 ≤ size) ∧
    (sizes.map UInt64.toNat).sum = m.totalLength.toNat

def sizeOf (m : Metainfo) (i : Nat) : Nat :=
  min m.pieceLength.toNat (m.totalLength.toNat - i * m.pieceLength.toNat)

theorem sizeOf_lt (m : Metainfo) (i : Nat) : sizeOf m i < 2 ^ 64 := by
  have := m.pieceLength.toNat_lt
  simp only [sizeOf]
  omega

theorem sizeOf_toNat (m : Metainfo) (i : Nat) : (UInt64.ofNat (sizeOf m i)).toNat = sizeOf m i := by
  rw [UInt64.toNat_ofNat', Nat.mod_eq_of_lt (sizeOf_lt m i)]

theorem safe_pieceSize_iff {m : Metainfo} {i : Nat} :
    Safe (m.pieceSize p i) () ↔ i * m.pieceLength.toNat < 2 ^ 64 := by
  constructor
  · intro safe
    have product := safe_bind_first safe (.arith 64 (i * m.pieceLength.toNat : Nat)) (by
      simp [unsigned])
    exact_mod_cast product.2
  · intro fits
    exact safe_bind (safe_unsigned _ (by constructor <;> [omega; exact_mod_cast fits]))
      fun _ _ _ => safe_pure _ _

theorem returns_pieceSize {m : Metainfo} {i : Nat} {size : UInt64} {u : Unit}
    (fits : i * m.pieceLength.toNat < 2 ^ 64) :
    Returns (m.pieceSize p i) () size u ↔ size.toNat = sizeOf m i := by
  rw [Metainfo.pieceSize, returns_unsigned_nat_bind fits, returns_pure]
  change UInt64.ofNat (sizeOf m i) = size ∧ () = u ↔ _
  rw [← UInt64.toNat_inj, sizeOf_toNat]
  simp [eq_comm]

theorem sum_sizes (m : Metainfo) (n : Nat) :
    ((List.range n).map (sizeOf m)).sum =
      min (n * m.pieceLength.toNat) m.totalLength.toNat := by
  induction n with
  | zero => simp
  | succ n ih =>
    rw [List.range_succ, List.map_append, List.sum_append, ih, Nat.succ_mul]
    simp only [List.map_cons, List.map_nil, List.sum_cons, List.sum_nil, sizeOf]
    omega

theorem sizes_exact {m : Metainfo} {sizes : List UInt64}
    (count : sizes.length = m.pieceHashes.length)
    (each : ∀ i size, sizes[i]? = some size →
      Safe (m.pieceSize p i) () ∧ Returns (m.pieceSize p i) () size () ∧ 1 ≤ size) :
    (∀ i < m.pieceHashes.length, i * m.pieceLength.toNat < 2 ^ 64 ∧ 1 ≤ sizeOf m i) ∧
      sizes.map UInt64.toNat = (List.range m.pieceHashes.length).map (sizeOf m) := by
  have exact : ∀ i (lt : i < sizes.length), i * m.pieceLength.toNat < 2 ^ 64 ∧
      sizes[i].toNat = sizeOf m i ∧ 1 ≤ sizes[i] := by
    intro i lt
    obtain ⟨safe, size, one⟩ := each i sizes[i] (List.getElem?_eq_getElem lt)
    have fits := safe_pieceSize_iff.mp safe
    exact ⟨fits, (returns_pieceSize fits).mp size, one⟩
  constructor
  · intro i lt
    obtain ⟨fits, value, one⟩ := exact i (by omega)
    refine ⟨fits, ?_⟩
    rw [← value]
    exact UInt64.le_iff_toNat_le.mp one
  · apply List.ext_getElem (by simp [count])
    intro i lt _
    rw [List.length_map] at lt
    rw [List.getElem_map, List.getElem_map, List.getElem_range]
    exact (exact i lt).2.1

theorem table_fits_exact {m : Metainfo} :
    TableFits p m ↔
      (∀ i < m.pieceHashes.length, i * m.pieceLength.toNat < 2 ^ 64 ∧ 1 ≤ sizeOf m i) ∧
        min (m.pieceHashes.length * m.pieceLength.toNat) m.totalLength.toNat =
          m.totalLength.toNat := by
  rw [← sum_sizes]
  constructor
  · intro parts
    obtain ⟨sizes, count, each, total⟩ := parts
    obtain ⟨bounds, values⟩ := sizes_exact count each
    exact ⟨bounds, by rw [← values, total]⟩
  · intro both
    obtain ⟨each, total⟩ := both
    refine ⟨(List.range m.pieceHashes.length).map fun i => UInt64.ofNat (sizeOf m i), by simp,
      ?_, ?_⟩
    · intro i size here
      rw [List.getElem?_map, Option.map_eq_some_iff] at here
      obtain ⟨j, found, rfl⟩ := here
      obtain ⟨lt, rfl⟩ := List.getElem?_eq_some_iff.mp found
      simp only [List.length_range] at lt
      rw [List.getElem_range]
      obtain ⟨fits, one⟩ := each i lt
      refine ⟨safe_pieceSize_iff.mpr fits, (returns_pieceSize fits).mpr (sizeOf_toNat m i), ?_⟩
      rw [UInt64.le_iff_toNat_le, sizeOf_toNat]
      exact one
    · rw [List.map_map]
      simp only [Function.comp_def, sizeOf_toNat]
      exact total

def pieceCount (m : Metainfo) : Nat :=
  (m.totalLength.toNat + (m.pieceLength.toNat - 1)) / m.pieceLength.toNat

theorem pieceCount_eq_iff {m : Metainfo} (positive : 0 < m.pieceLength.toNat) (n : Nat) :
    n = pieceCount m ↔ m.totalLength.toNat ≤ n * m.pieceLength.toNat ∧
      n * m.pieceLength.toNat < m.totalLength.toNat + m.pieceLength.toNat := by
  rw [pieceCount, eq_comm, Nat.div_eq_iff positive]
  omega

theorem table_fits_iff {m : Metainfo} :
    TableFits p m ↔ (m.pieceHashes.length = 0 ∧ m.totalLength = 0) ∨
      (0 < m.pieceLength ∧ m.pieceHashes.length = pieceCount m) := by
  have total := m.totalLength.toNat_lt
  have zero : m.totalLength = 0 ↔ m.totalLength.toNat = 0 := by
    rw [← UInt64.toNat_inj, UInt64.toNat_zero]
  have positive : 0 < m.pieceLength ↔ 0 < m.pieceLength.toNat := by
    rw [UInt64.lt_iff_toNat_lt, UInt64.toNat_zero]
  rw [table_fits_exact, zero, positive]
  constructor
  · intro both
    obtain ⟨each, whole⟩ := both
    cases count : m.pieceHashes.length with
    | zero =>
      rw [count, Nat.zero_mul] at whole
      exact Or.inl ⟨rfl, by omega⟩
    | succ n =>
      rw [count] at whole each
      obtain ⟨-, last⟩ := each n (by omega)
      simp only [sizeOf] at last
      refine Or.inr ⟨by omega, (pieceCount_eq_iff (by omega) _).mpr ?_⟩
      rw [Nat.succ_mul] at whole ⊢
      omega
  · rintro (⟨none, empty⟩ | ⟨some, count⟩)
    · rw [none, empty]
      simp
    · obtain ⟨enough, tight⟩ := (pieceCount_eq_iff some _).mp count
      refine ⟨fun i lt => ?_, by omega⟩
      have next : (i + 1) * m.pieceLength.toNat ≤ m.pieceHashes.length * m.pieceLength.toNat :=
        Nat.mul_le_mul_right _ lt
      rw [Nat.succ_mul] at next
      simp only [sizeOf]
      omega

theorem accepted_table_fits_iff {sha1 : Bytes → Digest} {data : ByteSeq} {m : Metainfo}
    (accepted : Returns (fromBytes p sha1 data) () m ()) :
    (∃ root info pieces, Returns (decode p data) () root () ∧ root.getStr "info" = some info ∧
        info.getStr "pieces" = some (.bytes pieces) ∧
        pieces.length = 20 * m.pieceHashes.length) ∧
      (TableFits p m ↔ (m.pieceHashes.length = 0 ∧ m.totalLength = 0) ∨
        (0 < m.pieceLength ∧ m.pieceHashes.length = pieceCount m)) := by
  obtain ⟨root, info, pieces, _, decoded, found, -, -, -, -, -, -, raw, split, -⟩ :=
    returns_fromBytes.mp accepted
  exact ⟨⟨_, _, pieces, decoded, found, raw, splitPieceHashes_length split⟩, table_fits_iff⟩

def onePiece : ByteSeq :=
  ⟨utf8Bytes
    "d4:infod6:lengthi5e4:name1:a12:piece lengthi8e6:pieces20:aaaaaaaaaaaaaaaaaaaaee",
    by decide +kernel⟩

def onePieceMetainfo : Metainfo :=
  { announce := "", announceList := [], infoHash := Vector.replicate 20 0, name := "a",
    pieceLength := 8, pieceHashes := [Vector.replicate 20 0x61], totalLength := 5,
    files := [⟨5, ["a"]⟩], isSingleFile := true }

theorem accepted_table_fits_iff_one_piece :
    (∃ root info pieces, Returns (decode .release onePiece) () root () ∧
        root.getStr "info" = some info ∧ info.getStr "pieces" = some (.bytes pieces) ∧
        pieces.length = 20 * onePieceMetainfo.pieceHashes.length) ∧
      (TableFits .release onePieceMetainfo ↔
        (onePieceMetainfo.pieceHashes.length = 0 ∧ onePieceMetainfo.totalLength = 0) ∨
        (0 < onePieceMetainfo.pieceLength ∧
          onePieceMetainfo.pieceHashes.length = pieceCount onePieceMetainfo)) :=
  @accepted_table_fits_iff _ (fun _ => Vector.replicate 20 0) _ _ (by decide +kernel)

def emptyTable : ByteSeq :=
  ⟨utf8Bytes "d4:infod6:lengthi5e4:name1:a12:piece lengthi0e6:pieces0:ee", by decide +kernel⟩

def emptyTableMetainfo : Metainfo :=
  { announce := "", announceList := [], infoHash := Vector.replicate 20 0, name := "a",
    pieceLength := 0, pieceHashes := [], totalLength := 5, files := [⟨5, ["a"]⟩],
    isSingleFile := true }

theorem empty_table_accepted :
    Returns (fromBytes .release (fun _ => Vector.replicate 20 0) emptyTable) ()
        emptyTableMetainfo () ∧
      ¬ (0 < emptyTableMetainfo.pieceLength) ∧ ¬ TableFits .release emptyTableMetainfo := by
  refine ⟨by decide +kernel, by decide, ?_⟩
  rw [table_fits_iff]
  decide

end PieceTable
