import RustyTorrent.Library.Tilings
import RustyTorrent.Torrent.PieceTable

/- The pieces as ranges of the content, with the sizes that piece_size computes. -/
namespace PieceTiling
open RustExec Tilings TorrentMetainfo PieceTable

variable {p : Profile} {m : Metainfo}

def pieceRange (p : Profile) (m : Metainfo) (i : Nat) : Set Nat :=
  { place | ∃ size, Returns (m.pieceSize p i) () size () ∧
    place ∈ Set.Ico (i * m.pieceLength.toNat) (i * m.pieceLength.toNat + size.toNat) }

/-- The first n pieces are cut from the content in full lengths, but for the last of them, and
    any later piece is empty. -/
structure Tiles (p : Profile) (m : Metainfo) (n : Nat) : Prop where
  sized : ∀ i < n, i * m.pieceLength.toNat < 2 ^ 64 ∧ Safe (m.pieceSize p i) () ∧
    ∃ size, Returns (m.pieceSize p i) () size () ∧ 1 ≤ size ∧ size ≤ m.pieceLength ∧
      (i + 1 < n → size = m.pieceLength)
  disjoint : (Set.Iio n).PairwiseDisjoint (pieceRange p m)
  covers : ⋃ i ∈ Set.Iio n, pieceRange p m i = Set.Ico 0 m.totalLength.toNat
  later : ∀ i ≥ n, i * m.pieceLength.toNat < 2 ^ 64 →
    Safe (m.pieceSize p i) () ∧ Returns (m.pieceSize p i) () 0 ()

theorem pieceSize_returns {i : Nat} (fits : i * m.pieceLength.toNat < 2 ^ 64) :
    Returns (m.pieceSize p i) () (UInt64.ofNat (sizeOf m i)) () :=
  (returns_pieceSize fits).mpr (sizeOf_toNat m i)

theorem pieceRange_eq {i : Nat} (fits : i * m.pieceLength.toNat < 2 ^ 64) :
    pieceRange p m i =
      Set.Ico (i * m.pieceLength.toNat) (i * m.pieceLength.toNat + sizeOf m i) := by
  ext place
  constructor
  · intro parts
    obtain ⟨size, run, inside⟩ := parts
    rwa [(returns_pieceSize fits).mp run] at inside
  · intro inside
    refine ⟨_, pieceSize_returns fits, ?_⟩
    rwa [sizeOf_toNat]

theorem starts_inside (positive : 0 < m.pieceLength.toNat) {i : Nat} (known : i < pieceCount m) :
    i * m.pieceLength.toNat < m.totalLength.toNat := by
  obtain ⟨-, tight⟩ := (pieceCount_eq_iff positive _).mp (rfl : pieceCount m = pieceCount m)
  have next : (i + 1) * m.pieceLength.toNat ≤ pieceCount m * m.pieceLength.toNat :=
    Nat.mul_le_mul_right _ known
  rw [Nat.succ_mul] at next
  omega

theorem ends_content (positive : 0 < m.pieceLength.toNat) {i : Nat} (past : pieceCount m ≤ i) :
    m.totalLength.toNat ≤ i * m.pieceLength.toNat := by
  obtain ⟨enough, -⟩ := (pieceCount_eq_iff positive _).mp (rfl : pieceCount m = pieceCount m)
  exact enough.trans (Nat.mul_le_mul_right _ past)

theorem pieceRange_block (positive : 0 < m.pieceLength.toNat) {i : Nat}
    (known : i < pieceCount m) :
    pieceRange p m i = Set.Ico (blockCut m.pieceLength.toNat m.totalLength.toNat i)
      (blockCut m.pieceLength.toNat m.totalLength.toNat (i + 1)) := by
  have inside := starts_inside positive known
  have total := m.totalLength.toNat_lt
  rw [pieceRange_eq (by omega), blockCut_inside inside.le, PieceTable.sizeOf,
    blockCut_succ inside.le]

theorem full_piece (positive : 0 < m.pieceLength.toNat) {i : Nat}
    (more : i + 1 < pieceCount m) : sizeOf m i = m.pieceLength.toNat := by
  have next := starts_inside positive more
  rw [Nat.succ_mul] at next
  rw [PieceTable.sizeOf]
  omega

theorem known_piece (positive : 0 < m.pieceLength.toNat) {i : Nat} (known : i < pieceCount m) :
    i * m.pieceLength.toNat < 2 ^ 64 ∧ Safe (m.pieceSize p i) () ∧
      ∃ size, Returns (m.pieceSize p i) () size () ∧ 1 ≤ size ∧ size ≤ m.pieceLength ∧
        (i + 1 < pieceCount m → size = m.pieceLength) := by
  have inside := starts_inside positive known
  have total := m.totalLength.toNat_lt
  have fits : i * m.pieceLength.toNat < 2 ^ 64 := by omega
  refine ⟨fits, safe_pieceSize_iff.mpr fits, _, pieceSize_returns fits, ?_, ?_, ?_⟩
  · rw [UInt64.le_iff_toNat_le, sizeOf_toNat, PieceTable.sizeOf, UInt64.toNat_one]
    omega
  · rw [UInt64.le_iff_toNat_le, sizeOf_toNat]
    exact Nat.min_le_left _ _
  · intro more
    rw [← UInt64.toNat_inj, sizeOf_toNat]
    exact full_piece positive more

/-- Under both profiles, the pieces tile the content, as many as their length divides it into. -/
theorem piece_sizes_tile (p : Profile) {m : Metainfo} (positive : 0 < m.pieceLength) :
    Tiles p m (pieceCount m) := by
  rw [UInt64.lt_iff_toNat_lt, UInt64.toNat_zero] at positive
  have mono := blockCut_mono m.pieceLength.toNat m.totalLength.toNat
  constructor
  case sized => exact fun i known => known_piece positive known
  case disjoint =>
    intro i known j known' differ
    change Disjoint (pieceRange p m _) (pieceRange p m _)
    rw [pieceRange_block positive known, pieceRange_block positive known']
    exact disjoint_between mono differ
  case covers =>
    have blocks := Set.iUnion₂_congr fun i (known : i ∈ Set.Iio (pieceCount m)) =>
      pieceRange_block (p := p) positive known
    rw [blocks, covered_between mono, blockCut_past (ends_content positive le_rfl)]
    simp [blockCut]
  case later =>
    intro i past fits
    refine ⟨safe_pieceSize_iff.mpr fits, (returns_pieceSize fits).mpr ?_⟩
    have ends := ends_content positive past
    rw [UInt64.toNat_zero, PieceTable.sizeOf]
    omega

theorem piece_sizes_tile_short_last :
    let m : Metainfo := { onePieceMetainfo with pieceLength := 2 }
    0 < m.pieceLength ∧ pieceCount m = 3 ∧ Tiles .debug m (pieceCount m) := by
  intro m
  exact ⟨by decide, by decide, piece_sizes_tile .debug (by decide)⟩

end PieceTiling
