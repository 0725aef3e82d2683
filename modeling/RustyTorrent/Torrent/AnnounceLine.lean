import RustyTorrent.Library.StrSlices
import RustyTorrent.Torrent.AcceptedTorrent

/- The announce line of cmd_info in src/main.rs, with the text that truncate cuts to the width
   of a column. The other lines that the command prints are left out. -/
namespace AnnounceLine
open RustExec StrSlices Utf8Text BencodeValue TorrentMetainfo AcceptedTorrent

variable {ε : Type} {p : Profile} {sha1 : Bytes → Digest} {data : ByteSeq}

def truncate (p : Profile) (s : String) (maxLen : Nat) : Exec Unit ε String :=
  if byteLength s.toList ≤ maxLen then pure s
  else do
    let stop ← usizeSub p maxLen 3
    let start ← sliceStr s.toList 0 stop
    return String.ofList start ++ "..."

def announceLine (p : Profile) (sha1 : Bytes → Digest) (data : ByteSeq) :
    Exec Unit MetainfoError String := do
  let torrent ← fromBytes p sha1 data
  truncate p torrent.announce 40

/-- The text itself if it fits, and otherwise a start of it with dots behind that fits. -/
structure Abbreviates (s : String) (maxLen : Nat) (shown : String) : Prop where
  whole : byteLength s.toList ≤ maxLen → shown = s
  cut : maxLen < byteLength s.toList → ∃ start rest, s.toList = start ++ rest ∧
    shown.toList = start ++ ['.', '.', '.'] ∧ byteLength shown.toList ≤ maxLen

theorem truncate_short {s : String} {maxLen : Nat} (short : byteLength s.toList ≤ maxLen) :
    (truncate p s maxLen : Exec Unit ε String) = pure s := if_pos short

theorem returns_truncate_cut {s shown : String} {maxLen : Nat} {u : Unit} (dots : 3 ≤ maxLen)
    (width : maxLen < 2 ^ 64) (long : maxLen < byteLength s.toList) :
    Returns (truncate p s maxLen : Exec Unit ε String) () shown u ↔
      ∃ start rest, (s.toList = start ++ rest ∧ byteLength start = maxLen - 3) ∧
        shown = String.ofList start ++ "..." := by
  have stop : Returns (usizeSub p maxLen 3 : Exec Unit ε Nat) () (maxLen - 3) () :=
    (returns_usizeSub dots width).mpr ⟨rfl, rfl⟩
  unfold truncate
  rw [if_neg (Nat.not_le.mpr long), returns_bind_step stop, returns_bind]
  constructor
  · intro shows
    obtain ⟨start, _, sliced, run⟩ := shows
    obtain ⟨⟨rest, cut⟩, -⟩ := returns_slice_start.mp sliced
    exact ⟨start, rest, cut, (returns_pure.mp run).1.symm⟩
  · intro split
    obtain ⟨start, rest, cut, rfl⟩ := split
    exact ⟨start, (), returns_slice_start.mpr ⟨⟨rest, cut⟩, rfl⟩, returns_value _ _⟩

theorem truncate_abbreviates_iff {s : String} {maxLen : Nat} (dots : 3 ≤ maxLen)
    (width : maxLen < 2 ^ 64) :
    (∃ shown, Returns (truncate p s maxLen : Exec Unit ε String) () shown () ∧
        Abbreviates s maxLen shown) ↔
      byteLength s.toList ≤ maxLen ∨ OnBoundary s.toList (maxLen - 3) := by
  by_cases short : byteLength s.toList ≤ maxLen
  · rw [truncate_short short]
    refine iff_of_true ⟨s, returns_value _ _, fun _ => rfl, ?_⟩ (Or.inl short)
    intro long
    omega
  · have long := Nat.not_le.mp short
    simp only [returns_truncate_cut dots width long, short, false_or]
    constructor
    · intro shows
      obtain ⟨_, ⟨start, rest, cut, -⟩, -⟩ := shows
      exact ⟨start, rest, cut⟩
    · intro boundary
      obtain ⟨start, rest, split, size⟩ := boundary
      refine ⟨_, ⟨start, rest, ⟨split, size⟩, rfl⟩, fun fits => absurd fits short, fun _ => ?_⟩
      have text : (String.ofList start ++ "...").toList = start ++ ['.', '.', '.'] := by simp
      have three : byteLength ['.', '.', '.'] = 3 := by decide
      refine ⟨start, rest, split, text, ?_⟩
      rw [text, byteLength_append, three, size]
      omega

/-- The announce line of an accepted torrent is shown exactly if its text has at most 40 bytes
    or byte 37 is a character boundary. -/
theorem announce_shown_iff {m : Metainfo} (accepted : Returns (fromBytes p sha1 data) () m ()) :
    (∃ shown, Returns (announceLine p sha1 data) () shown () ∧ Abbreviates m.announce 40 shown) ↔
      byteLength m.announce.toList ≤ 40 ∨ OnBoundary m.announce.toList 37 := by
  unfold announceLine
  simp only [returns_bind_step accepted]
  exact truncate_abbreviates_iff (by decide) (by decide)

def announcing (announce : String) : Bytes :=
  utf8Bytes ("d8:announce41:" ++ announce ++
    "4:infod6:lengthi1e4:name1:n12:piece lengthi1e6:pieces0:ee")

def announcingMetainfo (announce : String) : Metainfo :=
  ⟨announce, [], .replicate 20 0, "n", 1, [], 1, [⟨1, ["n"]⟩], true⟩

theorem announce_shown_iff_ascii :
    let torrent : ByteSeq :=
      ⟨announcing "udp://tracker.example.org:6969/announce/a", by decide +kernel⟩
    ∃ shown, Returns (announceLine .release (fun _ => .replicate 20 0) torrent) () shown () ∧
      Abbreviates "udp://tracker.example.org:6969/announce/a" 40 shown := by
  intro torrent
  have accepted : Returns (fromBytes .release (fun _ => .replicate 20 0) torrent) ()
      (announcingMetainfo "udp://tracker.example.org:6969/announce/a") () := by decide +kernel
  have ascii : ("udp://tracker.example.org:6969/announce/a".toList.all fun c =>
      decide (c.toNat < 128)) = true := by decide +kernel
  refine (announce_shown_iff accepted).mpr (Or.inr (onBoundary_ascii ?_ (by decide +kernel)))
  intro c member
  exact of_decide_eq_true (List.all_eq_true.mp ascii c member)

/-- Byte 37 of the announce is the second one of an `é`. -/
theorem accented_announce_panics :
    let torrent : ByteSeq :=
      ⟨announcing "udp://tracker.example.org:6969/aaaaaéabc", by decide +kernel⟩
    Returns (fromBytes .release (fun _ => .replicate 20 0) torrent) ()
        (announcingMetainfo "udp://tracker.example.org:6969/aaaaaéabc") () ∧
      Panics (announceLine .release (fun _ => .replicate 20 0) torrent) () ∧
      ¬ ∃ shown, Returns (announceLine .release (fun _ => .replicate 20 0) torrent) () shown () ∧
        Abbreviates "udp://tracker.example.org:6969/aaaaaéabc" 40 shown := by
  intro torrent
  have panics : Panics (announceLine .release (fun _ => .replicate 20 0) torrent) () := by
    refine ⟨.bounds, ?_⟩
    decide +kernel
  refine ⟨by decide +kernel, panics, ?_⟩
  intro shows
  obtain ⟨shown, run, -⟩ := shows
  exact panics_not_returns panics run

end AnnounceLine
