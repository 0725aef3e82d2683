import RustyTorrent.Bencode.EntrySpans
import RustyTorrent.Torrent.TorrentMetainfo

/- The two ways to the info dictionary: the scan that compute_info_hash makes for the first
   `4:infod`, and the decoder, whose map keeps the last top-level info key. -/
namespace InfoHashSpan
open RustExec OrderedMaps Utf8Text Numerals BencodeValue BencodeDecoder DecoderCursor
  BencodeGrammar BencodeRecognition EntrySpans TorrentMetainfo

variable {p : Profile}

def infoName : Bytes := utf8Bytes "info"

/-- Where the main decoder parses the value that it keeps for the top-level info key. -/
def infoSpan (p : Profile) (data : ByteSeq) : Option Span :=
  match (decodeSpans p data ()).outcome with
  | .ok (_, spans) => spanOf infoName spans
  | _ => none

def Occurs (data : Bytes) (i : Nat) : Prop := infoKey <+: data.drop i

instance (data : Bytes) (i : Nat) : Decidable (Occurs data i) :=
  inferInstanceAs (Decidable (infoKey <+: data.drop i))

theorem window_eq_iff {data : Bytes} {i : Nat} :
    (data.take (i + 7)).drop i = infoKey ↔ Occurs data i := by
  rw [Occurs, List.prefix_iff_eq_take, List.drop_take, Nat.add_sub_cancel_left, eq_comm]
  rfl

def firstOccurrence (data : Bytes) (i n : Nat) : Option Nat :=
  (List.range' i n).find? fun j => Occurs data j

theorem returns_scan {data : Bytes} {i n : Nat} {r : Option Nat} {u : Unit}
    (fits : data.length < 2 ^ 63) (inside : i + n + 7 ≤ data.length + 1) :
    Returns (scanInfoKey p data i n) () r u ↔ r = (firstOccurrence data i n).map (· + 6) := by
  induction n generalizing i with
  | zero => simp [scanInfoKey, firstOccurrence, eq_comm]
  | succ n ih =>
    have seven : infoKey.length = 7 := rfl
    have bounds : i ≤ i + 7 ∧ i + 7 ≤ data.length := by omega
    simp only [scanInfoKey, seven]
    rw [returns_usizeAdd_bind (by omega), returns_slice_bind]
    simp only [bounds, and_self, true_and, window_eq_iff]
    rw [firstOccurrence, List.range'_succ, List.find?_cons]
    by_cases here : Occurs data i
    · simp only [here, ↓reduceIte, decide_true, Option.map_some]
      rw [returns_usizeAdd_bind (by omega), returns_pure, eq_comm]
      simp
    · simp only [here, ↓reduceIte, decide_false]
      exact ih (by omega)

theorem firstOccurrence_iff {data : Bytes} {n i : Nat} :
    firstOccurrence data 0 n = some i ↔
      Occurs data i ∧ i < n ∧ ∀ j < i, ¬ Occurs data j := by
  rw [firstOccurrence, List.find?_range'_eq_some, List.mem_range'_1]
  simp

theorem returns_whole_scan {data : ByteSeq} {r : Option Nat} {u : Unit} :
    Returns (scanInfoKey p data.bytes 0 (data.bytes.length - infoKey.length)) () r u ↔
      r = (firstOccurrence data.bytes 0 (data.bytes.length - infoKey.length)).map (· + 6) := by
  have seven : infoKey.length = 7 := rfl
  by_cases short : data.bytes.length < 7
  · have empty : data.bytes.length - 7 = 0 := by omega
    rw [seven, empty]
    simp [scanInfoKey, firstOccurrence, eq_comm]
  · exact returns_scan data.fits (by omega)

theorem before_start_absent {data : ByteSeq} {start i : Nat} {text : Bytes}
    (run : Returns (infoSlice p data) () (start, text) ()) (place : start = i + 6) :
    ∀ j < i, ¬ Occurs data.bytes j := by
  obtain ⟨pos, _, scan, run⟩ := returns_bind.mp run
  rw [returns_whole_scan] at scan
  obtain ⟨start', found, run⟩ := returns_okOr_bind.mp run
  rw [returns_slice_bind] at run
  obtain ⟨⟨v, consumed⟩, _, -, run⟩ := returns_bind.mp run.2
  obtain ⟨stop, _, -, run⟩ := returns_bind.mp run
  obtain ⟨same, -⟩ := returns_pure.mp (returns_slice_bind.mp run).2
  obtain ⟨rfl, -⟩ := Prod.mk.inj same
  rw [scan, Option.map_eq_some_iff] at found
  obtain ⟨i', first, same⟩ := found
  obtain rfl : i' = i := by omega
  exact (firstOccurrence_iff.mp first).2.2

/-- `4:info` -/
def infoHead : Bytes := [0x34, 0x3a, 0x69, 0x6e, 0x66, 0x6f]

theorem info_key_text {k : Bytes} (spelled : Spells (.value (.bytes infoName)) k) :
    ∃ init, k = init ++ infoHead := by
  have four : infoName.length = 4 := by decide +kernel
  have name : colon :: infoName = [0x3a, 0x69, 0x6e, 0x66, 0x6f] := by decide +kernel
  cases spelled with
  | @bytes _ c raw first reads =>
    rw [four, parseUsize_of_digit first, Option.filter_eq_some_iff] at reads
    obtain ⟨init, last, split⟩ := List.eq_nil_or_concat (c :: raw) |>.resolve_left (by simp)
    rw [List.concat_eq_append] at split
    have value := reads.1
    rw [split] at value
    have digit := digitsValue_digits value last (by simp)
    have tens := digitsValue_last value
    rw [is_digit_iff] at digit
    have four : last = 0x34 := by
      rw [← UInt8.toNat_inj]
      change last.toNat = 52
      omega
    refine ⟨init, ?_⟩
    rw [split, name, four]
    simp [infoHead]

theorem info_located {data : ByteSeq} {root m : OrderedMap Bytes Value} {u : Unit}
    (decoded : Returns (decode p data) () (.dict root) u)
    (found : root.get infoName = some (.dict m)) :
    ∃ init text post, data.bytes = init ++ infoHead ++ text ++ post ∧ post ≠ [] ∧
      Spells (.value (.dict m)) text ∧
      infoSpan p data = some ⟨infoName, init.length + 6, init.length + 6 + text.length⟩ := by
  obtain ⟨spans, run⟩ := decode_dict_iff.mp decoded
  obtain ⟨entries, whole, rfl, rfl⟩ := decodeSpans_entries run
  obtain ⟨before, entry, after, rfl, key, value, last⟩ := last_entry found
  obtain ⟨init, keyText⟩ := info_key_text (key ▸ entry.keySpelled)
  refine ⟨letterD :: textOf before ++ init, entry.valueText, textOf after ++ [letterE], ?_, by simp,
    value ▸ entry.valueSpelled, ?_⟩
  · rw [whole]
    simp [textOf, Entry.text, keyText]
  · have span := spanOf_last before 1 fun other member => key ▸ last other member
    rw [key] at span
    have here : 1 + (textOf before).length + entry.keyText.length =
        (letterD :: textOf before ++ init).length + 6 := by
      simp only [keyText, infoHead, List.length_append, List.length_cons, List.length_nil]
      omega
    have stop : 1 + (textOf before).length + entry.text.length =
        (letterD :: textOf before ++ init).length + 6 + entry.valueText.length := by
      rw [← here, Entry.text, List.length_append]
      omega
    rw [here, stop] at span
    unfold infoSpan
    rw [run.1]
    exact span

theorem span_cut {data init text post : Bytes} (whole : data = init ++ infoHead ++ text ++ post) :
    data.drop (init.length + 6) = text ++ post ∧
      (data.take (init.length + 6 + text.length)).drop (init.length + 6) = text := by
  have suffix : data.drop (init.length + 6) = text ++ post := by
    rw [whole, List.append_assoc]
    exact List.drop_left' (by simp [infoHead])
  refine ⟨suffix, ?_⟩
  rw [List.drop_take, suffix, Nat.add_sub_cancel_left]
  exact List.take_left' rfl

theorem dict_text {m : OrderedMap Bytes Value} {s : Bytes} (spelled : Spells (.value (.dict m)) s) :
    ∃ tail, s = letterD :: tail := by
  cases spelled with
  | dict pairs => exact ⟨_, rfl⟩

theorem occurs_before_dict {init text post : Bytes} {m : OrderedMap Bytes Value}
    (spelled : Spells (.value (.dict m)) text) :
    Occurs (init ++ infoHead ++ text ++ post) init.length := by
  obtain ⟨tail, rfl⟩ := dict_text spelled
  refine ⟨tail ++ post, ?_⟩
  simp [infoKey, infoHead, letterD]

theorem scan_finds_first {data : ByteSeq} {i : Nat}
    (inside : i < data.bytes.length - infoKey.length) (here : Occurs data.bytes i)
    (first : ∀ j, Occurs data.bytes j → i ≤ j) :
    Returns (scanInfoKey p data.bytes 0 (data.bytes.length - infoKey.length)) ()
      (some (i + 6)) () := by
  have earlier : ∀ j < i, ¬ Occurs data.bytes j := by
    intro j early occurs
    have := first j occurs
    omega
  have found : firstOccurrence data.bytes 0 (data.bytes.length - infoKey.length) = some i :=
    firstOccurrence_iff.mpr ⟨here, inside, earlier⟩
  rw [returns_whole_scan, found]
  rfl

theorem infoSlice_iff_first {data : ByteSeq} {init text post : Bytes}
    {m : OrderedMap Bytes Value} (whole : data.bytes = init ++ infoHead ++ text ++ post)
    (closed : post ≠ []) (spelled : Spells (.value (.dict m)) text) :
    Returns (infoSlice p data) () (init.length + 6, text) () ↔
      ∀ i, Occurs data.bytes i → init.length ≤ i := by
  have lengths : data.bytes.length = init.length + 6 + text.length + post.length := by
    rw [whole]
    simp only [infoHead, List.length_append, List.length_cons, List.length_nil]
  have fits := data.fits
  have more : 0 < post.length := List.length_pos_iff.mpr closed
  constructor
  · intro run i occurs
    by_contra early
    exact before_start_absent run rfl i (by omega) occurs
  · intro first
    have long := value_length spelled
    have here : Occurs data.bytes init.length := by
      rw [whole]
      exact occurs_before_dict spelled
    -- the scan leaves out the last place, where only the end of the root can stand
    have inside : init.length < data.bytes.length - infoKey.length := by
      simp only [infoKey, List.length_cons, List.length_nil]
      omega
    obtain ⟨suffix, cut⟩ := span_cut whole
    have parsed : Returns (mapErr MetainfoError.decode
        (decodePartial p (data.drop (init.length + 6)))) () (.dict m, text.length) () :=
      returns_mapErr.mpr (decodes_leading.mpr ⟨text, post, suffix, rfl, spelled⟩)
    unfold infoSlice
    rw [returns_bind_step (scan_finds_first inside here first), returns_okOr_bind]
    refine ⟨init.length + 6, rfl, ?_⟩
    rw [returns_slice_bind]
    refine ⟨by omega, ?_⟩
    rw [returns_bind_step parsed]
    dsimp only
    rw [returns_usizeAdd_bind (by omega), returns_slice_bind, cut]
    refine ⟨by omega, ?_⟩
    exact returns_value _ _

theorem computeInfoHash_eq_map (sha1 : Bytes → Digest) (data : ByteSeq) :
    computeInfoHash p sha1 data = (fun found => sha1 found.2) <$> infoSlice p data := by
  rw [map_eq_pure_bind]
  rfl

/-- What is hashed is the value that from_bytes reads, exactly when no `4:infod` stands before
    the key of that value. -/
theorem hashed_span_iff_first {data : ByteSeq} {root m : OrderedMap Bytes Value}
    (decoded : Returns (decode p data) () (.dict root) ())
    (found : (Value.dict root).getStr "info" = some (.dict m)) :
    ∃ span, infoSpan p data = some span ∧
      ((Returns (infoSlice p data) ()
            (span.start, (data.bytes.take span.stop).drop span.start) () ∧
          ∀ sha1, Returns (computeInfoHash p sha1 data) ()
            (sha1 ((data.bytes.take span.stop).drop span.start)) ()) ↔
        ∀ i, Occurs data.bytes i → span.start ≤ i + 6) := by
  obtain ⟨init, text, post, whole, closed, spelled, located⟩ := info_located decoded found
  refine ⟨_, located, ?_⟩
  dsimp only
  rw [(span_cut whole).2, infoSlice_iff_first whole closed spelled]
  constructor
  · rintro ⟨first, -⟩ i occurs
    have := first i occurs
    omega
  · intro first
    have early : ∀ i, Occurs data.bytes i → init.length ≤ i := fun i occurs => by
      have := first i occurs
      omega
    refine ⟨early, fun sha1 => ?_⟩
    rw [computeInfoHash_eq_map, returns_map]
    exact ⟨_, (infoSlice_iff_first whole closed spelled).mpr early, rfl⟩

theorem hashed_span_iff_first_plain :
    ∃ data : ByteSeq, data.bytes = utf8Bytes "d8:announce1:x4:infod1:ai1eee" ∧
      ∃ span, infoSpan .release data = some span ∧
      ((Returns (infoSlice .release data) ()
            (span.start, (data.bytes.take span.stop).drop span.start) () ∧
          ∀ sha1, Returns (computeInfoHash .release sha1 data) ()
            (sha1 ((data.bytes.take span.stop).drop span.start)) ()) ↔
        ∀ i, Occurs data.bytes i → span.start ≤ i + 6) :=
  ⟨⟨utf8Bytes "d8:announce1:x4:infod1:ai1eee", by decide +kernel⟩, rfl,
    @hashed_span_iff_first _ _ (OrderedMap.ofPairs [(utf8Bytes "announce", .bytes [0x78]),
      (utf8Bytes "info", .dict (OrderedMap.ofPairs [([0x61], .integer 1)]))])
      (OrderedMap.ofPairs [([0x61], .integer 1)]) (by decide +kernel) (by decide +kernel)⟩

/-- A string of the torrent holds the bytes of an info key and of a dictionary's start. -/
def decoyTorrent : ByteSeq := ⟨utf8Bytes "d1:a7:4:infod4:infod1:bi1eee", by decide +kernel⟩

theorem decoy_hashes_other_span :
    ∃ root m : OrderedMap Bytes Value, Returns (decode .release decoyTorrent) () (.dict root) () ∧
      (Value.dict root).getStr "info" = some (.dict m) ∧
      infoSpan .release decoyTorrent = some ⟨infoName, 19, 27⟩ ∧
      Returns (infoSlice .release decoyTorrent) () (12, utf8Bytes "d4:infod1:bi1eee") () ∧
      ¬ Returns (infoSlice .release decoyTorrent) () (19, utf8Bytes "d1:bi1ee") () :=
  ⟨OrderedMap.ofPairs [([0x61], .bytes (utf8Bytes "4:infod")),
      (utf8Bytes "info", .dict (OrderedMap.ofPairs [([0x62], .integer 1)]))],
    OrderedMap.ofPairs [([0x62], .integer 1)], by decide +kernel, by decide +kernel,
    by decide +kernel, by decide +kernel, by decide +kernel⟩

end InfoHashSpan
