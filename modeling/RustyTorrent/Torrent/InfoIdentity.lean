import RustyTorrent.Bencode.CanonicalEncoding
import RustyTorrent.Peer.HandshakeAgreement
import RustyTorrent.Torrent.AcceptedTorrent
import RustyTorrent.Torrent.InfoHashSpan

/- What the info hash says about a torrent's contents. Where the scan stops at the info value, it
   identifies them; a text can also be arranged so that it is the hash of any other torrent. -/
namespace InfoIdentity
open RustExec OrderedMaps Utf8Text Numerals BencodeValue BencodeDecoder BencodeGrammar
  BencodeRecognition CanonicalEncoding EntrySpans TorrentMetainfo AcceptedTorrent InfoHashSpan
  StreamFutures TwoSides DuplexLinks PeerHandshake HandshakeAgreement

variable {p : Profile} {sha1 : Bytes → Digest}

def infoText (p : Profile) (data : ByteSeq) : Option Bytes :=
  (infoSpan p data).map fun span => (data.bytes.take span.stop).drop span.start

/-- No `4:infod` stands before the key of that value. -/
def KeyFirst (p : Profile) (data : ByteSeq) : Prop :=
  ∀ span, infoSpan p data = some span → ∀ i, Occurs data.bytes i → span.start ≤ i + 6

theorem key_first {data : ByteSeq} {span : Span} (located : infoSpan p data = some span)
    (clear : ∀ i < span.start - 6, ¬ Occurs data.bytes i) : KeyFirst p data := by
  intro span' located' i occurs
  obtain rfl := Option.some.inj (located.symm.trans located')
  by_contra early
  exact clear i (by omega) occurs

/-- Everything but the trackers and the hash. -/
structure SameContents (m m' : Metainfo) : Prop where
  name : m.name = m'.name
  pieceLength : m.pieceLength = m'.pieceLength
  pieceHashes : m.pieceHashes = m'.pieceHashes
  totalLength : m.totalLength = m'.totalLength
  files : m.files = m'.files
  isSingleFile : m.isSingleFile = m'.isSingleFile

structure Declares (p : Profile) (info : OrderedMap Bytes Value) (m : Metainfo) : Prop where
  name : (Value.dict info).getStr "name" = some (.bytes (utf8Bytes m.name))
  pieceLength : ∃ n, (Value.dict info).getStr "piece length" = some (.integer n) ∧
    m.pieceLength = n.toUInt64
  pieces : ∃ raw, (Value.dict info).getStr "pieces" = some (.bytes raw) ∧
    Returns (splitPieceHashes p raw) () m.pieceHashes ()
  layout : Returns (parseLayout p (.dict info) m.name) ()
    (m.files, m.totalLength, m.isSingleFile) ()

theorem accepted_iff {data : ByteSeq} {m : Metainfo} :
    Returns (fromBytes p sha1 data) () m () ↔
      ∃ root info, Returns (decode p data) () (.dict root) () ∧
        (Value.dict root).getStr "info" = some (.dict info) ∧
        m.announce = (((Value.dict root).getStr "announce").bind Value.asStr).getD "" ∧
        m.announceList = parseAnnounceList (.dict root) ∧
        Returns (computeInfoHash p sha1 data) () m.infoHash () ∧ Declares p info m := by
  rw [returns_fromBytes]
  constructor
  · intro accepted
    obtain ⟨root, info, raw, n, decoded, found, announce, tiers, hashed, named, sized, exact,
      pieces, split, layout⟩ := accepted
    exact ⟨root, info, decoded, found, announce, tiers, hashed,
      ⟨named, ⟨n, sized, exact⟩, ⟨raw, pieces, split⟩, layout⟩⟩
  · intro accepted
    obtain ⟨root, info, decoded, found, announce, tiers, hashed, declares⟩ := accepted
    obtain ⟨n, sized, exact⟩ := declares.pieceLength
    obtain ⟨raw, pieces, split⟩ := declares.pieces
    exact ⟨root, info, raw, n, decoded, found, announce, tiers, hashed, declares.name, sized,
      exact, pieces, split, declares.layout⟩

theorem declared_once {info : OrderedMap Bytes Value} {m m' : Metainfo}
    (one : Declares p info m) (other : Declares p info m') : SameContents m m' := by
  obtain ⟨n, sized, exact⟩ := one.pieceLength
  obtain ⟨n', sized', exact'⟩ := other.pieceLength
  obtain ⟨raw, pieces, split⟩ := one.pieces
  obtain ⟨raw', pieces', split'⟩ := other.pieces
  have name : m.name = m'.name := by
    have same := one.name.symm.trans other.name
    simpa using same
  obtain rfl : n = n' := by
    have same := sized.symm.trans sized'
    simpa using same
  obtain rfl : raw = raw' := by
    have same := pieces.symm.trans pieces'
    simpa using same
  have layout := other.layout
  rw [← name] at layout
  have laid := (returns_unique one.layout layout).1
  simp only [Prod.mk.injEq] at laid
  exact ⟨name, exact.trans exact'.symm, (returns_unique split split').1, laid.2.1, laid.1, laid.2.2⟩

theorem hash_of_text {data : ByteSeq} {m : Metainfo} (first : KeyFirst p data)
    (accepted : Returns (fromBytes p sha1 data) () m ()) :
    ∃ info text, infoText p data = some text ∧ m.infoHash = sha1 text ∧
      text.length < 2 ^ 63 ∧ Spells (.value (.dict info)) text ∧ Declares p info m := by
  obtain ⟨root, info, decoded, found, -, -, hashed, declares⟩ := accepted_iff.mp accepted
  obtain ⟨init, text, post, whole, closed, spelled, located⟩ := info_located decoded found
  have early : ∀ i, Occurs data.bytes i → init.length ≤ i := by
    intro i occurs
    have := first _ located i occurs
    dsimp only at this
    omega
  have here : Returns (computeInfoHash p sha1 data) () (sha1 text) () := by
    rw [computeInfoHash_eq_map, returns_map]
    exact ⟨_, (infoSlice_iff_first whole closed spelled).mpr early, rfl⟩
  have short : text.length < 2 ^ 63 := by
    have fits := data.fits
    rw [whole] at fits
    simp only [List.length_append] at fits
    omega
  refine ⟨info, text, ?_, (returns_unique hashed here).1, short, spelled, declares⟩
  rw [infoText, located, Option.map_some, (span_cut whole).2]

section Identified
variable {data data' : ByteSeq} {m m' : Metainfo}

theorem same_hash_iff (first : KeyFirst p data) (first' : KeyFirst p data')
    (accepted : Returns (fromBytes p sha1 data) () m ())
    (accepted' : Returns (fromBytes p sha1 data') () m' ())
    (apart : ∀ text ∈ infoText p data, ∀ text' ∈ infoText p data',
      sha1 text = sha1 text' → text = text') :
    m.infoHash = m'.infoHash ↔ infoText p data = infoText p data' := by
  obtain ⟨info, text, read, hash, -⟩ := hash_of_text first accepted
  obtain ⟨info', text', read', hash', -⟩ := hash_of_text first' accepted'
  rw [read, read', hash, hash', Option.some_inj]
  exact ⟨apart text read text' read', congrArg sha1⟩

theorem same_text_contents (first : KeyFirst p data) (first' : KeyFirst p data')
    (accepted : Returns (fromBytes p sha1 data) () m ())
    (accepted' : Returns (fromBytes p sha1 data') () m' ())
    (same : infoText p data = infoText p data') : SameContents m m' := by
  obtain ⟨info, text, read, -, short, spelled, declares⟩ := hash_of_text first accepted
  obtain ⟨info', text', read', -, -, spelled', declares'⟩ := hash_of_text first' accepted'
  rw [read, read', Option.some_inj] at same
  subst same
  have fits : (text ++ []).length < 2 ^ 63 := by simpa using short
  obtain ⟨values, -, -⟩ := spelling_unique fits spelled spelled' rfl
  obtain rfl : info = info' := by simpa using values
  exact declared_once declares declares'

end Identified

/-- Two clients shake hands over the torrents they were given. In every interleaving, a client
    that has returned has accepted the other exactly if both torrents have one info value, byte
    for byte, and then they agree in their pieces and files, whatever else stands in the two. -/
theorem shaken_hands_same_contents {torrents : Side → ByteSeq} {metas : Side → Metainfo}
    (accepted : ∀ side, Returns (fromBytes p sha1 (torrents side)) () (metas side) ())
    (first : ∀ side, KeyFirst p (torrents side))
    (apart : ∀ side, ∀ text ∈ infoText p (torrents side),
      ∀ text' ∈ infoText p (torrents side.other), sha1 text = sha1 text' → text = text')
    (peerId : Side → Vector UInt8 20) {link : Link HandshakeError HandshakeResult}
    (reachable : Reachable (clients (fun side => (metas side).infoHash) peerId) link) (side : Side)
    (returned : (link side).code.Returned) :
    ((∃ result, (link side).code = .done result) ↔
      infoText p (torrents side) = infoText p (torrents side.other)) ∧
    ((∃ result, (link side).code = .done result) →
      SameContents (metas side) (metas side.other)) := by
  have agrees := client_agrees (clients_conserved reachable) returned
  have identified := same_hash_iff (first side) (first side.other) (accepted side)
    (accepted side.other) (apart side)
  have ok_iff : (∃ result, (link side).code = .done result) ↔
      infoText p (torrents side) = infoText p (torrents side.other) :=
    agrees.ok_iff.trans identified
  exact ⟨ok_iff, fun done => same_text_contents (first side) (first side.other) (accepted side)
    (accepted side.other) (ok_iff.mp done)⟩

theorem clients_finish (infoHash peerId : Side → Vector UInt8 20) :
    ∃ link, Reachable (clients infoHash peerId) link ∧ ∀ side, (link side).code.Returned := by
  have onward : ∀ link, Reachable (clients infoHash peerId) link →
      ∃ link, Reachable (clients infoHash peerId) link ∧ ∀ side, (link side).code.Returned := by
    intro link
    induction link using works_wellFounded.induction with
    | _ link ih =>
      intro reachable
      by_cases all : ∀ side, (link side).code.Returned
      · exact ⟨link, reachable, all⟩
      · obtain ⟨side, running⟩ := not_forall.mp all
        obtain ⟨link', works⟩ := client_never_waits (clients_conserved reachable) running
        exact ih link' works (reachable.tail (.inl works))
  exact onward _ .refl

def tracked : ByteSeq :=
  ⟨utf8Bytes "d8:announce1:x4:infod6:lengthi5e4:name1:a12:piece lengthi8e6:pieces0:ee",
    by decide +kernel⟩

def untracked : ByteSeq :=
  ⟨utf8Bytes "d4:infod6:lengthi5e4:name1:a12:piece lengthi8e6:pieces0:ee", by decide +kernel⟩

def lengthHash (text : Bytes) : Digest := Vector.replicate 20 (UInt8.ofNat text.length)

def fiveBytesMeta (announce : String) : Metainfo :=
  ⟨announce, [], Vector.replicate 20 50, "a", 8, [], 5, [⟨5, ["a"]⟩], true⟩

def retracked (side : Side) : ByteSeq := if side = .left then tracked else untracked

def retrackedMetas (side : Side) : Metainfo := fiveBytesMeta (if side = .left then "x" else "")

theorem retracked_first (side : Side) : KeyFirst .debug (retracked side) := by
  cases side with
  | left =>
    exact key_first (by decide +kernel : _ = some ⟨infoName, 20, 70⟩) (by decide +kernel)
  | right =>
    exact key_first (by decide +kernel : _ = some ⟨infoName, 7, 57⟩) (by decide +kernel)

theorem shaken_hands_same_contents_retracked :
    ∃ link, Reachable (clients (fun side => (retrackedMetas side).infoHash)
        fun _ => Vector.replicate 20 0) link ∧
      (∃ result, (link .left).code = .done result) ∧
      SameContents (retrackedMetas .left) (retrackedMetas .right) := by
  obtain ⟨link, reachable, returned⟩ := clients_finish
    (fun side => (retrackedMetas side).infoHash) fun _ => Vector.replicate 20 0
  have same : infoText .debug (retracked .left) = infoText .debug (retracked .right) := by
    decide +kernel
  have texts : ∀ side, ∀ text ∈ infoText .debug (retracked side),
      ∀ text' ∈ infoText .debug (retracked side.other), lengthHash text = lengthHash text' →
        text = text' := by
    intro side text read text' read' _
    cases side with
    | left => exact Option.some.inj (read.symm.trans (same.trans read'))
    | right => exact Option.some.inj (read.symm.trans (same.symm.trans read'))
  have agreed := @shaken_hands_same_contents .debug lengthHash retracked retrackedMetas
    (fun side => by cases side <;> decide +kernel) retracked_first texts
    (fun _ => Vector.replicate 20 0) link reachable .left (returned .left)
  have done := agreed.1.mpr same
  exact ⟨link, reachable, done, agreed.2 done⟩

theorem occurs_behind (b : UInt8) (data : Bytes) (i : Nat) :
    Occurs (b :: data) (i + 1) ↔ Occurs data i := Iff.rfl

theorem behind_digits {digits rest : Bytes} (decimals : ∀ b ∈ digits, isDigit b = true) {i : Nat}
    (occurs : Occurs (digits ++ colon :: (infoHead ++ rest)) i) : digits.length + 1 ≤ i := by
  induction digits generalizing i with
  | nil =>
    cases i with
    | zero => simp [Occurs, infoKey, colon] at occurs
    | succ i => simp
  | cons d digits ih =>
    cases i with
    | zero =>
      cases digits with
      | nil => simp [Occurs, infoKey, infoHead] at occurs
      | cons d' digits =>
        have digit := decimals d' (by simp)
        simp only [List.cons_append, Occurs, infoKey, List.drop_zero, List.cons_prefix_cons]
          at occurs
        obtain ⟨-, rfl, -⟩ := occurs
        exact absurd digit (by decide)
    | succ i =>
      have later := ih (fun b member => decimals b (List.mem_cons_of_mem _ member))
        ((occurs_behind d _ i).mp occurs)
      simpa using later

theorem dict_of_letter {v : Value} {s : Bytes} (spelled : Spells (.value v) (letterD :: s)) :
    ∃ m, v = .dict m := by
  generalize whole : letterD :: s = text at spelled
  cases spelled with
  | integer reads => simp [letterD, letterI] at whole
  | bytes first reads =>
    obtain ⟨rfl, -⟩ := List.cons.inj whole
    exact absurd first (by decide)
  | list items => simp [letterD, letterL] at whole
  | dict pairs => exact ⟨_, rfl⟩

theorem returns_infoSlice {data : ByteSeq} {start : Nat} {text : Bytes} :
    Returns (infoSlice p data) () (start, text) () ↔
      ∃ i m suf, start = i + 6 ∧
        firstOccurrence data.bytes 0 (data.bytes.length - infoKey.length) = some i ∧
        data.bytes.drop (i + 6) = text ++ suf ∧ Spells (.value (.dict m)) text := by
  have fits := data.fits
  constructor
  · intro run
    obtain ⟨pos, _, scan, run⟩ := returns_bind.mp run
    rw [returns_whole_scan] at scan
    obtain ⟨start', found, run⟩ := returns_okOr_bind.mp run
    rw [returns_slice_bind] at run
    obtain ⟨⟨v, consumed⟩, _, parsed, run⟩ := returns_bind.mp run.2
    obtain ⟨stop, _, sum, run⟩ := returns_bind.mp run
    obtain ⟨same, -⟩ := returns_pure.mp (returns_slice_bind.mp run).2
    obtain ⟨rfl, rfl⟩ := Prod.mk.inj same
    rw [scan, Option.map_eq_some_iff] at found
    obtain ⟨i, first, rfl⟩ := found
    obtain ⟨⟨after, there⟩, -⟩ := firstOccurrence_iff.mp first
    obtain ⟨s, suf, split, rfl, spelled⟩ := decodes_leading.mp (returns_mapErr.mp parsed)
    change data.bytes.drop (i + 6) = s ++ suf at split
    have lengths := congrArg List.length split
    simp only [List.length_drop, List.length_append] at lengths
    have behind : s ++ suf = letterD :: after := by
      rw [← split, ← List.drop_drop, ← there]
      rfl
    have letter : ∃ tail, s = letterD :: tail := by
      obtain ⟨c, tail, rfl, -⟩ := value_first_byte spelled
      obtain ⟨rfl, -⟩ := List.cons.inj behind
      exact ⟨tail, rfl⟩
    obtain ⟨tail, rfl⟩ := letter
    obtain ⟨m, rfl⟩ := dict_of_letter spelled
    obtain ⟨rfl, -⟩ := (returns_usizeAdd (by omega)).mp sum
    rw [List.drop_take, split, Nat.add_sub_cancel_left, List.take_left' rfl]
    exact ⟨i, m, suf, rfl, first, split, spelled⟩
  · intro parts
    obtain ⟨i, m, suf, rfl, first, split, spelled⟩ := parts
    have long := value_length spelled
    have lengths := congrArg List.length split
    simp only [List.length_drop, List.length_append] at lengths
    have parsed : Returns (mapErr MetainfoError.decode (decodePartial p (data.drop (i + 6)))) ()
        (.dict m, text.length) () :=
      returns_mapErr.mpr (decodes_leading.mpr ⟨text, suf, split, rfl, spelled⟩)
    unfold infoSlice
    rw [returns_bind_step (returns_whole_scan.mpr rfl), first, returns_okOr_bind]
    refine ⟨i + 6, rfl, ?_⟩
    rw [returns_slice_bind]
    refine ⟨by omega, ?_⟩
    rw [returns_bind_step parsed]
    dsimp only
    rw [returns_usizeAdd_bind (by omega), returns_slice_bind, List.drop_take, split,
      Nat.add_sub_cancel_left, List.take_left' rfl]
    exact ⟨by omega, returns_value _ _⟩

/-- A torrent with the contents of one info text, whose scan stops at another one. -/
def borrowing (url : String) (text text' : Bytes) : Bytes :=
  letterD :: (encBytes (utf8Bytes "a") ++ encBytes (infoHead ++ text) ++
    (encBytes (utf8Bytes "announce") ++ encBytes (utf8Bytes url) ++
      (encBytes infoName ++ text' ++ []))) ++ [letterE]

def borrowingPairs (url : String) (text : Bytes) (info : OrderedMap Bytes Value) :
    List (Bytes × Value) :=
  [(utf8Bytes "a", .bytes (infoHead ++ text)), (utf8Bytes "announce", .bytes (utf8Bytes url)),
    (infoName, .dict info)]

theorem borrowing_length {url : String} {text text' : Bytes}
    (room : text.length + text'.length + (utf8Bytes url).length + 128 < 2 ^ 63) :
    (borrowing url text text').length < 2 ^ 63 := by
  have short (n : Nat) (small : n < 2 ^ 63) : (decimal n).length ≤ 20 :=
    decimal_length (by omega) (by omega)
  have first := short (infoHead ++ text).length (by simp [infoHead]; omega)
  have second := short (utf8Bytes url).length (by omega)
  have a : (encBytes (utf8Bytes "a")).length = 3 := by decide +kernel
  have announce : (encBytes (utf8Bytes "announce")).length = 10 := by decide +kernel
  have name : (encBytes infoName).length = 6 := by decide +kernel
  simp only [borrowing, List.length_append, List.length_cons, List.length_nil, a, announce, name]
  simp only [encBytes, List.length_append, List.length_cons]
  simp only [infoHead, List.length_append, List.length_cons, List.length_nil] at first ⊢
  omega

theorem borrowing_spelled {url : String} {text text' : Bytes} {info : OrderedMap Bytes Value}
    (fits : (borrowing url text text').length < 2 ^ 63)
    (spelled : Spells (.value (.dict info)) text') :
    Spells (.value (.dict (OrderedMap.ofPairs (borrowingPairs url text info))))
      (borrowing url text text') := by
  simp only [borrowing, List.length_append, List.length_cons, List.length_nil] at fits
  exact .dict (.pair (encBytes_spelled _ (by omega)) (encBytes_spelled _ (by omega))
    (.pair (encBytes_spelled _ (by omega)) (encBytes_spelled _ (by omega))
      (.pair (encBytes_spelled _ (by omega)) spelled .noPairs)))

theorem borrowing_hashes {url : String} {text text' : Bytes} {m : OrderedMap Bytes Value}
    (fits : (borrowing url text text').length < 2 ^ 63)
    (spelled : Spells (.value (.dict m)) text) :
    ∃ start, Returns (infoSlice p ⟨borrowing url text text', fits⟩) () (start, text) () := by
  let digits := decimal (infoHead ++ text).length
  let init : Bytes := [letterD, 0x31, colon, 0x61] ++ digits ++ [colon]
  let post : Bytes := encBytes (utf8Bytes "announce") ++ encBytes (utf8Bytes url) ++
    (encBytes infoName ++ text' ++ []) ++ [letterE]
  have key : encBytes (utf8Bytes "a") = [0x31, colon, 0x61] := by decide +kernel
  have whole : borrowing url text text' = init ++ infoHead ++ text ++ post := by
    have string : encBytes (infoHead ++ text) = digits ++ colon :: (infoHead ++ text) := rfl
    rw [borrowing, key, string]
    simp [init, post]
  refine ⟨init.length + 6, (infoSlice_iff_first whole (by simp [post]) spelled).mpr ?_⟩
  intro i occurs
  have unfolded : borrowing url text text' = letterD :: 0x31 :: colon :: 0x61 ::
      (digits ++ colon :: (infoHead ++ (text ++ post))) := by
    rw [whole]
    simp [init]
  change Occurs (borrowing url text text') i at occurs
  rw [unfolded] at occurs
  match i with
  | 0 | 1 | 2 | 3 => simp [Occurs, infoKey, letterD, colon] at occurs
  | i + 4 =>
    have later : digits.length + 1 ≤ i := behind_digits (decimal_digits _) occurs
    simp only [init, List.length_append, List.length_cons, List.length_nil]
    omega

theorem borrowing_root (url : String) (text : Bytes) (info : OrderedMap Bytes Value) :
    let root := OrderedMap.ofPairs (borrowingPairs url text info)
    (Value.dict root).getStr "info" = some (.dict info) ∧
      (((Value.dict root).getStr "announce").bind Value.asStr).getD "" = url ∧
      parseAnnounceList (.dict root) = [] := by
  intro root
  have found (key : String) : (Value.dict root).getStr key = root.get (utf8Bytes key) := rfl
  refine ⟨?_, ?_, ?_⟩
  · rw [found]
    simp [root, borrowingPairs, OrderedMap.ofPairs, OrderedMap.insertAll, get_insert, infoName]
  · rw [found]
    simp [root, borrowingPairs, OrderedMap.ofPairs, OrderedMap.insertAll, get_insert, infoName,
      as_str_of_text]
  · rw [parseAnnounceList, found]
    simp [root, borrowingPairs, OrderedMap.ofPairs, OrderedMap.insertAll, get_insert, infoName,
      OrderedMap.empty, Entries.get]

/-- Any accepted torrent can be given the info hash of any other one, under every hash
    function: the one slice is hashed in both. -/
theorem info_hash_borrowed (url : String) {lender other : ByteSeq} {m m' : Metainfo}
    (lends : Returns (fromBytes p sha1 lender) () m ())
    (accepted : Returns (fromBytes p sha1 other) () m' ())
    (room : lender.bytes.length + other.bytes.length + (utf8Bytes url).length + 128 < 2 ^ 63) :
    ∃ forged : ByteSeq, Returns (fromBytes p sha1 forged) ()
        { m' with announce := url, announceList := [], infoHash := m.infoHash } () ∧
      ∃ text start start', Returns (infoSlice p lender) () (start, text) () ∧
        Returns (infoSlice p forged) () (start', text) () := by
  obtain ⟨-, -, -, -, -, -, hashed, -⟩ := accepted_iff.mp lends
  rw [computeInfoHash_eq_map, returns_map] at hashed
  obtain ⟨⟨start, text⟩, sliced, hash⟩ := hashed
  obtain ⟨i, lent, suf, -, -, split, lentSpelled⟩ := returns_infoSlice.mp sliced
  have short : text.length ≤ lender.bytes.length := by
    have lengths := congrArg List.length split
    simp only [List.length_drop, List.length_append] at lengths
    omega
  obtain ⟨root, info, decoded, found, -, -, -, declares⟩ := accepted_iff.mp accepted
  obtain ⟨init, text', post, whole, -, spelled, -⟩ := info_located decoded found
  have short' : text'.length ≤ other.bytes.length := by
    rw [whole]
    simp only [List.length_append]
    omega
  have fits : (borrowing url text text').length < 2 ^ 63 := borrowing_length (by omega)
  obtain ⟨start', scanned⟩ := @borrowing_hashes p url text text' lent fits lentSpelled
  obtain ⟨info_found, announce, tiers⟩ := borrowing_root url text info
  refine ⟨⟨borrowing url text text', fits⟩, accepted_iff.mpr ?_, text, start, start', sliced,
    scanned⟩
  refine ⟨_, info, decodes_value.mpr (borrowing_spelled fits spelled), info_found, announce.symm,
    tiers.symm, ?_, ⟨declares.name, declares.pieceLength, declares.pieces, declares.layout⟩⟩
  rw [computeInfoHash_eq_map, returns_map]
  exact ⟨_, scanned, hash⟩

def twoBytes : ByteSeq :=
  ⟨utf8Bytes "d4:infod6:lengthi2e4:name1:b12:piece lengthi1e6:pieces0:ee", by decide +kernel⟩

def twoBytesMeta : Metainfo :=
  ⟨"", [], lengthHash (twoBytes.bytes.take 50), "b", 1, [], 2, [⟨2, ["b"]⟩], true⟩

theorem info_hash_borrowed_two_bytes :
    ∃ forged : ByteSeq, Returns (fromBytes .debug lengthHash forged) ()
        { twoBytesMeta with announce := "y", infoHash := (fiveBytesMeta "x").infoHash } () ∧
      ∃ text start start', Returns (infoSlice .debug tracked) () (start, text) () ∧
        Returns (infoSlice .debug forged) () (start', text) () :=
  @info_hash_borrowed .debug lengthHash "y" tracked twoBytes (fiveBytesMeta "x")
    twoBytesMeta (by decide +kernel) (by decide +kernel) (by decide +kernel)

end InfoIdentity
