import RustyTorrent.Peer.HaveRecorded

/- A peer's updates around the hand-over from recv_bitfield to handle_message: what the client
   knows of a peer after any number of them. -/
namespace UpdateHandOver
open RustExec BigEndian ByteStreams PeerMessage WireFraming PieceBitfield PeerConnection TimeoutStep
  BitfieldRule HaveRecorded

variable {p : Profile} {numPieces : Nat}

def hasId (id : MessageId) : Frame → Bool
  | .keepAlive => false
  | .message byte _ _ => byte = id.toByte

/-- Choke, Unchoke, Interested, NotInterested, Have, Bitfield or a keep-alive. -/
def isUpdate (frame : Frame) : Bool := skipped frame || hasId .bitfield frame

def sized (numPieces : Nat) : Frame → Prop
  | .keepAlive => True
  | .message byte payload _ =>
      byte = MessageId.bitfield.toByte → payload.length = (numPieces + 7) / 8

def announces (piece : Nat) : Frame → Prop
  | .keepAlive => False
  | .message byte payload _ =>
      byte = MessageId.bitfield.toByte ∧ bitOf payload piece = true ∨
      byte = MessageId.have.toByte ∧ 4 ≤ payload.length ∧ ofBe (payload.take 4) = piece

def isChoking (frame : Frame) : Bool := hasId .choke frame || hasId .unchoke frame

def unchokes (seen : List Frame) : Prop :=
  ∃ frame, (seen.filter isChoking).getLast? = some frame ∧ hasId .unchoke frame = true

/-- The client's view of a peer is what these frames say. -/
def Reflects (p : Profile) (numPieces : Nat) (seen : List Frame) (c : PeerClient) : Prop :=
  (c.choked = false ↔ unchokes seen) ∧
    ∀ piece, piece < numPieces →
      (Returns (c.bitfield.hasPiece p piece : Exec Unit ClientError Bool) () true () ↔
        ∃ frame ∈ seen, announces piece frame)

/-- The number of frames that recv_bitfield takes when the first k arrive before the timeout. -/
def handOver (frames : List Frame) (k : Nat) : Nat :=
  match (frames.take k).findIdx? (hasId .bitfield) with
  | some i => i + 1
  | none => k

/-- One round of a caller that passes on what it reads. -/
def receive (p : Profile) : Exec PeerClient ClientError Unit := do
  match ← readMessage with
  | some msg => handleMessage p msg
  | none => return ()

def receives (p : Profile) : Nat → Exec PeerClient ClientError Unit
  | 0 => return ()
  | rounds + 1 => do
      receive p
      receives p rounds

def arrive (c : PeerClient) (bytes : Bytes) : PeerClient :=
  { c with stream := { c.stream with arrived := c.stream.arrived ++ bytes } }

/-- What the client takes note of: up to the hand-over only a bitfield, after it all but one. -/
def noted (frames : List Frame) (k m : Nat) : List Frame :=
  (frames.take (handOver frames k)).filter (hasId .bitfield) ++
    ((frames.drop (handOver frames k)).take m).filter (fun frame => !hasId .bitfield frame)

structure Tracks (numPieces : Nat) (seen : List Frame) (c : PeerClient) : Prop where
  pieces : c.bitfield.numPieces = numPieces
  size : c.bitfield.data.length = (numPieces + 7) / 8
  choking : c.choked = false ↔ unchokes seen
  bits : ∀ piece, piece < numPieces →
    (bitOf c.bitfield.data piece = true ↔ ∃ frame ∈ seen, announces piece frame)

theorem tracks_reflects {seen : List Frame} {c : PeerClient} (tracks : Tracks numPieces seen c) :
    Reflects p numPieces seen c := by
  refine ⟨tracks.choking, ?_⟩
  intro piece known
  rw [returns_hasPiece, tracks.pieces, decide_eq_true known, Bool.true_and,
    ← tracks.bits piece known, and_iff_left rfl]
  exact eq_comm

theorem receive_frame {frame : Frame} {o : Option Message} {rest : Bytes} {ending : Ending}
    {c : PeerClient} (result : frame.result = .ok o)
    (here : c.stream = ⟨frame.bytes ++ rest, ending⟩) :
    Returns readMessage c o { c with stream := ⟨rest, ending⟩ } := by
  obtain ⟨outcome, state⟩ := read_frame frame rest ending
  refine returns_onField.mpr ⟨_, returns_mapErr.mpr ?_, rfl⟩
  rw [here]
  exact ⟨outcome.trans result, state⟩

theorem unchokes_snoc {seen : List Frame} {frame : Frame} (choking : isChoking frame = true) :
    unchokes (seen ++ [frame]) ↔ hasId .unchoke frame = true := by
  unfold unchokes
  rw [List.filter_append, List.filter_cons_of_pos choking, List.filter_nil, List.getLast?_concat]
  simp

theorem unchokes_other {seen : List Frame} {frame : Frame} (other : isChoking frame = false) :
    unchokes (seen ++ [frame]) ↔ unchokes seen := by
  unfold unchokes
  rw [List.filter_append, List.filter_cons_of_neg (by simp [other]), List.filter_nil,
    List.append_nil]

theorem announces_snoc {seen : List Frame} {frame : Frame} {piece : Nat} :
    (∃ f ∈ seen ++ [frame], announces piece f) ↔
      (∃ f ∈ seen, announces piece f) ∨ announces piece frame := by
  simp [or_and_right, exists_or]

theorem tracks_idle {seen : List Frame} {frame : Frame} {c : PeerClient}
    (tracks : Tracks numPieces seen c) (other : isChoking frame = false)
    (silent : ∀ piece, ¬ announces piece frame) :
    Tracks numPieces (seen ++ [frame]) c := by
  refine ⟨tracks.pieces, tracks.size, tracks.choking.trans (unchokes_other other).symm, ?_⟩
  intro piece known
  rw [tracks.bits piece known, announces_snoc, or_iff_left (silent piece)]

theorem tracks_stream {seen : List Frame} {c : PeerClient} (tracks : Tracks numPieces seen c)
    (stream : Reader) : Tracks numPieces seen { c with stream } :=
  ⟨tracks.pieces, tracks.size, tracks.choking, tracks.bits⟩

theorem tracks_choking {seen : List Frame} {frame : Frame} {c : PeerClient}
    (tracks : Tracks numPieces seen c) (choking : isChoking frame = true)
    (silent : ∀ piece, ¬ announces piece frame) :
    Tracks numPieces (seen ++ [frame]) { c with choked := !hasId .unchoke frame } := by
  refine ⟨tracks.pieces, tracks.size, ?_, ?_⟩
  · rw [unchokes_snoc choking]
    simp
  · intro piece known
    rw [tracks.bits piece known, announces_snoc, or_iff_left (silent piece)]

theorem tracks_have {seen : List Frame} {frame : Frame} {c : PeerClient} (index : Nat)
    (tracks : Tracks numPieces seen c) (other : isChoking frame = false)
    (tells : ∀ piece, announces piece frame ↔ index = piece) :
    Tracks numPieces (seen ++ [frame])
      { c with bitfield := if index < c.bitfield.numPieces then
          { c.bitfield with data := insertPiece c.bitfield.data index } else c.bitfield } := by
  by_cases known : index < c.bitfield.numPieces
  · rw [if_pos known]
    refine ⟨tracks.pieces, ?_, tracks.choking.trans (unchokes_other other).symm, ?_⟩
    · rw [insertPiece_length, tracks.size]
    · intro piece inside
      -- set_piece has a byte for every known piece, as the bitfield has its full size
      have room : index / 8 < c.bitfield.data.length := by
        rw [tracks.size]
        have := tracks.pieces
        omega
      rw [bitOf_insertPiece room, announces_snoc, tells, Bool.or_eq_true, beq_iff_eq,
        tracks.bits piece inside]
  · rw [if_neg known]
    refine ⟨tracks.pieces, tracks.size, tracks.choking.trans (unchokes_other other).symm, ?_⟩
    intro piece inside
    have past : ¬ announces piece frame := by
      rw [tells]
      have := tracks.pieces
      omega
    rw [tracks.bits piece inside, announces_snoc, or_iff_left past]

theorem known_update {byte : UInt8} {payload : Bytes}
    {fits : 1 + payload.length ≤ maxMessageSize.toNat}
    (update : isUpdate (.message byte payload fits) = true) :
    ∃ known, knownIds[byte.toNat]? = some known ∧ byte = known.toByte := by
  have small : byte.toNat < 9 := by
    rcases Bool.or_eq_true _ _ |>.mp update with skip | same
    · have := of_decide_eq_true skip
      omega
    · rw [of_decide_eq_true same]
      decide
  refine ⟨_, List.getElem?_eq_getElem small, ?_⟩
  exact UInt8.toNat_inj.mp (knownIds_index (List.getElem?_eq_getElem small))

theorem parseHave_value (payload : ByteSeq) (long : 4 ≤ payload.bytes.length) :
    ∃ index : UInt32, (Message.mk .have payload).parseHave = .ok index ∧
      index.toNat = ofBe (payload.bytes.take 4) := by
  have short : ¬ payload.bytes.length < 4 := by omega
  have bound : ofBe (payload.bytes.take 4) < 2 ^ 32 := by
    have small := ofBe_lt (payload.bytes.take 4)
    rwa [List.length_take, Nat.min_eq_left long] at small
  refine ⟨UInt32.ofNat (ofBe (payload.bytes.take 4)), ?_, ?_⟩
  · simp only [Message.parseHave, ne_eq, not_true_eq_false, short, ↓reduceIte]
  · rw [UInt32.toNat_ofNat', Nat.mod_eq_of_lt bound]

theorem handles_have {seen : List Frame} {payload : Bytes}
    {fits : 1 + payload.length ≤ maxMessageSize.toNat} {c : PeerClient}
    (tracks : Tracks numPieces seen c) :
    Tracks numPieces (seen ++ [.message MessageId.have.toByte payload fits])
      (handled c ⟨.have, payload, payload_fits fits⟩) := by
  by_cases long : 4 ≤ payload.length
  · obtain ⟨index, parsed, value⟩ := parseHave_value ⟨payload, payload_fits fits⟩ long
    have call : haveCall ⟨.have, payload, payload_fits fits⟩ = some (.set index.toNat) :=
      haveCall_eq_some.mpr ⟨index, parsed, rfl⟩
    have tells : ∀ piece, announces piece (.message MessageId.have.toByte payload fits) ↔
        index.toNat = piece := by
      intro piece
      simp [announces, MessageId.toByte, long, value]
    rw [handled, call]
    exact tracks_have index.toNat tracks rfl tells
  · have silent : haveCall ⟨.have, payload, payload_fits fits⟩ = none := by
      have short : payload.length < 4 := by omega
      simp only [haveCall, Message.parseHave, ne_eq, not_true_eq_false, short, ↓reduceIte]
    rw [handled, silent]
    refine tracks_idle tracks rfl ?_
    intro piece
    simp [announces, MessageId.toByte, long]

theorem receive_tracks {seen : List Frame} {frame : Frame} {rest : Bytes} {ending : Ending}
    {c : PeerClient} (update : isUpdate frame = true) (tracks : Tracks numPieces seen c)
    (here : c.stream = ⟨frame.bytes ++ rest, ending⟩) :
    ∃ c', Returns (receive p) c () c' ∧ c'.stream = ⟨rest, ending⟩ ∧
      Tracks numPieces (seen ++ [frame].filter fun f => !hasId .bitfield f) c' := by
  have later := tracks_stream tracks ⟨rest, ending⟩
  cases frame with
  | keepAlive =>
    refine ⟨_, ?_, ?_, tracks_idle later rfl (fun _ => id)⟩
    · exact (returns_bind_step (receive_frame (o := none) rfl here)).mpr
        (returns_value _ _)
    · rfl
  | message byte payload fits =>
    obtain ⟨known, found, rfl⟩ := known_update update
    have read := receive_frame (result_of_index fits found) here
    refine ⟨handled { c with stream := ⟨rest, ending⟩ } ⟨known, payload, payload_fits fits⟩,
      (returns_bind_step read).mpr (returns_handleMessage.mpr rfl), rfl, ?_⟩
    cases known with
    | choke => exact tracks_choking later rfl (by simp [announces, MessageId.toByte])
    | unchoke => exact tracks_choking later rfl (by simp [announces, MessageId.toByte])
    | interested => exact tracks_idle later rfl (by simp [announces, MessageId.toByte])
    | notInterested => exact tracks_idle later rfl (by simp [announces, MessageId.toByte])
    | «have» => exact handles_have later
    | bitfield => exact (List.append_nil seen).symm ▸ later
    -- no updates
    | request => cases update
    | piece => cases update
    | cancel => cases update

theorem receives_track {seen frames : List Frame} {rest : Bytes} {ending : Ending} {c : PeerClient}
    (updates : ∀ frame ∈ frames, isUpdate frame = true) (tracks : Tracks numPieces seen c)
    (here : c.stream = ⟨streamOf frames ++ rest, ending⟩) :
    ∃ c', Returns (receives p frames.length) c () c' ∧
      Tracks numPieces (seen ++ frames.filter fun f => !hasId .bitfield f) c' := by
  induction frames generalizing seen c with
  | nil => exact ⟨c, returns_value _ _, by rwa [List.filter_nil, List.append_nil]⟩
  | cons frame later ih =>
    have first : c.stream = ⟨frame.bytes ++ (streamOf later ++ rest), ending⟩ := by
      rw [here, streamOf_cons, List.append_assoc]
    obtain ⟨c₁, round, behind, tracks⟩ := receive_tracks (updates frame (by simp)) tracks first
    obtain ⟨c₂, rounds, tracks⟩ :=
      ih (fun f member => updates f (List.mem_cons_of_mem _ member)) tracks behind
    refine ⟨c₂, returns_bind.mpr ⟨(), c₁, round, rounds⟩, ?_⟩
    rwa [List.append_assoc, ← List.filter_append, List.singleton_append] at tracks

theorem connect_without {frames : List Frame} (fits : numPieces + 7 < 2 ^ 64)
    (skips : ∀ frame ∈ frames, skipped frame = true) :
    Returns (connect p numPieces ⟨streamOf frames, .silent⟩) ()
      ⟨⟨[], .silent⟩, true, ⟨List.replicate ((numPieces + 7) / 8) 0, numPieces⟩⟩ () :=
  returns_connect.mpr
    (Or.inr ⟨rfl, recvBitfield_waits skips, (returns_new fits).mpr ⟨rfl, rfl⟩⟩)

theorem connect_with {before after : List Frame} {payload : Bytes}
    {fits : 1 + payload.length ≤ maxMessageSize.toNat}
    (skips : ∀ frame ∈ before, skipped frame = true) :
    Returns (connect p numPieces
        ⟨streamOf (before ++ .message MessageId.bitfield.toByte payload fits :: after), .silent⟩) ()
      ⟨⟨streamOf after, .silent⟩, true, ⟨payload, numPieces⟩⟩ () :=
  connect_of_received (recvBitfield_bitfield skips)

theorem tracks_empty (stream : Reader) :
    Tracks numPieces [] ⟨stream, true, ⟨List.replicate ((numPieces + 7) / 8) 0, numPieces⟩⟩ := by
  refine ⟨rfl, List.length_replicate, ?_, ?_⟩
  · simp [unchokes]
  · intro piece known
    rw [bitOf_replicate_zero]
    simp

theorem tracks_bitfield {payload : Bytes} {fits : 1 + payload.length ≤ maxMessageSize.toNat}
    (size : sized numPieces (.message MessageId.bitfield.toByte payload fits)) (stream : Reader) :
    Tracks numPieces [.message MessageId.bitfield.toByte payload fits]
      ⟨stream, true, ⟨payload, numPieces⟩⟩ := by
  refine ⟨rfl, size rfl, ?_, ?_⟩
  · simp [unchokes, isChoking, hasId, MessageId.toByte]
  · intro piece known
    simp [announces, MessageId.toByte]

theorem handOver_cases (frames : List Frame) (k : Nat) :
    (∃ before frame after, frames.take k = before ++ frame :: after ∧
      hasId .bitfield frame = true ∧ (∀ f ∈ before, hasId .bitfield f = false) ∧
      handOver frames k = before.length + 1) ∨
    (∀ f ∈ frames.take k, hasId .bitfield f = false) ∧ handOver frames k = k := by
  cases found : (frames.take k).findIdx? (hasId .bitfield) with
  | none => exact Or.inr ⟨List.findIdx?_eq_none_iff.mp found, by rw [handOver, found]⟩
  | some i =>
    obtain ⟨inside, first, earlier⟩ := List.findIdx?_eq_some_iff_getElem.mp found
    refine Or.inl ⟨(frames.take k).take i, (frames.take k)[i], (frames.take k).drop (i + 1), ?_,
      first, ?_, ?_⟩
    · rw [List.getElem_cons_drop, List.take_append_drop]
    · intro f member
      obtain ⟨j, before, rfl⟩ := List.mem_take_iff_getElem.mp member
      exact Bool.eq_false_iff.mpr (earlier j (by omega))
    · rw [handOver, found, List.length_take, Nat.min_eq_left inside.le]

theorem handOver_split {frames before after : List Frame} {frame : Frame} {k : Nat}
    (split : frames.take k = before ++ frame :: after)
    (cut : handOver frames k = before.length + 1) :
    frames.take (handOver frames k) = before ++ [frame] ∧
      frames.drop (handOver frames k) = after ++ frames.drop k := by
  have whole : frames = (before ++ [frame]) ++ (after ++ frames.drop k) := by
    calc frames = frames.take k ++ frames.drop k := (List.take_append_drop k frames).symm
      _ = (before ++ [frame]) ++ (after ++ frames.drop k) := by rw [split]; simp
  have size : (before ++ [frame]).length = handOver frames k := by simp [cut]
  have taken := congrArg (List.take (handOver frames k)) whole
  have behind := congrArg (List.drop (handOver frames k)) whole
  exact ⟨taken.trans (List.take_left' size), behind.trans (List.drop_left' size)⟩

theorem skipped_of_update {frame : Frame} (update : isUpdate frame = true)
    (other : hasId .bitfield frame = false) : skipped frame = true := by
  rwa [isUpdate, other, Bool.or_false] at update

theorem bitfield_of_hasId {frame : Frame} (bitfield : hasId .bitfield frame = true) :
    ∃ payload fits, frame = .message MessageId.bitfield.toByte payload fits := by
  cases frame with
  | keepAlive => cases bitfield
  | message byte payload fits =>
    obtain rfl := of_decide_eq_true bitfield
    exact ⟨payload, fits, rfl⟩

theorem connect_hands_over {frames : List Frame} {k : Nat} (fits : numPieces + 7 < 2 ^ 64)
    (updates : ∀ frame ∈ frames, isUpdate frame = true)
    (sizes : ∀ frame ∈ frames, sized numPieces frame) :
    ∃ c, Returns (connect p numPieces ⟨streamOf (frames.take k), .silent⟩) () c () ∧
      (arrive c (streamOf (frames.drop k))).stream =
        ⟨streamOf (frames.drop (handOver frames k)), .silent⟩ ∧
      Tracks numPieces ((frames.take (handOver frames k)).filter (hasId .bitfield)) c := by
  rcases handOver_cases frames k with ⟨before, frame, after, split, bitfield, earlier, cut⟩ |
    ⟨absent, cut⟩
  · obtain ⟨taken, behind⟩ := handOver_split split cut
    obtain ⟨payload, small, rfl⟩ := bitfield_of_hasId bitfield
    have sent : ∀ f ∈ before ++ [.message MessageId.bitfield.toByte payload small],
        f ∈ frames := by
      intro f inside
      rw [← taken] at inside
      exact List.mem_of_mem_take inside
    have skips : ∀ f ∈ before, skipped f = true := by
      intro f inside
      have update := updates f (sent f (List.mem_append_left _ inside))
      exact skipped_of_update update (earlier f inside)
    have kept : (frames.take (handOver frames k)).filter (hasId .bitfield) =
        [.message MessageId.bitfield.toByte payload small] := by
      rw [taken, List.filter_append, List.filter_eq_nil_iff.mpr]
      · rfl
      · intro f inside
        simp [earlier f inside]
    refine ⟨_, split ▸ connect_with skips, ?_, ?_⟩
    · rw [behind, arrive, streamOf_append]
    · rw [kept]
      exact tracks_bitfield (sizes _ (sent _ (by simp))) _
  · rw [cut]
    refine ⟨_, connect_without fits ?_, ?_, ?_⟩
    · intro f inside
      exact skipped_of_update (updates f (List.mem_of_mem_take inside)) (absent f inside)
    · rfl
    · rw [List.filter_eq_nil_iff.mpr]
      · exact tracks_empty _
      · intro f inside
        simp [absent f inside]

/-- What the client knows after m more frames is what the noted frames say: the bitfield that
    came in time, and after the hand-over all but bitfields. -/
theorem noted_updates_reflected (p : Profile) (numPieces : Nat) (frames : List Frame) (k m : Nat)
    (fits : numPieces + 7 < 2 ^ 64) (updates : ∀ frame ∈ frames, isUpdate frame = true)
    (sizes : ∀ frame ∈ frames, sized numPieces frame)
    (rounds : m ≤ (frames.drop (handOver frames k)).length) :
    ∃ c c', Returns (connect p numPieces ⟨streamOf (frames.take k), .silent⟩) () c () ∧
      Returns (receives p m) (arrive c (streamOf (frames.drop k))) () c' ∧
      Reflects p numPieces (noted frames k m) c' := by
  obtain ⟨c, connected, unread, tracks⟩ := connect_hands_over (p := p) fits updates sizes
  have stream : (arrive c (streamOf (frames.drop k))).stream =
      ⟨streamOf ((frames.drop (handOver frames k)).take m) ++
        streamOf ((frames.drop (handOver frames k)).drop m), .silent⟩ := by
    rw [unread, streamOf, streamOf, streamOf, ← List.flatMap_append, List.take_append_drop]
  have later : ∀ frame ∈ (frames.drop (handOver frames k)).take m, isUpdate frame = true := by
    intro frame member
    exact updates frame (List.mem_of_mem_drop (List.mem_of_mem_take member))
  obtain ⟨c', run, tracks⟩ := receives_track (p := p) later (tracks_stream tracks _) stream
  rw [List.length_take, Nat.min_eq_left rounds] at run
  exact ⟨c, c', connected, run, tracks_reflects tracks⟩

def unchoke : Frame := .message 1 [] empty_fits

def havePiece (piece : UInt8) : Frame := .message 4 [0, 0, 0, piece] (by simp; decide)

def bitfieldOf (byte : UInt8) : Frame := .message 5 [byte] (by simp; decide)

theorem noted_updates_reflected_in_time :
    2 ≤ ([bitfieldOf 0x80, havePiece 3, unchoke].drop
        (handOver [bitfieldOf 0x80, havePiece 3, unchoke] 1)).length ∧
    ∃ c c', Returns (connect .debug 8
        ⟨streamOf ([bitfieldOf 0x80, havePiece 3, unchoke].take 1), .silent⟩) () c () ∧
      Returns (receives .debug 2)
        (arrive c (streamOf ([bitfieldOf 0x80, havePiece 3, unchoke].drop 1))) () c' ∧
      Reflects .debug 8 (noted [bitfieldOf 0x80, havePiece 3, unchoke] 1 2) c' := by
  have rounds : 2 ≤ ([bitfieldOf 0x80, havePiece 3, unchoke].drop
      (handOver [bitfieldOf 0x80, havePiece 3, unchoke] 1)).length := by decide +kernel
  refine ⟨rounds, noted_updates_reflected .debug 8 _ 1 2 (by decide) (by decide +kernel) ?_ rounds⟩
  simp [sized, bitfieldOf, havePiece, unchoke, MessageId.toByte]

/-- Not every update is noted: an Unchoke or a Have before the bitfield, or a bitfield after
    the timeout, is not. -/
theorem updates_get_lost :
    (∃ c c', Returns (connect .debug 8 ⟨streamOf ([unchoke, bitfieldOf 0].take 2), .silent⟩) () c ()
      ∧ Returns (receives .debug 0) (arrive c (streamOf ([unchoke, bitfieldOf 0].drop 2))) () c' ∧
      ¬ Reflects .debug 8 [unchoke, bitfieldOf 0] c') ∧
    (∃ c c', Returns (connect .debug 8 ⟨streamOf ([havePiece 0, bitfieldOf 0].take 2), .silent⟩)
        () c () ∧
      Returns (receives .debug 0) (arrive c (streamOf ([havePiece 0, bitfieldOf 0].drop 2))) () c' ∧
      ¬ Reflects .debug 8 [havePiece 0, bitfieldOf 0] c') ∧
    ∃ c c', Returns (connect .debug 8 ⟨streamOf ([bitfieldOf 0x80].take 0), .silent⟩) () c () ∧
      Returns (receives .debug 1) (arrive c (streamOf ([bitfieldOf 0x80].drop 0))) () c' ∧
      ¬ Reflects .debug 8 [bitfieldOf 0x80] c' := by
  refine ⟨⟨⟨⟨[], .silent⟩, true, ⟨[0], 8⟩⟩, ⟨⟨[], .silent⟩, true, ⟨[0], 8⟩⟩, by decide +kernel,
      by decide +kernel, ?_⟩,
    ⟨⟨⟨[], .silent⟩, true, ⟨[0], 8⟩⟩, ⟨⟨[], .silent⟩, true, ⟨[0], 8⟩⟩, by decide +kernel,
      by decide +kernel, ?_⟩,
    ⟨⟨⟨[], .silent⟩, true, ⟨[0], 8⟩⟩, ⟨⟨[], .silent⟩, true, ⟨[0], 8⟩⟩, by decide +kernel,
      by decide +kernel, ?_⟩⟩
  · intro view
    exact absurd (view.1.mpr ⟨unchoke, rfl, by decide⟩) (by decide)
  · intro view
    refine absurd ((view.2 0 (by decide)).mpr ⟨havePiece 0, by simp, ?_⟩) (by decide +kernel)
    exact Or.inr ⟨rfl, by decide, rfl⟩
  · intro view
    refine absurd ((view.2 0 (by decide)).mpr ⟨bitfieldOf 0x80, by simp, ?_⟩) (by decide +kernel)
    exact Or.inl ⟨rfl, by decide +kernel⟩

end UpdateHandOver
