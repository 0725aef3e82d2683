import RustyTorrent.Peer.BitfieldRule
import RustyTorrent.Peer.PieceSet

/- What becomes of a peer's Have messages in a bitfield that the peer itself has sent, whose
   length from_bytes takes as it is. -/
namespace HaveRecorded
open RustExec BigEndian ByteStreams PeerMessage WireFraming PieceBitfield PeerConnection TimeoutStep
  BitfieldRule PieceSet

variable {p : Profile} {numPieces : Nat}

def handles (p : Profile) : List Message → Exec PeerClient ClientError Unit
  | [] => return ()
  | msg :: later => do
      handleMessage p msg
      handles p later

def haveCall (msg : Message) : Option PieceCall :=
  match msg.parseHave with
  | .ok piece => some (.set piece.toNat)
  | .error _ => none

def handled (c : PeerClient) (msg : Message) : PeerClient where
  stream := c.stream
  choked := if msg.id = .choke then true else if msg.id = .unchoke then false else c.choked
  bitfield := match haveCall msg with
    | some call => applied c.bitfield call
    | none => c.bitfield

def handledAll (c : PeerClient) (messages : List Message) : PeerClient := messages.foldl handled c

/-- Once a Have within the number of pieces has been handled, has_piece answers with it, after
    every later message too. -/
def HavesRecorded (p : Profile) (c : PeerClient) (messages : List Message) : Prop :=
  ∀ before msg after piece, messages = before ++ msg :: after → msg.parseHave = .ok piece →
    piece.toNat < c.bitfield.numPieces → ∀ later, later <+: after →
      ∃ c', Returns (handles p (before ++ msg :: later)) c () c' ∧
        Returns (c'.bitfield.hasPiece p piece.toNat : Exec Unit ClientError Bool) () true ()

theorem haveCall_other {msg : Message} (other : msg.id ≠ .have) : haveCall msg = none := by
  simp only [haveCall, Message.parseHave, other, ne_eq, not_false_eq_true, ↓reduceIte]

theorem returns_done {c c' : PeerClient} {u : Unit} :
    Returns (pure () : Exec PeerClient ClientError Unit) c u c' ↔ c' = c := by
  rw [returns_pure, eq_comm (a := c)]
  exact and_iff_right rfl

theorem returns_handleMessage {msg : Message} {c c' : PeerClient} {u : Unit} :
    Returns (handleMessage p msg) c u c' ↔ c' = handled c msg := by
  obtain ⟨id, payload⟩ := msg
  unfold handleMessage
  rw [returns_readState_bind]
  cases id with
  | choke => exact returns_writeState
  | unchoke => exact returns_writeState
  | «have» =>
    dsimp only
    cases parsed : (Message.mk .have payload).parseHave with
    | ok piece =>
      have call : haveCall ⟨.have, payload⟩ = some (.set piece.toNat) := by
        rw [haveCall, parsed]
      rw [returns_bind_step (returns_setPiece.mpr ⟨rfl, rfl⟩), returns_writeState, handled, call]
      rfl
    | error e =>
      have call : haveCall ⟨.have, payload⟩ = none := by
        rw [haveCall, parsed]
      rw [handled, call]
      exact returns_done
  | _ =>
    rw [handled, haveCall_other (by simp)]
    exact returns_done

theorem returns_handles {messages : List Message} {c c' : PeerClient} {u : Unit} :
    Returns (handles p messages) c u c' ↔ c' = handledAll c messages := by
  induction messages generalizing c with
  | nil => exact returns_done
  | cons msg later ih =>
    rw [handles, returns_bind_step (returns_handleMessage (u := ()).mpr rfl), ih]
    rfl

theorem handledAll_bitfield (c : PeerClient) (messages : List Message) :
    (handledAll c messages).bitfield = appliedAll c.bitfield (messages.filterMap haveCall) := by
  induction messages generalizing c with
  | nil => rfl
  | cons msg later ih =>
    change (handledAll (handled c msg) later).bitfield = _
    rw [ih, handled]
    cases call : haveCall msg with
    | some call' => rw [List.filterMap_cons_some call, appliedAll, appliedAll, List.foldl_cons]
    | none => rw [List.filterMap_cons_none call]

theorem haveCall_eq_some {msg : Message} {call : PieceCall} :
    haveCall msg = some call ↔ ∃ piece, msg.parseHave = .ok piece ∧ .set piece.toNat = call := by
  unfold haveCall
  cases msg.parseHave <;> simp

theorem lastMark_sets {calls : List PieceCall} {piece : Nat}
    (sets : ∀ call ∈ calls, call.mark = true) (called : ∃ call ∈ calls, call.index = piece) :
    lastMark calls piece = some true := by
  obtain ⟨call, member, here⟩ := called
  have some : (calls.filter fun call => call.index = piece) ≠ [] :=
    List.ne_nil_of_mem (List.mem_filter.mpr ⟨member, decide_eq_true here⟩)
  have last := List.getLast_mem some
  rw [lastMark, List.getLast?_eq_some_getLast some, Option.map_some]
  exact congrArg Option.some (sets _ (List.mem_of_mem_filter last))

theorem calls_set (messages : List Message) :
    ∀ call ∈ messages.filterMap haveCall, call.mark = true := by
  intro call member
  obtain ⟨msg, -, made⟩ := List.mem_filterMap.mp member
  obtain ⟨piece, -, rfl⟩ := haveCall_eq_some.mp made
  rfl

theorem recorded_iff {c : PeerClient} {messages : List Message} {msg : Message} {piece : UInt32}
    (sent : msg ∈ messages) (parsed : msg.parseHave = .ok piece)
    (known : piece.toNat < c.bitfield.numPieces) :
    Returns ((handledAll c messages).bitfield.hasPiece p piece.toNat : Exec Unit ClientError Bool)
        () true () ↔ piece.toNat / 8 < c.bitfield.data.length := by
  obtain ⟨count, length, -⟩ := appliedAll_shape c.bitfield (messages.filterMap haveCall)
  have bit := appliedAll_bit c.bitfield (messages.filterMap haveCall) piece.toNat
  rw [hasPiece_iff, handledAll_bitfield, Has, count, and_iff_right known]
  constructor
  · intro has
    by_contra past
    rw [bitOf_past (by omega)] at has
    cases has
  · intro inside
    have made : haveCall msg = some (.set piece.toNat) := haveCall_eq_some.mpr ⟨piece, parsed, rfl⟩
    have called : ∃ call ∈ messages.filterMap haveCall, call.index = piece.toNat :=
      ⟨_, List.mem_filterMap.mpr ⟨msg, sent, made⟩, rfl⟩
    have stored : Stored c.bitfield piece.toNat := ⟨known, inside⟩
    rw [bit, if_pos stored, lastMark_sets (calls_set messages) called]
    rfl

theorem havesRecorded_iff {c : PeerClient} {messages : List Message} :
    HavesRecorded p c messages ↔ ∀ msg ∈ messages, ∀ piece, msg.parseHave = .ok piece →
      piece.toNat < c.bitfield.numPieces → piece.toNat / 8 < c.bitfield.data.length := by
  constructor
  · intro recorded msg member piece parsed known
    obtain ⟨before, after, split⟩ := List.append_of_mem member
    obtain ⟨c', run, has⟩ := recorded before msg after piece split parsed known [] (by simp)
    rw [returns_handles.mp run] at has
    exact (recorded_iff (by simp) parsed known).mp has
  · intro inside before msg after piece split parsed known later shorter
    refine ⟨_, returns_handles.mpr rfl, (recorded_iff (by simp) parsed known).mpr ?_⟩
    exact inside msg (by simp [split]) piece parsed known

theorem have_exists {index : Nat} (small : index < 2 ^ 32) :
    ∃ msg : Message, ∃ piece, msg.parseHave = .ok piece ∧ piece.toNat = index := by
  have size : (toBe 4 index).length = 4 := toBe_length 4 index
  refine ⟨⟨.have, ⟨toBe 4 index, by rw [size]; decide⟩⟩, UInt32.ofNat index, ?_, ?_⟩
  · have whole : (toBe 4 index).take 4 = toBe 4 index := List.take_of_length_le size.le
    simp [Message.parseHave, whole, ofBe_toBe (show index < 256 ^ 4 by omega)]
  · rw [UInt32.toNat_ofNat', Nat.mod_eq_of_lt small]

theorem all_recorded_iff {c : PeerClient} :
    (∀ messages, HavesRecorded p c messages) ↔
      min c.bitfield.numPieces (2 ^ 32) ≤ 8 * c.bitfield.data.length := by
  simp only [havesRecorded_iff]
  constructor
  · intro recorded
    by_contra short
    obtain ⟨msg, piece, parsed, value⟩ :=
      @have_exists (8 * c.bitfield.data.length) (by omega)
    have inside := recorded [msg] msg (by simp) piece parsed (by omega)
    omega
  · intro enough messages msg _ piece _ known
    have small := piece.toNat_lt
    omega

/-- For a bitfield as it was received behind any frames that are read over: a run of messages is
    recorded exactly if the payload has a byte for each Have within the number of pieces. -/
theorem haves_recorded_iff (p : Profile) (numPieces : Nat) {before : List Frame}
    (skips : ∀ frame ∈ before, skipped frame = true) (payload : Bytes)
    (fits : 1 + payload.length ≤ maxMessageSize.toNat) (after : List Frame) (ending : Ending) :
    ∃ c, Returns (connect p numPieces
          ⟨streamOf (before ++ .message MessageId.bitfield.toByte payload fits :: after), ending⟩)
        () c () ∧
      (∀ messages, HavesRecorded p c messages ↔ ∀ msg ∈ messages, ∀ piece,
        msg.parseHave = .ok piece → piece.toNat < numPieces →
          piece.toNat / 8 < payload.length) ∧
      ((∀ messages, HavesRecorded p c messages) ↔
        min numPieces (2 ^ 32) ≤ 8 * payload.length) :=
  ⟨_, connect_of_received (recvBitfield_bitfield skips), fun _ => havesRecorded_iff,
    all_recorded_iff⟩

def haveThree : Message := ⟨.have, ⟨[0, 0, 0, 3], by decide⟩⟩

theorem haves_recorded_iff_full :
    ∃ c, Returns (connect .debug 8
          ⟨streamOf [.message 1 [] empty_fits, .message 5 [0x80] (by decide)], .silent⟩) () c () ∧
      HavesRecorded .debug c [haveThree] := by
  have skips : ∀ frame ∈ [Frame.message 1 [] empty_fits], skipped frame = true := by
    simp [skipped]
  obtain ⟨c, connected, -, all⟩ :=
    haves_recorded_iff .debug 8 skips [0x80] (by decide) [] .silent
  exact ⟨c, connected, all.mpr (by decide) _⟩

/-- With an empty payload, a Have of piece 3 of 8 goes by without a trace. -/
theorem empty_payload_forgets :
    ∃ c c', Returns (connect .release 8 ⟨streamOf [.message 5 [] empty_fits], .silent⟩) () c () ∧
      haveThree.parseHave = .ok 3 ∧ Returns (handles .release [haveThree]) c () c' ∧
      Returns (c'.bitfield.hasPiece .release 3 : Exec Unit ClientError Bool) () false () ∧
      ¬ HavesRecorded .release c [haveThree] := by
  refine ⟨⟨⟨[], .silent⟩, true, ⟨[], 8⟩⟩, ⟨⟨[], .silent⟩, true, ⟨[], 8⟩⟩, by decide +kernel,
    by decide +kernel, by decide +kernel, by decide, ?_⟩
  rw [havesRecorded_iff]
  intro inside
  exact absurd (inside haveThree (by simp) 3 (by decide +kernel) (by decide)) (by decide)

end HaveRecorded
