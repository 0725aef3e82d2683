import RustyTorrent.Peer.PeerSession

/- What two peers in a session know of each other, when each passes the messages that it reads on
   to handle_message, in order. -/
namespace AnnouncedPieces
open RustExec BigEndian ByteStreams WriteHalves TwoSides PeerMessage PieceBitfield PieceSet
  PeerConnection HaveRecorded OutgoingMessages PeerOperations PeerSession

variable {W : Type} {p : Profile} {peers : Side → ConnectedPeer W} {x : Session W} {side : Side}
  {piece : Nat}

/-- What has been handled is the start of what has been read. -/
def PassesOn (x : End W) : Prop := x.handled <+: x.got.reduceOption

theorem lastMark_uncalled {calls : List PieceCall}
    (uncalled : ¬ ∃ call ∈ calls, call.index = piece) : lastMark calls piece = none := by
  have none : (calls.filter fun call => call.index = piece) = [] := by
    rw [List.filter_eq_nil_iff]
    intro call member same
    exact uncalled ⟨call, member, of_decide_eq_true same⟩
  rw [lastMark, none]
  rfl

theorem has_handledAll (c : PeerClient) (messages : List Message) (piece : Nat) :
    Has (handledAll c messages).bitfield piece ↔ Has c.bitfield piece ∨
      Stored c.bitfield piece ∧ ∃ msg ∈ messages, haveCall msg = some (.set piece) := by
  obtain ⟨count, length, -⟩ := appliedAll_shape c.bitfield (messages.filterMap haveCall)
  have bit := appliedAll_bit c.bitfield (messages.filterMap haveCall) piece
  have calls : (∃ call ∈ messages.filterMap haveCall, call.index = piece) ↔
      ∃ msg ∈ messages, haveCall msg = some (.set piece) := by
    constructor
    · intro called
      obtain ⟨call, member, same⟩ := called
      obtain ⟨msg, sent, made⟩ := List.mem_filterMap.mp member
      obtain ⟨index, -, rfl⟩ := haveCall_eq_some.mp made
      exact ⟨msg, sent, by rw [made, ← same]; rfl⟩
    · intro called
      obtain ⟨msg, sent, made⟩ := called
      exact ⟨_, List.mem_filterMap.mpr ⟨msg, sent, made⟩, rfl⟩
  rw [handledAll_bitfield, Has, Has, count, bit, ← calls]
  by_cases stored : Stored c.bitfield piece
  · rw [if_pos stored]
    by_cases called : ∃ call ∈ messages.filterMap haveCall, call.index = piece
    · rw [lastMark_sets (calls_set messages) called]
      exact iff_of_true ⟨stored.1, rfl⟩ (Or.inr ⟨stored, called⟩)
    · rw [lastMark_uncalled called]
      exact (or_iff_left fun other => called other.2).symm
  · rw [if_neg stored]
    exact (or_iff_left fun other => stored other.1).symm

theorem haveCall_have (index : UInt32) : haveCall («have» index) = some (.set index.toNat) := by
  have long : 4 ≤ («have» index).payload.bytes.length := (toBe_length 4 index.toNat).ge
  obtain ⟨index', parsed, value⟩ := UpdateHandOver.parseHave_value _ long
  have bytes : («have» index).payload.bytes.take 4 = toBe 4 index.toNat :=
    List.take_of_length_le (toBe_length 4 index.toNat).le
  rw [bytes, ofBe_toBe index.toNat_lt] at value
  exact haveCall_eq_some.mpr ⟨index', parsed, by rw [value]⟩

theorem haveCall_sent {call : Call} {m : WireMessage} (message : call.message = some m) :
    haveCall m.1 = some (.set piece) ↔
      ∃ index : UInt32, m.1 = «have» index ∧ index.toNat = piece := by
  constructor
  · intro made
    cases call with
    | sendHave index =>
      cases message
      rw [haveCall_have] at made
      cases made
      exact ⟨index, rfl, rfl⟩
    | sendInterested | sendRequest index start length =>
      cases message
      rw [haveCall_other (by simp [new, request, withPayload])] at made
      cases made
    | _ => cases message
  · intro announced
    obtain ⟨index, have', rfl⟩ := announced
    rw [have', haveCall_have]

theorem sent_not_choking {call : Call} {m : WireMessage} (message : call.message = some m) :
    m.1.id ≠ .choke ∧ m.1.id ≠ .unchoke := by
  cases call with
  | sendInterested | sendHave index | sendRequest index start length =>
    cases message
    exact ⟨by simp [new, «have», request, withPayload], by simp [new, «have», request, withPayload]⟩
  | _ => cases message

theorem sent_by_call {one : End W} {m : WireMessage} (sent : m ∈ one.sent) :
    ∃ call : Call, call.message = some m := by
  obtain ⟨event, -, made⟩ := List.mem_filterMap.mp sent
  cases event with
  | done now call value => exact ⟨call, made⟩
  | arrived bytes => cases made

theorem handledAll_choked {messages : List Message} {c : PeerClient}
    (other : ∀ msg ∈ messages, msg.id ≠ .choke ∧ msg.id ≠ .unchoke) :
    (handledAll c messages).choked = c.choked := by
  induction messages generalizing c with
  | nil => rfl
  | cons msg later ih =>
    obtain ⟨⟨choke, unchoke⟩, others⟩ := List.forall_mem_cons.mp other
    change (handledAll (handled c msg) later).choked = _
    rw [ih others, handled, if_neg choke, if_neg unchoke]

theorem handled_sent (reads : ReadsSent x side) (passes : PassesOn (x side)) :
    ∃ n ≤ (x side).got.length, (x side).handled = ((x side.other).sent.take n).map (·.1) := by
  have all (messages : List WireMessage) :
      (messages.map fun m => some m.1).reduceOption = messages.map (·.1) := by
    change (messages.map fun m => some m.1).filterMap id = _
    rw [List.filterMap_map]
    exact congrFun (@List.filterMap_eq_map WireMessage Message (·.1)) messages
  have got : (x side).got.reduceOption =
      ((x side.other).sent.take (x side).got.length).map (·.1) :=
    (congrArg List.reduceOption reads.got).trans (all _)
  rw [PassesOn, got, List.prefix_iff_eq_take, ← List.map_take, List.take_take] at passes
  exact ⟨_, Nat.min_le_right _ _, passes⟩

/-- In every session, whatever else is called and however the bytes arrive, an end that passes on
    what it reads knows of a piece exactly if it did from the start, or if one of the messages
    that it has handled is a Have of the other end for it. -/
theorem announced_known {W : Type} [WriteHalf W] (p : Profile) {peers : Side → ConnectedPeer W}
    (fresh : ∀ side, Fresh (peers side)) {x : Session W} (reachable : Reachable p peers x)
    (side : Side) (passes : PassesOn (x side)) :
    ∃ n ≤ (x side).got.length, (x side).handled = ((x side.other).sent.take n).map (·.1) ∧
      (x side).peer.client.choked = (peers side).client.choked ∧
      ∀ piece, Returns ((x side).peer.client.bitfield.hasPiece p piece :
          Exec Unit ClientError Bool) () true () ↔
        Returns ((peers side).client.bitfield.hasPiece p piece : Exec Unit ClientError Bool) ()
            true () ∨
          Stored (peers side).client.bitfield piece ∧ ∃ m ∈ (x side.other).sent.take n,
            ∃ index : UInt32, m.1 = «have» index ∧ index.toNat = piece := by
  obtain ⟨n, most, handled⟩ := handled_sent (reachable_reads fresh reachable side) passes
  have view := (reachable_accounted reachable side).view (x side).peer.client.stream
  change (x side).peer.client = handledAll _ (x side).handled at view
  refine ⟨n, most, handled, ?_, ?_⟩
  · rw [view, handledAll_choked]
    intro msg member
    rw [handled] at member
    obtain ⟨m, taken, rfl⟩ := List.mem_map.mp member
    obtain ⟨call, message⟩ := sent_by_call (List.mem_of_mem_take taken)
    exact sent_not_choking message
  · intro piece
    rw [hasPiece_iff, hasPiece_iff, view, has_handledAll]
    apply or_congr Iff.rfl
    apply and_congr Iff.rfl
    rw [handled]
    constructor
    · intro called
      obtain ⟨msg, member, made⟩ := called
      obtain ⟨m, taken, rfl⟩ := List.mem_map.mp member
      obtain ⟨call, message⟩ := sent_by_call (List.mem_of_mem_take taken)
      exact ⟨m, taken, (haveCall_sent message).mp made⟩
    · intro announced
      obtain ⟨m, taken, index, same, value⟩ := announced
      obtain ⟨call, message⟩ := sent_by_call (List.mem_of_mem_take taken)
      exact ⟨m.1, List.mem_map_of_mem taken, (haveCall_sent message).mpr ⟨index, same, value⟩⟩

def handledHave : Session BufferedWriters.Writer :=
  readHave.called .right (.done 2 (.handleMessage («have» 3)) none)
    ((Call.handleMessage («have» 3)).perform .debug 2 (readHave .right).peer).state

theorem handledHave_reachable : PeerSession.Reachable .debug (fun _ => idlePeer) handledHave := by
  apply readHave_reachable.tail
  exact @Step.call _ _ .debug readHave .right 2 (.handleMessage («have» 3)) _ (by decide)
    ⟨by decide +kernel, rfl⟩

theorem announced_known_have : ∃ n ≤ 1,
    (handledHave .right).handled = ((handledHave .left).sent.take n).map (·.1) ∧
      (Has idlePeer.client.bitfield 3 ∨ Stored idlePeer.client.bitfield 3 ∧
        ∃ m ∈ (handledHave .left).sent.take n, ∃ index : UInt32, m.1 = «have» index ∧
          index.toNat = 3) := by
  have passes : PassesOn (handledHave .right) := by
    unfold PassesOn
    decide +kernel
  obtain ⟨n, most, handled, -, known⟩ :=
    announced_known .debug idle_fresh handledHave_reachable .right passes
  refine ⟨n, most.trans (by decide +kernel), handled, ?_⟩
  rcases (known 3).mp (by decide +kernel) with before | sent
  · exact Or.inl (hasPiece_iff.mp before)
  · exact Or.inr sent

end AnnouncedPieces
