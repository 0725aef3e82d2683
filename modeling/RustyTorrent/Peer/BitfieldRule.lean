import RustyTorrent.Peer.TimeoutStep

/- The rule that recv_bitfield documents, on streams of whole frames: which frames are read
   over, which bitfield the first other frame gives, and where the reader is left. -/
namespace BitfieldRule
open RustExec ByteStreams PeerMessage WireFraming PieceBitfield PeerConnection TimeoutStep

variable {p : Profile} {numPieces : Nat}

def emptyBitfield (numPieces : Nat) : Bitfield :=
  ⟨List.replicate ((numPieces + 7) / 8) 0, numPieces⟩

/-- What the rule gives for the first frame that is not read over. -/
def ruledBitfield (numPieces : Nat) : Frame → Bitfield
  | .keepAlive => emptyBitfield numPieces
  | .message id payload _ =>
      if id = MessageId.bitfield.toByte then Bitfield.fromBytes payload numPieces
      else emptyBitfield numPieces

def knownFrame : Frame → Bool
  | .keepAlive => true
  | .message id _ _ => id.toNat ≤ MessageId.cancel.toByte.toNat

def carriesBitfield : Frame → Bool
  | .keepAlive => false
  | .message id _ _ => id = MessageId.bitfield.toByte

/-- The stream of these frames is read as documented, up to the first frame that is not read
    over, or else to its end, where only the end itself can fail the connection. -/
structure FollowsRule (p : Profile) (numPieces : Nat) (frames : List Frame) (ending : Ending) :
    Prop where
  decides : ∀ before stop after, frames = before ++ stop :: after →
    (∀ frame ∈ before, skipped frame = true) → skipped stop = false →
    Returns (recvBitfield p numPieces) ⟨streamOf frames, ending⟩ (ruledBitfield numPieces stop)
        ⟨streamOf after, ending⟩ ∧
      Returns (connect p numPieces ⟨streamOf frames, ending⟩) ()
        ⟨⟨streamOf after, ending⟩, true, ruledBitfield numPieces stop⟩ ()
  waits : (∀ frame ∈ frames, skipped frame = true) → ending = .silent →
    Waits (recvBitfield p numPieces) ⟨streamOf frames, ending⟩ ⟨[], ending⟩ ∧
      Returns (connect p numPieces ⟨streamOf frames, ending⟩) ()
        ⟨⟨[], ending⟩, true, emptyBitfield numPieces⟩ ()
  ends : (∀ frame ∈ frames, skipped frame = true) → ending = .fails →
    Fails (recvBitfield p numPieces) ⟨streamOf frames, ending⟩ (.message .io)

theorem streamOf_append (one other : List Frame) :
    streamOf (one ++ other) = streamOf one ++ streamOf other := List.flatMap_append

theorem streamOf_cons (frame : Frame) (frames : List Frame) :
    streamOf (frame :: frames) = frame.bytes ++ streamOf frames := List.flatMap_cons

theorem frames_le_bytes (frames : List Frame) : frames.length ≤ (streamOf frames).length := by
  induction frames with
  | nil => simp
  | cons frame later ih =>
    have long := frame_long frame
    rw [streamOf_cons, List.length_append, List.length_cons]
    omega

theorem recvLoop_skips {frames : List Frame} {fuel : Nat} {rest : Bytes} {ending : Ending}
    (skips : ∀ frame ∈ frames, skipped frame = true) :
    Leads (recvLoop p numPieces (frames.length + fuel)) ⟨streamOf frames ++ rest, ending⟩
      (recvLoop p numPieces fuel) ⟨rest, ending⟩ := by
  induction frames with
  | nil =>
    rw [List.length_nil, Nat.zero_add]
    exact leads_refl _ _
  | cons frame later ih =>
    rw [List.length_cons, Nat.add_right_comm, streamOf_cons, List.append_assoc]
    apply leads_trans (skips_frame (skips frame (by simp)))
    exact ih fun other member => skips other (by simp [member])

theorem recvBitfield_skips {frames : List Frame} {rest : Bytes} {ending : Ending}
    (skips : ∀ frame ∈ frames, skipped frame = true) :
    ∃ fuel, Leads (recvBitfield p numPieces) ⟨streamOf frames ++ rest, ending⟩
      (recvLoop p numPieces (fuel + 1)) ⟨rest, ending⟩ := by
  have count := frames_le_bytes frames
  obtain ⟨fuel, rounds⟩ : ∃ fuel, (streamOf frames ++ rest).length + 1 =
      frames.length + (fuel + 1) := by
    refine ⟨(streamOf frames ++ rest).length - frames.length, ?_⟩
    rw [List.length_append]
    omega
  refine ⟨fuel, leads_trans (recvBitfield_leads _) ?_⟩
  rw [rounds]
  exact recvLoop_skips skips

theorem recvBitfield_stops {before after : List Frame} {stop : Frame} {ending : Ending}
    (skips : ∀ frame ∈ before, skipped frame = true) (stops : skipped stop = false) :
    Leads (recvBitfield p numPieces) ⟨streamOf (before ++ stop :: after), ending⟩
      (stopResult p numPieces stop) ⟨streamOf after, ending⟩ := by
  rw [streamOf_append, streamOf_cons]
  obtain ⟨fuel, leads⟩ :=
    @recvBitfield_skips p numPieces before (stop.bytes ++ streamOf after) ending skips
  exact leads_trans leads (stops_at_frame stops)

theorem recvBitfield_bitfield {before after : List Frame} {payload : Bytes}
    {fits : 1 + payload.length ≤ maxMessageSize.toNat} {ending : Ending}
    (skips : ∀ frame ∈ before, skipped frame = true) :
    Returns (recvBitfield p numPieces)
      ⟨streamOf (before ++ .message MessageId.bitfield.toByte payload fits :: after), ending⟩
      ⟨payload, numPieces⟩ ⟨streamOf after, ending⟩ := by
  rw [returns_of_leads (recvBitfield_stops skips rfl)]
  exact returns_value _ _

theorem stopResult_bitfield {stop : Frame} {reader : Reader}
    (carries : carriesBitfield stop = true) :
    Returns (stopResult p numPieces stop) reader (ruledBitfield numPieces stop) reader := by
  cases stop with
  | keepAlive => cases carries
  | message id payload small =>
    obtain rfl : id = MessageId.bitfield.toByte := of_decide_eq_true carries
    exact returns_value _ _

theorem stopResult_other {stop : Frame} {reader reader' : Reader} {bitfield : Bitfield}
    (other : carriesBitfield stop = false) :
    Returns (stopResult p numPieces stop) reader bitfield reader' ↔
      knownFrame stop = true ∧
        Returns (Bitfield.new p numPieces : Exec Reader ClientError Bitfield) reader bitfield
          reader' := by
  cases stop with
  | keepAlive => exact (and_iff_right rfl).symm
  | message id payload small =>
    have five : ¬ id.toNat = 5 := fun same => of_decide_eq_false other (UInt8.toNat_inj.mp same)
    rw [stopResult, if_neg five, fromByte_eq]
    by_cases inside : id.toNat < 9
    · have known : knownFrame (.message id payload small) = true :=
        decide_eq_true (Nat.le_of_lt_succ inside)
      have found := List.getElem?_eq_getElem (l := knownIds) inside
      rw [found, and_iff_right known]
    · have unknown : ¬ knownFrame (.message id payload small) = true := fun known =>
        inside (Nat.lt_succ_of_le (of_decide_eq_true known))
      have none : knownIds[id.toNat]? = none := List.getElem?_eq_none (Nat.le_of_not_lt inside)
      rw [none]
      exact iff_of_false returns_fail fun both => unknown both.1

theorem stopResult_ruled {stop : Frame} {reader : Reader} :
    Returns (stopResult p numPieces stop) reader (ruledBitfield numPieces stop) reader ↔
      knownFrame stop = true ∧ (carriesBitfield stop = true ∨ numPieces + 7 < 2 ^ 64) := by
  cases carries : carriesBitfield stop with
  | true =>
    have known : knownFrame stop = true := by
      cases stop with
      | keepAlive => rfl
      | message id payload small =>
        obtain rfl : id = MessageId.bitfield.toByte := of_decide_eq_true carries
        rfl
    exact iff_of_true (stopResult_bitfield carries) ⟨known, Or.inl rfl⟩
  | false =>
    have empty : ruledBitfield numPieces stop = emptyBitfield numPieces := by
      cases stop with
      | keepAlive => rfl
      | message id payload small => exact if_neg (of_decide_eq_false carries)
    rw [stopResult_other carries, empty, emptyBitfield, returns_new_zeros]
    simp

theorem stopResult_known {stop : Frame} {reader : Reader} (fits : numPieces + 7 < 2 ^ 64)
    (known : knownFrame stop = true) :
    Returns (stopResult p numPieces stop) reader (ruledBitfield numPieces stop) reader :=
  stopResult_ruled.mpr ⟨known, Or.inr fits⟩

theorem connect_of_received {stream reader : Reader} {bitfield : Bitfield}
    (received : Returns (recvBitfield p numPieces) stream bitfield reader) :
    Returns (connect p numPieces stream) () ⟨reader, true, bitfield⟩ () :=
  returns_connect.mpr (Or.inl ⟨rfl, received⟩)

theorem recvBitfield_waits {frames : List Frame}
    (skips : ∀ frame ∈ frames, skipped frame = true) :
    Waits (recvBitfield p numPieces) ⟨streamOf frames, .silent⟩ ⟨[], .silent⟩ := by
  obtain ⟨fuel, leads⟩ := @recvBitfield_skips p numPieces frames [] .silent skips
  rw [List.append_nil] at leads
  apply waits_of_leads leads
  exact waits_bind_first (waits_mapErr (waits_bind_first (waits_readExact (by simp))))

theorem recvBitfield_ends {frames : List Frame}
    (skips : ∀ frame ∈ frames, skipped frame = true) :
    Fails (recvBitfield p numPieces) ⟨streamOf frames, .fails⟩ (.message .io) := by
  obtain ⟨fuel, leads⟩ := @recvBitfield_skips p numPieces frames [] .fails skips
  rw [List.append_nil] at leads
  have read : Leads Message.read ⟨[], .fails⟩ (fail .io) ⟨[], .fails⟩ := ⟨rfl, rfl⟩
  exact (fails_of_leads (leads_trans leads (recvLoop_fails read))).1

/-- The rule is followed exactly where the first frame that is not read over has a known id, and
    where the size of the empty bitfield does not overflow if the rule asks for that bitfield. -/
theorem rule_followed_iff (p : Profile) (numPieces : Nat) (frames : List Frame)
    (ending : Ending) :
    FollowsRule p numPieces frames ending ↔
      (∀ frame, frames.find? (fun frame => !skipped frame) = some frame →
        knownFrame frame = true ∧ (carriesBitfield frame = true ∨ numPieces + 7 < 2 ^ 64)) ∧
      ((∀ frame ∈ frames, skipped frame = true) → ending = .silent →
        numPieces + 7 < 2 ^ 64) := by
  constructor
  · intro follows
    constructor
    · intro frame found
      obtain ⟨other, before, after, split, skips⟩ := List.find?_eq_some_iff_append.mp found
      have stops : skipped frame = false := by simpa using other
      have passed : ∀ f ∈ before, skipped f = true := fun f member => by
        simpa using skips f member
      obtain ⟨received, -⟩ := follows.decides before frame after split passed stops
      rw [split, returns_of_leads (recvBitfield_stops passed stops)] at received
      exact stopResult_ruled.mp received
    · intro skips silent
      obtain ⟨waits, connected⟩ := follows.waits skips silent
      rcases returns_connect.mp connected with ⟨-, received⟩ | ⟨-, -, empty⟩
      · exact absurd received (waits_not_returns waits)
      · exact (returns_new_zeros.mp empty).2
  · intro both
    obtain ⟨known, sized⟩ := both
    constructor
    case decides =>
      intro before stop after split skips stops
      have first : frames.find? (fun frame => !skipped frame) = some stop := by
        refine List.find?_eq_some_iff_append.mpr ⟨by simp [stops], before, after, split, ?_⟩
        intro frame member
        simp [skips frame member]
      have received : Returns (recvBitfield p numPieces) ⟨streamOf frames, ending⟩
          (ruledBitfield numPieces stop) ⟨streamOf after, ending⟩ := by
        rw [split, returns_of_leads (recvBitfield_stops skips stops)]
        exact stopResult_ruled.mpr (known stop first)
      exact ⟨received, connect_of_received received⟩
    case waits =>
      rintro skips rfl
      have waits := @recvBitfield_waits p numPieces _ skips
      exact ⟨waits, returns_connect.mpr
        (Or.inr ⟨rfl, waits, returns_new_zeros.mpr ⟨rfl, sized skips rfl⟩⟩)⟩
    case ends =>
      rintro skips rfl
      exact recvBitfield_ends skips

theorem rule_followed_iff_request :
    let haveOne : Frame := .message 4 [0, 0, 0, 1] (by decide)
    let request : Frame := .message 6 [] empty_fits
    FollowsRule .debug 8 [haveOne, request] .silent := by
  intro haveOne request
  refine (rule_followed_iff .debug 8 _ _).mpr ⟨?_, fun _ _ => by decide⟩
  intro frame found
  obtain rfl : request = frame := Option.some.inj found
  exact ⟨rfl, Or.inr (by decide)⟩

theorem unknown_id_fails :
    let extended : Frame := .message 20 [] empty_fits
    Fails (recvBitfield .release 8) ⟨streamOf [extended], .silent⟩ (.message (.invalidId 20)) ∧
      ¬ FollowsRule .release 8 [extended] .silent := by
  intro extended
  have fails : Fails (recvBitfield .release 8) ⟨streamOf [extended], .silent⟩
      (.message (.invalidId 20)) := by
    unfold Fails
    decide +kernel
  refine ⟨fails, ?_⟩
  intro follows
  obtain ⟨received, -⟩ := follows.decides [] extended [] rfl (by simp) rfl
  rw [Fails, received.1] at fails
  cases fails

end BitfieldRule
