import RustyTorrent.Peer.PeerConnection
import RustyTorrent.Peer.WireFraming

/- The wait for a bitfield when it is cut off by the timeout: which bytes the dropped future
   has taken, and when the stream still starts on a frame. -/
namespace TimeoutStep
open RustExec BigEndian ByteStreams PeerMessage WireFraming PieceBitfield PeerConnection

variable {p : Profile} {numPieces : Nat}

/-- The frames that recv_bitfield reads over. -/
def skipped : Frame → Bool
  | .keepAlive => true
  | .message id _ _ => id.toNat ≤ 4

def stopResult (p : Profile) (numPieces : Nat) : Frame → Exec Reader ClientError Bitfield
  | .keepAlive => Bitfield.new p numPieces
  | .message id payload _ =>
      if id.toNat = 5 then pure (Bitfield.fromBytes payload numPieces)
      else match MessageId.fromByte id with
        | .ok _ => Bitfield.new p numPieces
        | .error e => fail (.message e)

theorem frame_long (frame : Frame) : 4 ≤ frame.bytes.length := by
  rw [frame_length]
  omega

theorem recvLoop_after {fuel : Nat} {frame : Frame} {rest : Bytes} {ending : Ending}
    {o : Option Message} (result : frame.result = .ok o) :
    Leads (recvLoop p numPieces (fuel + 1)) ⟨frame.bytes ++ rest, ending⟩
      (onReceived p numPieces (recvLoop p numPieces fuel) o) ⟨rest, ending⟩ := by
  obtain ⟨outcome, state⟩ := read_frame frame rest ending
  have read : Returns (mapErr ClientError.message Message.read) ⟨frame.bytes ++ rest, ending⟩ o
      ⟨rest, ending⟩ := returns_mapErr.mpr ⟨outcome.trans result, state⟩
  exact leads_bind read

theorem recvLoop_fails {fuel : Nat} {reader reader' : Reader} {e : MessageError}
    (read : Leads Message.read reader (fail e) reader') :
    Leads (recvLoop p numPieces (fuel + 1)) reader (fail (.message e)) reader' :=
  leads_fail_bind (leads_mapErr read)

theorem result_of_index {id : UInt8} {payload : Bytes} {known : MessageId}
    (fits : 1 + payload.length ≤ maxMessageSize.toNat) (found : knownIds[id.toNat]? = some known) :
    (Frame.message id payload fits).result = .ok (some ⟨known, payload, payload_fits fits⟩) := by
  simp only [Frame.result, found]

theorem onReceived_some (again : Exec Reader ClientError Bitfield) (m : Message) :
    onReceived p numPieces again (some m) =
      if m.id.toByte.toNat ≤ 4 then again
      else if m.id.toByte.toNat = 5 then pure (Bitfield.fromBytes m.payload.bytes numPieces)
      else Bitfield.new p numPieces := by
  obtain ⟨id, payload⟩ := m
  cases id <;> simp [onReceived, MessageId.toByte]

theorem skips_frame {fuel : Nat} {frame : Frame} {rest : Bytes} {ending : Ending}
    (skip : skipped frame = true) :
    Leads (recvLoop p numPieces (fuel + 1)) ⟨frame.bytes ++ rest, ending⟩
      (recvLoop p numPieces fuel) ⟨rest, ending⟩ := by
  cases frame with
  | keepAlive => exact recvLoop_after (o := none) rfl
  | message id payload fits =>
    have small : id.toNat ≤ 4 := of_decide_eq_true skip
    obtain ⟨known, found⟩ : ∃ known, knownIds[id.toNat]? = some known :=
      ⟨_, List.getElem?_eq_getElem (show id.toNat < 9 by omega)⟩
    apply leads_trans (recvLoop_after (result_of_index fits found))
    rw [onReceived_some, if_pos (knownIds_index found ▸ small)]
    exact leads_refl _ _

theorem stops_at_frame {fuel : Nat} {frame : Frame} {rest : Bytes} {ending : Ending}
    (stop : skipped frame = false) :
    Leads (recvLoop p numPieces (fuel + 1)) ⟨frame.bytes ++ rest, ending⟩
      (stopResult p numPieces frame) ⟨rest, ending⟩ := by
  cases frame with
  | keepAlive => cases stop
  | message id payload fits =>
    have large : ¬ id.toNat ≤ 4 := of_decide_eq_false stop
    have known := fromByte_eq id
    cases found : knownIds[id.toNat]? with
    | some known =>
      have index := knownIds_index found
      have byte : id = known.toByte := UInt8.toNat_inj.mp index
      apply leads_trans (recvLoop_after (result_of_index fits found))
      rw [onReceived_some, ← byte, if_neg large, stopResult]
      split
      · exact leads_refl _ _
      · rw [byte, fromByte_toByte]
        exact leads_refl _ _
    | none =>
      rw [found] at known
      have other : ¬ id.toNat = 5 := by
        intro same
        rw [same] at found
        cases found
      obtain ⟨outcome, state⟩ := read_frame (.message id payload fits) rest ending
      simp only [Frame.result, found] at outcome
      rw [stopResult, if_neg other, known]
      exact recvLoop_fails ⟨outcome, state⟩

/-- What a peer can put on the wire as one frame, also past the size limit. -/
inductive PeerFrame where
  | within (frame : Frame)
  | oversized (body : Bytes) (large : maxMessageSize.toNat < body.length)
      (fits : body.length < 2 ^ 32)

def PeerFrame.bytes : PeerFrame → Bytes
  | .within frame => frame.bytes
  | .oversized body _ _ => toBe 4 body.length ++ body

/-- How much of the frame recv_bitfield takes when it stops there. -/
def PeerFrame.stopsAt : PeerFrame → Option Nat
  | .within frame => if skipped frame then none else some frame.bytes.length
  | .oversized _ _ _ => some 4

def sentBytes (frames : List PeerFrame) : Bytes := frames.flatMap PeerFrame.bytes

theorem sentBytes_cons (frame : PeerFrame) (frames : List PeerFrame) :
    sentBytes (frame :: frames) = frame.bytes ++ sentBytes frames := by
  simp [sentBytes]

theorem sentBytes_append (one other : List PeerFrame) :
    sentBytes (one ++ other) = sentBytes one ++ sentBytes other := by
  simp [sentBytes]

theorem peerFrame_long (frame : PeerFrame) : 4 ≤ frame.bytes.length := by
  cases frame with
  | within frame => exact frame_long frame
  | oversized body large fits => simp [PeerFrame.bytes]

theorem count_le_bytes (frames : List PeerFrame) : frames.length ≤ (sentBytes frames).length := by
  induction frames with
  | nil => simp
  | cons frame later ih =>
    have long := peerFrame_long frame
    rw [sentBytes_cons, List.length_append, List.length_cons]
    omega

theorem stopsAt_le {frame : PeerFrame} {need : Nat} (stop : frame.stopsAt = some need) :
    need ≤ frame.bytes.length := by
  cases frame with
  | within frame =>
    simp only [PeerFrame.stopsAt] at stop
    split at stop
    · cases stop
    · cases stop
      exact le_rfl
  | oversized body large fits =>
    cases stop
    simp [PeerFrame.bytes]

theorem waits_inside {fuel k : Nat} {frame : PeerFrame} (short : k < frame.bytes.length)
    (early : ∀ need, frame.stopsAt = some need → k < need) :
    Waits (recvLoop p numPieces (fuel + 1)) ⟨frame.bytes.take k, .silent⟩ ⟨[], .silent⟩ := by
  apply waits_bind_first
  apply waits_mapErr
  by_cases inPrefix : k < 4
  · exact waits_bind_first (waits_readExact (by simp; omega))
  · match frame with
    | .oversized body large fits => exact absurd (early 4 rfl) inPrefix
    | .within .keepAlive => exact absurd short inPrefix
    | .within (.message id payload fits) =>
      have parts : (Frame.message id payload fits).bytes.take k =
          toBe 4 (1 + payload.length) ++ (id :: payload).take (k - 4) := by
        rw [Frame.bytes, List.take_append, List.take_of_length_le (by simp; omega), toBe_length]
      have less : ((id :: payload).take (k - 4)).length < 1 + payload.length := by
        simp only [PeerFrame.bytes, Frame.bytes, List.length_append, toBe_length,
          List.length_cons] at short
        simp only [List.length_take, List.length_cons]
        omega
      rw [PeerFrame.bytes, parts]
      apply waits_of_leads (read_body (by omega) fits _ _)
      exact waits_bind_first (waits_readExact less)

def stopsWith (p : Profile) (numPieces : Nat) : PeerFrame → Exec Reader ClientError Bitfield
  | .within frame => stopResult p numPieces frame
  | .oversized body _ _ => fail (.message (.tooLarge (UInt32.ofNat body.length)))

theorem stops_at {fuel need : Nat} {frame : PeerFrame} {rest : Bytes} {ending : Ending}
    (stop : frame.stopsAt = some need) :
    Leads (recvLoop p numPieces (fuel + 1)) ⟨frame.bytes.take need ++ rest, ending⟩
      (stopsWith p numPieces frame) ⟨rest, ending⟩ := by
  cases frame with
  | within frame =>
    simp only [PeerFrame.stopsAt] at stop
    split at stop
    · cases stop
    · rename_i passed
      cases stop
      rw [PeerFrame.bytes, List.take_length]
      exact stops_at_frame (Bool.not_eq_true _ ▸ passed)
  | oversized body large fits =>
    cases stop
    rw [PeerFrame.bytes, List.take_left' (toBe_length _ _)]
    exact recvLoop_fails (read_oversized large fits _ _)

theorem skips {fuel : Nat} {frame : PeerFrame} {rest : Bytes} {ending : Ending}
    (skip : frame.stopsAt = none) :
    Leads (recvLoop p numPieces (fuel + 1)) ⟨frame.bytes ++ rest, ending⟩
      (recvLoop p numPieces fuel) ⟨rest, ending⟩ := by
  cases frame with
  | within frame =>
    simp only [PeerFrame.stopsAt] at skip
    split at skip
    · rename_i passed
      exact skips_frame passed
    · cases skip
  | oversized body large fits => cases skip

/-- Within the first k bytes, recv_bitfield has all it needs of a frame that it stops at. -/
def Stopped (frames : List PeerFrame) (k : Nat) : Prop :=
  ∃ before stop after need, frames = before ++ stop :: after ∧
    (∀ frame ∈ before, frame.stopsAt = none) ∧ stop.stopsAt = some need ∧
    (sentBytes before).length + need ≤ k

def OnBoundary (frames : List PeerFrame) (k : Nat) : Prop :=
  ∃ done later, frames = done ++ later ∧ (sentBytes done).length = k

/-- The unread bytes are whole frames that the peer has sent. -/
def InStep (frames : List PeerFrame) (unread : Bytes) : Prop :=
  ∃ later, later <:+ frames ∧ unread = sentBytes later

theorem stopped_cons {frame : PeerFrame} {frames : List PeerFrame} {k : Nat}
    (skip : frame.stopsAt = none) (stopped : Stopped frames k) :
    Stopped (frame :: frames) (frame.bytes.length + k) := by
  obtain ⟨before, stop, after, need, rfl, skips, stops, reached⟩ := stopped
  refine ⟨frame :: before, stop, after, need, rfl, ?_, stops, ?_⟩
  · intro other member
    rcases List.mem_cons.mp member with rfl | earlier
    · exact skip
    · exact skips other earlier
  · rw [sentBytes_cons, List.length_append]
    omega

theorem recvLoop_waits {frames : List PeerFrame} {k fuel : Nat}
    (arrived : k ≤ (sentBytes frames).length) (enough : k < fuel) (on : ¬ Stopped frames k) :
    Waits (recvLoop p numPieces fuel) ⟨(sentBytes frames).take k, .silent⟩ ⟨[], .silent⟩ := by
  induction frames generalizing k fuel with
  | nil =>
    -- no byte at all is no byte of a keep-alive
    obtain ⟨fuel, rfl⟩ : ∃ more, fuel = more + 1 := ⟨fuel - 1, by omega⟩
    have nothing : (sentBytes []).take k = (PeerFrame.within .keepAlive).bytes.take 0 := by
      simp [sentBytes]
    rw [nothing]
    exact waits_inside (by decide) (by simp [PeerFrame.stopsAt, skipped])
  | cons frame later ih =>
    obtain ⟨fuel, rfl⟩ : ∃ more, fuel = more + 1 := ⟨fuel - 1, by omega⟩
    rw [sentBytes_cons] at arrived ⊢
    by_cases whole : frame.bytes.length ≤ k
    · -- the frame is there to its end, so it would have stopped the loop if it could
      have passed : frame.stopsAt = none := by
        cases stop : frame.stopsAt with
        | none => rfl
        | some need =>
          have bound := stopsAt_le stop
          exact absurd ⟨[], frame, later, need, rfl, by simp, stop, by simp [sentBytes]; omega⟩ on
      have long : 4 ≤ frame.bytes.length := peerFrame_long frame
      rw [List.length_append] at arrived
      rw [List.take_append, List.take_of_length_le whole]
      refine waits_of_leads (skips passed) (ih (by omega) (by omega) ?_)
      intro stopped
      apply on
      have reached := stopped_cons passed stopped
      rwa [Nat.add_sub_cancel' whole] at reached
    · rw [List.take_append_of_le_length (by omega)]
      apply waits_inside (by omega)
      intro need stop
      by_contra reached
      exact on ⟨[], frame, later, need, rfl, by simp, stop, by simp [sentBytes]; omega⟩

theorem recvLoop_stops {before : List PeerFrame} {stop : PeerFrame} {need fuel : Nat}
    {rest : Bytes} {ending : Ending} (skipping : ∀ frame ∈ before, frame.stopsAt = none)
    (stops : stop.stopsAt = some need) (enough : before.length < fuel) :
    Leads (recvLoop p numPieces fuel)
      ⟨sentBytes before ++ (stop.bytes.take need ++ rest), ending⟩
      (stopsWith p numPieces stop) ⟨rest, ending⟩ := by
  induction before generalizing fuel with
  | nil =>
    obtain ⟨fuel, rfl⟩ : ∃ more, fuel = more + 1 := ⟨fuel - 1, by omega⟩
    exact stops_at stops
  | cons frame before ih =>
    obtain ⟨fuel, rfl⟩ : ∃ more, fuel = more + 1 := ⟨fuel - 1, by omega⟩
    rw [sentBytes_cons, List.append_assoc]
    refine leads_trans (skips (skipping frame (by simp))) (ih ?_ ?_)
    · intro other member
      exact skipping other (List.mem_cons_of_mem _ member)
    · rw [List.length_cons] at enough
      omega

theorem recvBitfield_leads (stream : Reader) :
    Leads (recvBitfield p numPieces) stream
      (recvLoop p numPieces (stream.arrived.length + 1)) stream :=
  leads_bind (returns_current _)

theorem returns_connect {stream : Reader} {c : PeerClient} :
    Returns (connect p numPieces stream) () c () ↔
      (c.choked = true ∧ Returns (recvBitfield p numPieces) stream c.bitfield c.stream) ∨
      (c.choked = true ∧ Waits (recvBitfield p numPieces) stream c.stream ∧
        Returns (Bitfield.new p numPieces : Exec Unit ClientError Bitfield) () c.bitfield ()) := by
  rw [connect, returns_bind]
  constructor
  · intro parts
    obtain ⟨⟨received, reader⟩, _, first, run⟩ := parts
    obtain ⟨first, -⟩ := returns_within.mp first
    cases received with
    | some bitfield =>
      obtain ⟨rfl, -⟩ := returns_pure.mp (returns_pure_bind.mp run)
      exact Or.inl ⟨rfl, returns_timeout_some.mp first⟩
    | none =>
      obtain ⟨bitfield, _, empty, run⟩ := returns_bind.mp run
      obtain ⟨rfl, -⟩ := returns_pure.mp run
      exact Or.inr ⟨rfl, returns_timeout_none.mp first, empty⟩
  · obtain ⟨reader, choked, bitfield⟩ := c
    rintro (⟨rfl, received⟩ | ⟨rfl, waits, empty⟩)
    · refine ⟨(some bitfield, reader), (), ?_, ?_⟩
      · exact returns_within.mpr ⟨returns_timeout_some.mpr received, rfl⟩
      · exact returns_pure_bind.mpr (returns_value _ _)
    · refine ⟨(none, reader), (), ?_, ?_⟩
      · exact returns_within.mpr ⟨returns_timeout_none.mpr waits, rfl⟩
      · exact returns_bind.mpr ⟨bitfield, (), empty, returns_value _ _⟩

theorem new_or_overflow (p : Profile) (numPieces : Nat) :
    (∃ bitfield, Returns (Bitfield.new p numPieces : Exec Unit ClientError Bitfield) () bitfield ())
      ∨ p = .debug ∧ 2 ^ 64 ≤ numPieces + 7 := by
  by_cases checked : p = .debug ∧ 2 ^ 64 ≤ numPieces + 7
  · exact Or.inr checked
  · exact Or.inl ⟨_, returns_new_wrapped.mpr ⟨rfl, rfl, fun debug =>
      not_le.mp fun exceeds => checked ⟨debug, exceeds⟩⟩⟩

theorem stopResult_state {frame : Frame} {reader reader' : Reader} {bitfield : Bitfield}
    (run : Returns (stopResult p numPieces frame) reader bitfield reader') : reader' = reader := by
  cases frame with
  | keepAlive => exact new_state run
  | message id payload fits =>
    rw [stopResult] at run
    split at run
    · exact (returns_pure.mp run).2.symm
    · split at run
      · exact new_state run
      · exact absurd run returns_fail

theorem stopResult_not_waits {frame : Frame} {reader reader' : Reader} :
    ¬ Waits (stopResult p numPieces frame) reader reader' := by
  intro waits
  cases frame with
  | keepAlive => exact new_not_waits waits
  | message id payload fits =>
    rw [stopResult] at waits
    split at waits
    · exact pure_not_waits waits
    · split at waits
      · exact new_not_waits waits
      · exact fail_not_waits waits

theorem stopsWith_returns {frame : PeerFrame} {need : Nat} {reader reader' : Reader}
    {bitfield : Bitfield} (stop : frame.stopsAt = some need)
    (run : Returns (stopsWith p numPieces frame) reader bitfield reader') :
    need = frame.bytes.length ∧ reader' = reader := by
  cases frame with
  | oversized body large fits => exact absurd run returns_fail
  | within frame =>
    simp only [PeerFrame.stopsAt] at stop
    split at stop
    · cases stop
    · cases stop
      exact ⟨rfl, stopResult_state run⟩

theorem stopsWith_not_waits {frame : PeerFrame} {reader reader' : Reader} :
    ¬ Waits (stopsWith p numPieces frame) reader reader' := by
  cases frame with
  | oversized body large fits => exact fail_not_waits
  | within frame => exact stopResult_not_waits

theorem stopped_cut {before : List PeerFrame} (after : List PeerFrame) {stop : PeerFrame}
    {need k : Nat}
    (bound : need ≤ stop.bytes.length) (reached : (sentBytes before).length + need ≤ k) :
    ∃ more,
      (sentBytes (before ++ stop :: after)).take k = sentBytes before ++
        (stop.bytes.take need ++ (stop.bytes.drop need ++ sentBytes after).take more) ∧
      (sentBytes (before ++ stop :: after)).drop k =
        (stop.bytes.drop need ++ sentBytes after).drop more := by
  have whole : sentBytes (before ++ stop :: after) =
      (sentBytes before ++ stop.bytes.take need) ++ (stop.bytes.drop need ++ sentBytes after) := by
    conv_lhs => rw [sentBytes_append, sentBytes_cons, ← List.take_append_drop need stop.bytes]
    simp only [List.append_assoc]
  have size : (sentBytes before ++ stop.bytes.take need).length =
      (sentBytes before).length + need := by
    rw [List.length_append, List.length_take, Nat.min_eq_left bound]
  refine ⟨k - ((sentBytes before).length + need), ?_, ?_⟩
  · rw [whole, List.take_append, List.take_of_length_le (by omega), size, List.append_assoc]
  · rw [whole, List.drop_append, List.drop_of_length_le (by omega), size, List.nil_append]

theorem stopped_in_step {frames : List PeerFrame} {k : Nat} {c : PeerClient}
    (stopped : Stopped frames k)
    (run : Returns (connect p numPieces ⟨(sentBytes frames).take k, .silent⟩) () c ()) :
    InStep frames (c.stream.arrived ++ (sentBytes frames).drop k) := by
  obtain ⟨before, stop, after, need, rfl, skipping, stops, reached⟩ := stopped
  obtain ⟨more, cut, unread⟩ := stopped_cut after (stopsAt_le stops) reached
  have leads : Leads (recvBitfield p numPieces)
      ⟨(sentBytes (before ++ stop :: after)).take k, .silent⟩ (stopsWith p numPieces stop)
      ⟨(stop.bytes.drop need ++ sentBytes after).take more, .silent⟩ := by
    apply leads_trans (recvBitfield_leads _)
    rw [cut]
    refine recvLoop_stops skipping stops ?_
    have count := count_le_bytes before
    simp only [List.length_append]
    omega
  rcases returns_connect.mp run with ⟨-, received⟩ | ⟨-, waits, -⟩
  -- a frame above the size limit is no success, so all of the frame has been taken
  · obtain ⟨rfl, same⟩ := stopsWith_returns stops ((returns_of_leads leads).mp received)
    refine ⟨after, ⟨before ++ [stop], by simp⟩, ?_⟩
    rw [same, unread, List.take_append_drop, List.drop_length, List.nil_append]
  · exact absurd ⟨leads.1.symm.trans waits.1, leads.2.symm.trans waits.2⟩ stopsWith_not_waits

/-- The timeout leaves the stream in step exactly when a frame that stops recv_bitfield has
    arrived far enough, or the bytes that have arrived end with a frame. -/
theorem timeout_in_step_iff (p : Profile) (numPieces : Nat) (frames : List PeerFrame) (k : Nat)
    (arrived : k ≤ (sentBytes frames).length) :
    (∀ c, Returns (connect p numPieces ⟨(sentBytes frames).take k, .silent⟩) () c () →
      Returns (Bitfield.new p numPieces : Exec Unit ClientError Bitfield) () c.bitfield () →
      InStep frames (c.stream.arrived ++ (sentBytes frames).drop k)) ↔
    Stopped frames k ∨ OnBoundary frames k ∨ (p = .debug ∧ 2 ^ 64 ≤ numPieces + 7) := by
  by_cases stopped : Stopped frames k
  · simp only [stopped, true_or, iff_true]
    intro c run empty
    exact stopped_in_step stopped run
  · have waits : Waits (recvBitfield p numPieces) ⟨(sentBytes frames).take k, .silent⟩
        ⟨[], .silent⟩ := by
      refine waits_of_leads (recvBitfield_leads _) (recvLoop_waits arrived ?_ stopped)
      rw [List.length_take]
      omega
    simp only [stopped, false_or]
    constructor
    · intro law
      rcases new_or_overflow p numPieces with ⟨bitfield, empty⟩ | exceeds
      · left
        have connected := returns_connect (c := ⟨⟨[], .silent⟩, true, bitfield⟩).mpr
          (Or.inr ⟨rfl, waits, empty⟩)
        obtain ⟨later, ⟨done, rfl⟩, unread⟩ := law _ connected empty
        refine ⟨done, later, rfl, ?_⟩
        have sizes := congrArg List.length unread
        rw [sentBytes_append, List.length_append] at arrived
        rw [List.nil_append, List.length_drop, sentBytes_append, List.length_append] at sizes
        omega
      · exact Or.inr exceeds
    · rintro (⟨done, later, rfl, size⟩ | ⟨rfl, exceeds⟩) c run empty
      · rcases returns_connect.mp run with ⟨-, received⟩ | ⟨-, state, -⟩
        · exact absurd received (waits_not_returns waits)
        · refine ⟨later, ⟨done, rfl⟩, ?_⟩
          rw [← state.2, waits.2, List.nil_append, sentBytes_append, ← size, List.drop_left]
      · exact absurd empty (new_overflows exceeds)

def bitfieldFrame : PeerFrame := .within (.message 5 [0x80] (by decide))

def unchokeFrame : PeerFrame := .within (.message 1 [] empty_fits)

theorem timeout_in_step_iff_between :
    5 ≤ (sentBytes [unchokeFrame, bitfieldFrame]).length ∧
    ∀ c, Returns (connect .debug 8 ⟨(sentBytes [unchokeFrame, bitfieldFrame]).take 5, .silent⟩)
        () c () →
      Returns (Bitfield.new .debug 8 : Exec Unit ClientError Bitfield) () c.bitfield () →
      InStep [unchokeFrame, bitfieldFrame]
        (c.stream.arrived ++ (sentBytes [unchokeFrame, bitfieldFrame]).drop 5) := by
  refine ⟨by decide, (timeout_in_step_iff _ _ _ _ (by decide)).mpr ?_⟩
  exact Or.inr (Or.inl ⟨[unchokeFrame], [bitfieldFrame], rfl, rfl⟩)

/-- With only the length prefix of a bitfield there, connect succeeds, and the stream goes on
    with the body. -/
theorem prefix_is_lost :
    4 ≤ (sentBytes [bitfieldFrame]).length ∧
    ¬ ∀ c, Returns (connect .debug 8 ⟨(sentBytes [bitfieldFrame]).take 4, .silent⟩) () c () →
      Returns (Bitfield.new .debug 8 : Exec Unit ClientError Bitfield) () c.bitfield () →
      InStep [bitfieldFrame] (c.stream.arrived ++ (sentBytes [bitfieldFrame]).drop 4) := by
  refine ⟨by decide, ?_⟩
  intro law
  obtain ⟨later, suffix, unread⟩ :=
    law ⟨⟨[], .silent⟩, true, ⟨[0], 8⟩⟩ (by decide +kernel) (by decide +kernel)
  have short : later.length ≤ 1 := suffix.length_le
  have body : sentBytes later = [5, 0x80] := unread.symm
  match later with
  | [] => cases body
  | [frame] =>
    have long := peerFrame_long frame
    have size := congrArg List.length body
    rw [sentBytes_cons, List.length_append, List.length_cons, List.length_singleton] at size
    omega

end TimeoutStep
