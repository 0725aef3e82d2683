import RustyTorrent.Peer.BitfieldRule
import RustyTorrent.Peer.OutgoingMessages
import RustyTorrent.Library.ErrorRuns

/- The wait for a bitfield on an arbitrary stream, which need not be cut at a frame: behind the
   frames that are read over there is one that ends the wait, the length of one that is too
   large, or a frame that has arrived in part. -/
namespace BitfieldPhase
open RustExec BigEndian ByteStreams WriteHalves PeerMessage WireFraming PieceBitfield
  PeerConnection TimeoutStep BitfieldRule OutgoingMessages

/-- Bytes that leave a read without a whole frame. -/
def Unfinished (part : Bytes) : Prop :=
  part.length < 4 ∨ ∃ frame : Frame, part <+: frame.bytes ∧ part ≠ frame.bytes

inductive Front : Bytes → Prop where
  | frame (frame : Frame) (rest : Bytes) : Front (frame.bytes ++ rest)
  | oversized {n : Nat} (large : maxMessageSize.toNat < n) (small : n < 2 ^ 32) (rest : Bytes) :
      Front (toBe 4 n ++ rest)
  | unfinished {part : Bytes} (unfinished : Unfinished part) : Front part

variable {p : Profile} {numPieces : Nat} {ending : Ending}

theorem front_of_body {n : Nat} (fits : n ≤ maxMessageSize.toNat) (rest : Bytes) :
    Front (toBe 4 n ++ rest) := by
  cases n with
  | zero => exact .frame .keepAlive rest
  | succ n =>
    by_cases whole : n + 1 ≤ rest.length
    · obtain ⟨id, later, rfl⟩ := List.exists_cons_of_length_pos (Nat.zero_lt_of_lt whole)
      have size : (later.take n).length = n :=
        List.length_take_of_le (Nat.le_of_succ_le_succ whole)
      have limit : 1 + (later.take n).length ≤ maxMessageSize.toNat := by omega
      have cut : toBe 4 (n + 1) ++ id :: later =
          (Frame.message id (later.take n) limit).bytes ++ later.drop n := by
        rw [Frame.bytes, size, Nat.add_comm 1, List.append_assoc, List.cons_append,
          List.take_append_drop]
      rw [cut]
      exact .frame _ _
    · -- zeros stand for what is still to come
      obtain ⟨id, payload, padded⟩ : ∃ id payload,
          rest ++ List.replicate (n + 1 - rest.length) 0 = id :: payload := by
        apply List.exists_cons_of_length_pos
        rw [List.length_append, List.length_replicate]
        omega
      have size : payload.length = n := by
        have sizes := congrArg List.length padded
        rw [List.length_append, List.length_replicate, List.length_cons] at sizes
        omega
      have limit : 1 + payload.length ≤ maxMessageSize.toNat := by omega
      have bytes : (Frame.message id payload limit).bytes =
          (toBe 4 (n + 1) ++ rest) ++ List.replicate (n + 1 - rest.length) 0 := by
        rw [Frame.bytes, size, Nat.add_comm 1, ← padded, List.append_assoc]
      refine .unfinished (Or.inr ⟨_, ⟨_, bytes.symm⟩, ?_⟩)
      intro same
      have lengths := congrArg List.length (same.trans bytes)
      simp only [List.length_append, List.length_replicate] at lengths
      omega

theorem front_exists (bytes : Bytes) : Front bytes := by
  by_cases short : bytes.length < 4
  · exact .unfinished (Or.inl short)
  · have size : (bytes.take 4).length = 4 := List.length_take_of_le (not_lt.mp short)
    have prefixed : toBe 4 (ofBe (bytes.take 4)) = bytes.take 4 := by
      have same := toBe_ofBe (bytes.take 4)
      rwa [size] at same
    have small : ofBe (bytes.take 4) < 2 ^ 32 := by
      have bound := ofBe_lt (bytes.take 4)
      rwa [size] at bound
    rw [← List.take_append_drop 4 bytes, ← prefixed]
    by_cases fits : ofBe (bytes.take 4) ≤ maxMessageSize.toNat
    · exact front_of_body fits _
    · exact .oversized (not_le.mp fits) small _

theorem read_unfinished {part : Bytes} (unfinished : Unfinished part) :
    (Message.read ⟨part, ending⟩).outcome = stop .io ending ∧
      (Message.read ⟨part, ending⟩).state = ⟨[], ending⟩ := by
  rcases unfinished with short | ⟨frame, starts, proper⟩
  · exact read_short short ending
  · exact read_part starts proper ending

inductive Halts : Bytes → Prop where
  | frame {frame : Frame} (stops : skipped frame = false) (rest : Bytes) :
      Halts (frame.bytes ++ rest)
  | oversized {n : Nat} (large : maxMessageSize.toNat < n) (small : n < 2 ^ 32) (rest : Bytes) :
      Halts (toBe 4 n ++ rest)
  | unfinished {part : Bytes} (unfinished : Unfinished part) : Halts part

theorem halts_exists (bytes : Bytes) : ∃ before tail, bytes = streamOf before ++ tail ∧
    (∀ frame ∈ before, skipped frame = true) ∧ Halts tail := by
  induction h : bytes.length using Nat.strongRecOn generalizing bytes with
  | ind k ih =>
    cases front_exists bytes with
    | frame frame rest =>
      cases skips : skipped frame with
      | false => exact ⟨[], _, rfl, by simp, .frame skips rest⟩
      | true =>
        have long := frame_long frame
        rw [List.length_append] at h
        obtain ⟨before, tail, rfl, earlier, halts⟩ := ih rest.length (by omega) rest rfl
        refine ⟨frame :: before, tail, ?_, ?_, halts⟩
        · rw [streamOf_cons, List.append_assoc]
        · exact List.forall_mem_cons.mpr ⟨skips, earlier⟩
    | oversized large small rest => exact ⟨[], _, rfl, by simp, .oversized large small rest⟩
    | unfinished unfinished => exact ⟨[], _, rfl, by simp, .unfinished unfinished⟩

section Ends
variable {before : List Frame}

theorem recvBitfield_frame {frame : Frame} {rest : Bytes}
    (skips : ∀ frame ∈ before, skipped frame = true) (stops : skipped frame = false) :
    Leads (recvBitfield p numPieces) ⟨streamOf before ++ (frame.bytes ++ rest), ending⟩
      (stopResult p numPieces frame) ⟨rest, ending⟩ := by
  obtain ⟨fuel, leads⟩ :=
    @recvBitfield_skips p numPieces before (frame.bytes ++ rest) ending skips
  exact leads_trans leads (stops_at_frame stops)

theorem recvBitfield_oversized {n : Nat} {rest : Bytes}
    (skips : ∀ frame ∈ before, skipped frame = true) (large : maxMessageSize.toNat < n)
    (small : n < 2 ^ 32) :
    Leads (recvBitfield p numPieces) ⟨streamOf before ++ (toBe 4 n ++ rest), ending⟩
      (fail (.message (.tooLarge (UInt32.ofNat n)))) ⟨rest, ending⟩ := by
  obtain ⟨fuel, leads⟩ := @recvBitfield_skips p numPieces before (toBe 4 n ++ rest) ending skips
  exact leads_trans leads (recvLoop_fails (read_oversized large small rest ending))

theorem recvBitfield_unfinished {part : Bytes}
    (skips : ∀ frame ∈ before, skipped frame = true) (unfinished : Unfinished part) :
    (recvBitfield p numPieces ⟨streamOf before ++ part, ending⟩).outcome =
        stop (.message .io) ending ∧
      (recvBitfield p numPieces ⟨streamOf before ++ part, ending⟩).state = ⟨[], ending⟩ := by
  obtain ⟨fuel, leads⟩ := @recvBitfield_skips p numPieces before part ending skips
  obtain ⟨outcome, state⟩ := @read_unfinished ending part unfinished
  have mapped : (mapErr ClientError.message Message.read ⟨part, ending⟩).outcome =
      stop (.message .io) ending := by
    rw [mapErr, outcome]
    cases ending <;> rfl
  obtain ⟨stops, same⟩ := stops_bind
    (f := onReceived p numPieces (recvLoop p numPieces fuel)) mapped
  exact ⟨leads.1.trans stops, leads.2.trans (same.trans state)⟩

end Ends

/-- What connect gives on a stream behind the handshake. -/
inductive Phase (numPieces : Nat) : Reader → Outcome ClientError PeerClient → Prop where
  | stopped {before : List Frame} {stop : Frame} (skips : ∀ frame ∈ before, skipped frame = true)
      (stops : skipped stop = false) (known : knownFrame stop = true) (rest : Bytes)
      (ending : Ending) :
      Phase numPieces ⟨streamOf before ++ (stop.bytes ++ rest), ending⟩
        (.ok ⟨⟨rest, ending⟩, true, ruledBitfield numPieces stop⟩)
  | unknown {before : List Frame} {id : UInt8} {payload : Bytes}
      {fits : 1 + payload.length ≤ maxMessageSize.toNat}
      (skips : ∀ frame ∈ before, skipped frame = true) (past : 8 < id.toNat) (rest : Bytes)
      (ending : Ending) :
      Phase numPieces ⟨streamOf before ++ ((Frame.message id payload fits).bytes ++ rest), ending⟩
        (.err (.message (.invalidId id)))
  | oversized {before : List Frame} {n : Nat} (skips : ∀ frame ∈ before, skipped frame = true)
      (large : maxMessageSize.toNat < n) (small : n < 2 ^ 32) (rest : Bytes) (ending : Ending) :
      Phase numPieces ⟨streamOf before ++ (toBe 4 n ++ rest), ending⟩
        (.err (.message (.tooLarge (UInt32.ofNat n))))
  | silence {before : List Frame} {part : Bytes} (skips : ∀ frame ∈ before, skipped frame = true)
      (unfinished : Unfinished part) :
      Phase numPieces ⟨streamOf before ++ part, .silent⟩
        (.ok ⟨⟨[], .silent⟩, true, emptyBitfield numPieces⟩)
  | closed {before : List Frame} {part : Bytes} (skips : ∀ frame ∈ before, skipped frame = true)
      (unfinished : Unfinished part) :
      Phase numPieces ⟨streamOf before ++ part, .fails⟩ (.err (.message .io))

theorem connect_fails {stream : Reader} {e : ClientError}
    (failed : Fails (recvBitfield p numPieces) stream e) :
    (connect p numPieces stream ()).outcome = .err e := by
  apply ErrorRuns.fails_bind_first
  apply ErrorRuns.fails_within.mpr
  rw [Fails, timeout, failed]

theorem phase_exists (numPieces : Nat) (stream : Reader) : ∃ o, Phase numPieces stream o := by
  obtain ⟨bytes, ending⟩ := stream
  obtain ⟨before, tail, rfl, skips, halts⟩ := halts_exists bytes
  cases halts with
  | @frame frame stops rest =>
    cases known : knownFrame frame with
    | true => exact ⟨_, .stopped skips stops known rest ending⟩
    | false =>
      cases frame with
      | keepAlive => cases known
      | message id payload fits =>
        have past : ¬ id.toNat ≤ 8 := of_decide_eq_false known
        exact ⟨_, .unknown skips (not_le.mp past) rest ending⟩
  | oversized large small rest => exact ⟨_, .oversized skips large small rest ending⟩
  | unfinished unfinished =>
    cases ending with
    | silent => exact ⟨_, .silence skips unfinished⟩
    | fails => exact ⟨_, .closed skips unfinished⟩

theorem connect_of_phase {stream : Reader} {o : Outcome ClientError PeerClient}
    (fits : numPieces + 7 < 2 ^ 64) (phase : Phase numPieces stream o) :
    (connect p numPieces stream ()).outcome = o := by
  cases phase with
  | stopped skips stops known rest ending =>
    have leads := @recvBitfield_frame p numPieces ending _ _ rest skips stops
    exact (connect_of_received ((returns_of_leads leads).mpr (stopResult_known fits known))).1
  | @unknown before id payload small skips past rest ending =>
    have stops : skipped (.message id payload small) = false := by
      simp only [skipped, decide_eq_false_iff_not]
      omega
    have leads := @recvBitfield_frame p numPieces ending _ _ rest skips stops
    have none : knownIds[id.toNat]? = none := List.getElem?_eq_none (show 9 ≤ id.toNat by omega)
    apply connect_fails
    rw [Fails, leads.1, stopResult, if_neg (by omega), fromByte_eq, none]
    rfl
  | oversized skips large small rest ending =>
    exact connect_fails (recvBitfield_oversized skips large small).1
  | silence skips unfinished =>
    have waits : Waits (recvBitfield p numPieces) ⟨streamOf _ ++ _, .silent⟩ ⟨[], .silent⟩ :=
      recvBitfield_unfinished skips unfinished
    exact (returns_connect.mpr (Or.inr ⟨rfl, waits, (returns_new fits).mpr ⟨rfl, rfl⟩⟩)).1
  | closed skips unfinished =>
    exact connect_fails (@recvBitfield_unfinished p numPieces .fails _ _ skips unfinished).1

/-- On any stream, connect gives exactly this. -/
theorem phase_outcomes {numPieces : Nat} (fits : numPieces + 7 < 2 ^ 64) (p : Profile)
    (stream : Reader) (o : Outcome ClientError PeerClient) :
    (connect p numPieces stream ()).outcome = o ↔ Phase numPieces stream o := by
  constructor
  · rintro rfl
    obtain ⟨o, phase⟩ := phase_exists numPieces stream
    rw [connect_of_phase fits phase]
    exact phase
  · exact connect_of_phase fits

theorem phase_outcomes_half : 8 + 7 < 2 ^ 64 ∧
    Phase 8 ⟨[0, 0, 0, 1, 0, 0, 0], .silent⟩ (.ok ⟨⟨[], .silent⟩, true, ⟨[0], 8⟩⟩) :=
  ⟨by decide, (phase_outcomes (by decide) .debug _ _).mp (by decide +kernel)⟩

end BitfieldPhase
