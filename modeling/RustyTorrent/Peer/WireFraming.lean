import RustyTorrent.Peer.PeerMessage

/- Frames of the wire protocol, and the two directions between them and what read returns.
   A read that succeeds has consumed exactly one frame, so the reader stays in step. -/
namespace WireFraming
open RustExec BigEndian ByteStreams PeerMessage

/-- A keep-alive, or any id byte with a payload that the size limit admits. -/
inductive Frame where
  | keepAlive
  | message (id : UInt8) (payload : Bytes) (fits : 1 + payload.length ≤ maxMessageSize.toNat)

def knownIds : List MessageId :=
  [.choke, .unchoke, .interested, .notInterested, .have, .bitfield, .request, .piece, .cancel]

theorem empty_fits : 1 + ([] : Bytes).length ≤ maxMessageSize.toNat := by decide

theorem payload_fits {payload : Bytes} (fits : 1 + payload.length ≤ maxMessageSize.toNat) :
    payload.length < 2 ^ 63 := by
  have limit : maxMessageSize.toNat = 16777216 := rfl
  omega

namespace Frame

def bytes : Frame → Bytes
  | keepAlive => [0, 0, 0, 0]
  | message id payload _ => toBe 4 (1 + payload.length) ++ id :: payload

def result : Frame → Outcome MessageError (Option Message)
  | keepAlive => .ok none
  | message id payload fits =>
      match knownIds[id.toNat]? with
      | some known => .ok (some ⟨known, payload, payload_fits fits⟩)
      | none => .err (.invalidId id)

end Frame

theorem fromByte_toByte (id : MessageId) : MessageId.fromByte id.toByte = .ok id := by
  cases id <;> rfl

theorem knownIds_index : ∀ {n : Nat} {id : MessageId}, knownIds[n]? = some id → n = id.toByte.toNat
  | 0, _, rfl | 1, _, rfl | 2, _, rfl | 3, _, rfl | 4, _, rfl | 5, _, rfl | 6, _, rfl | 7, _, rfl
  | 8, _, rfl => rfl

theorem fromByte_eq (byte : UInt8) :
    MessageId.fromByte byte = match knownIds[byte.toNat]? with
      | some known => .ok known
      | none => .error (.invalidId byte) := by
  cases found : knownIds[byte.toNat]? with
  | some id =>
    rw [UInt8.toNat_inj.mp (knownIds_index found)]
    exact fromByte_toByte id
  | none =>
    unfold MessageId.fromByte
    split
    case h_10 => rfl
    all_goals cases found

theorem prefix_value {n : Nat} (fits : n < 2 ^ 32) :
    (UInt32.ofNat (ofBe (toBe 4 n))).toNat = n := by
  rw [ofBe_toBe (by omega), UInt32.toNat_ofNat', Nat.mod_eq_of_lt fits]

theorem reads_length (n : Nat) (rest : Bytes) (ending : Ending) :
    Returns (readExact MessageError.io 4 (by decide)) ⟨toBe 4 n ++ rest, ending⟩
      ⟨toBe 4 n, by simp⟩ ⟨rest, ending⟩ :=
  returns_readExact.mpr ⟨by simp, rfl, rfl⟩

theorem read_body {n : Nat} (positive : 0 < n) (fits : n ≤ maxMessageSize.toNat) (rest : Bytes)
    (ending : Ending) :
    Leads Message.read ⟨toBe 4 n ++ rest, ending⟩
      (do
        let msgBuf ← readExact .io n (fits.trans_lt (by decide))
        let byte ← index msgBuf.bytes 0
        let id ← ofExcept (MessageId.fromByte byte)
        let _ ← slice msgBuf.bytes 1 msgBuf.bytes.length
        return some ⟨id, msgBuf.drop 1⟩) ⟨rest, ending⟩ := by
  have limit : maxMessageSize.toNat = 16777216 := rfl
  have value := prefix_value (show n < 2 ^ 32 by omega)
  have nonzero : ¬ UInt32.ofNat (ofBe (toBe 4 n)) = 0 := by
    rw [← UInt32.toNat_inj, value, UInt32.toNat_zero]
    omega
  have admitted : ¬ UInt32.ofNat (ofBe (toBe 4 n)) > maxMessageSize := by
    rw [gt_iff_lt, UInt32.lt_iff_toNat_lt, value]
    omega
  apply leads_trans (leads_bind (reads_length n rest ending))
  have whole : readExact MessageError.io (UInt32.ofNat (ofBe (toBe 4 n))).toNat
      (Message.u32_fits _) = readExact .io n (fits.trans_lt (by decide)) := by
    congr 1
  simp only [nonzero, admitted, ↓reduceIte, whole]
  exact leads_refl _ _

theorem read_oversized {n : Nat} (large : maxMessageSize.toNat < n) (fits : n < 2 ^ 32)
    (rest : Bytes) (ending : Ending) :
    Leads Message.read ⟨toBe 4 n ++ rest, ending⟩ (fail (.tooLarge (UInt32.ofNat n)))
      ⟨rest, ending⟩ := by
  have value := prefix_value fits
  have same : UInt32.ofNat (ofBe (toBe 4 n)) = UInt32.ofNat n := by
    rw [← UInt32.toNat_inj, value, UInt32.toNat_ofNat', Nat.mod_eq_of_lt fits]
  have nonzero : ¬ UInt32.ofNat n = 0 := by
    rw [← same, ← UInt32.toNat_inj, value, UInt32.toNat_zero]
    omega
  have refused : UInt32.ofNat n > maxMessageSize := by
    rw [gt_iff_lt, UInt32.lt_iff_toNat_lt, ← same, value]
    exact large
  apply leads_trans (leads_bind (reads_length n rest ending))
  simp only [same, nonzero, refused, ↓reduceIte]
  exact leads_refl _ _

theorem read_leads (id : UInt8) {payload : Bytes} (rest : Bytes) (ending : Ending)
    (fits : 1 + payload.length ≤ maxMessageSize.toNat) :
    Leads Message.read ⟨toBe 4 (1 + payload.length) ++ (id :: payload ++ rest), ending⟩
      (do
        let known ← ofExcept (MessageId.fromByte id)
        return some ⟨known, payload, payload_fits fits⟩) ⟨rest, ending⟩ := by
  have body : (id :: payload).length = 1 + payload.length := by
    rw [List.length_cons, Nat.add_comm]
  have msgBuf : Returns (readExact MessageError.io (1 + payload.length)
      (fits.trans_lt (by decide))) ⟨id :: payload ++ rest, ending⟩
      ⟨id :: payload, body ▸ fits.trans_lt (by decide)⟩ ⟨rest, ending⟩ :=
    returns_readExact.mpr ⟨body, rfl, rfl⟩
  apply leads_trans (read_body (by omega) fits _ ending)
  apply leads_trans (leads_bind msgBuf)
  apply leads_trans (leads_bind (returns_index.mpr ⟨rfl, rfl⟩))
  cases MessageId.fromByte id with
  | error e => exact leads_refl _ _
  | ok known =>
    apply leads_trans (leads_bind (returns_ofExcept.mpr ⟨rfl, rfl⟩))
    apply leads_trans (leads_bind (returns_slice.mpr ⟨⟨by simp, by simp⟩, rfl, rfl⟩))
    exact leads_refl _ _

theorem read_frame (frame : Frame) (rest : Bytes) (ending : Ending) :
    (Message.read ⟨frame.bytes ++ rest, ending⟩).outcome = frame.result ∧
      (Message.read ⟨frame.bytes ++ rest, ending⟩).state = ⟨rest, ending⟩ := by
  cases frame with
  | keepAlive => exact ⟨rfl, rfl⟩
  | message id payload fits =>
    have leads := read_leads id rest ending fits
    rw [fromByte_eq] at leads
    rw [Frame.bytes, Frame.result, List.append_assoc]
    cases found : knownIds[id.toNat]? with
    | some known =>
      rw [found] at leads
      exact leads
    | none =>
      rw [found] at leads
      exact leads

def reads : Nat → Reader → List (Outcome MessageError (Option Message)) × Reader
  | 0, reader => ([], reader)
  | n + 1, reader =>
      let run := Message.read reader
      let later := reads n run.state
      (run.outcome :: later.1, later.2)

def streamOf (frames : List Frame) : Bytes := frames.flatMap Frame.bytes

theorem reads_frames (frames : List Frame) (rest : Bytes) (ending : Ending) :
    reads frames.length ⟨streamOf frames ++ rest, ending⟩ =
      (frames.map Frame.result, ⟨rest, ending⟩) := by
  induction frames with
  | nil => rfl
  | cons frame later ih =>
    obtain ⟨outcome, state⟩ := read_frame frame (streamOf later ++ rest) ending
    have split : streamOf (frame :: later) ++ rest = frame.bytes ++ (streamOf later ++ rest) := by
      simp [streamOf]
    rw [split, List.length_cons, reads, outcome, state]
    simp only [ih, List.map_cons]

theorem zero_prefix {lenBuf : Bytes} (size : lenBuf.length = 4)
    (zero : UInt32.ofNat (ofBe lenBuf) = 0) : lenBuf = [0, 0, 0, 0] := by
  have small := ofBe_lt lenBuf
  rw [size] at small
  have value : ofBe lenBuf = 0 := by
    rw [← UInt32.toNat_inj, UInt32.toNat_ofNat', UInt32.toNat_zero] at zero
    omega
  have bytes := toBe_ofBe lenBuf
  rw [size, value] at bytes
  rw [← bytes]
  rfl

theorem length_prefix {lenBuf : Bytes} {n : Nat} (size : lenBuf.length = 4)
    (value : (UInt32.ofNat (ofBe lenBuf)).toNat = n + 1) : lenBuf = toBe 4 (1 + n) := by
  have small := ofBe_lt lenBuf
  have bytes := toBe_ofBe lenBuf
  rw [size] at small bytes
  rw [UInt32.toNat_ofNat', Nat.mod_eq_of_lt (by omega)] at value
  rw [← bytes, value, Nat.add_comm]

theorem result_known {byte : UInt8} {id : MessageId} {payload : Bytes} {msgBuf : ByteSeq}
    (known : MessageId.fromByte byte = .ok id) (body : msgBuf.bytes = byte :: payload)
    (fits : 1 + payload.length ≤ maxMessageSize.toNat) :
    (Frame.message byte payload fits).result = .ok (some ⟨id, msgBuf.drop 1⟩) := by
  have same : msgBuf.drop 1 = ⟨payload, payload_fits fits⟩ := by
    ext1
    simp [ByteSeq.drop, body]
  rw [fromByte_eq] at known
  cases found : knownIds[byte.toNat]? with
  | some id' =>
    rw [found] at known
    cases known
    simp only [Frame.result, found, same]
  | none =>
    rw [found] at known
    cases known

theorem returns_read {reader reader' : Reader} {o : Option Message} :
    Returns Message.read reader o reader' ↔
      ∃ frame : Frame, frame.result = .ok o ∧ reader.arrived = frame.bytes ++ reader'.arrived ∧
        reader'.ending = reader.ending := by
  constructor
  · intro run
    obtain ⟨lenBuf, middle, first, run⟩ := returns_bind.mp run
    obtain ⟨size, split, ending⟩ := returns_readExact.mp first
    dsimp only at run
    split_ifs at run with zero large
    · obtain ⟨rfl, rfl⟩ := returns_pure.mp run
      refine ⟨.keepAlive, rfl, ?_, ending⟩
      rw [split, zero_prefix size zero]
      rfl
    · exact absurd run returns_fail
    · obtain ⟨msgBuf, behind, second, run⟩ := returns_bind.mp run
      obtain ⟨size', split', ending'⟩ := returns_readExact.mp second
      obtain ⟨byte, head, run⟩ := returns_index_bind.mp run
      obtain ⟨id, same, found, later⟩ := returns_bind.mp run
      obtain ⟨known, rfl⟩ := returns_ofExcept.mp found
      obtain ⟨-, last⟩ := returns_slice_bind.mp later
      obtain ⟨rfl, rfl⟩ := returns_pure.mp last
      obtain ⟨payload, body⟩ : ∃ payload, msgBuf.bytes = byte :: payload := by
        rw [← List.head?_eq_getElem?] at head
        exact List.head?_eq_some_iff.mp head
      have fits : 1 + payload.length ≤ maxMessageSize.toNat := by
        rw [gt_iff_lt, UInt32.lt_iff_toNat_lt, ← size', body, List.length_cons] at large
        omega
      have lengthBytes := length_prefix size (size' ▸ body ▸ List.length_cons)
      refine ⟨.message byte payload fits, result_known known body fits, ?_, ending'.trans ending⟩
      rw [split, split', body, Frame.bytes, lengthBytes, List.append_assoc]
  · intro parts
    obtain ⟨frame, result, split, ending⟩ := parts
    obtain ⟨outcome, state⟩ := read_frame frame reader'.arrived reader.ending
    have here : reader = ⟨frame.bytes ++ reader'.arrived, reader.ending⟩ := Reader.ext split rfl
    rw [here]
    exact ⟨outcome.trans result, state.trans (Reader.ext rfl ending.symm)⟩

theorem frame_length (frame : Frame) :
    frame.bytes.length = 4 + ofBe (frame.bytes.take 4) := by
  cases frame with
  | keepAlive => rfl
  | message id payload fits =>
    have limit : maxMessageSize.toNat = 16777216 := rfl
    have start : (toBe 4 (1 + payload.length) ++ id :: payload).take 4 =
        toBe 4 (1 + payload.length) := List.take_left' (by simp)
    rw [Frame.bytes, start, ofBe_toBe (by omega), List.length_append, toBe_length, List.length_cons,
      Nat.add_comm 1]

theorem frame_not_cut {frame other : Frame} {rest : Bytes}
    (starts : other.bytes ++ rest <+: frame.bytes) : other.bytes ++ rest = frame.bytes := by
  have long : 4 ≤ other.bytes.length := by
    rw [frame_length]
    omega
  have same : other.bytes.take 4 = frame.bytes.take 4 := by
    obtain ⟨tail, whole⟩ := starts
    rw [← whole, List.append_assoc, List.take_append_of_le_length long]
  have lengths : frame.bytes.length = other.bytes.length := by
    rw [frame_length, frame_length other, same]
  apply starts.eq_of_length_le
  rw [lengths, List.length_append]
  omega

theorem serialize_frame {p : Profile} {m : Message}
    (fits : 1 + m.payload.bytes.length ≤ maxMessageSize.toNat) :
    Returns (m.serialize p) () (Frame.message m.id.toByte m.payload.bytes fits).bytes () := by
  have limit : maxMessageSize.toNat = 16777216 := rfl
  have small : m.payload.bytes.length % 2 ^ 32 = m.payload.bytes.length :=
    Nat.mod_eq_of_lt (by omega)
  rw [Message.serialize, small, returns_unsigned_nat_bind (by omega),
    returns_usizeAdd_bind (by omega)]
  exact returns_value _ _

theorem result_some {frame : Frame} {m : Message} (result : frame.result = .ok (some m)) :
    ∃ fits, frame = .message m.id.toByte m.payload.bytes fits := by
  cases frame with
  | keepAlive => cases result
  | message id payload fits =>
    cases found : knownIds[id.toNat]? with
    | some known =>
      simp only [Frame.result, found, Outcome.ok.injEq, Option.some.injEq] at result
      subst result
      have byte : id = known.toByte := UInt8.toNat_inj.mp (knownIds_index found)
      subst byte
      exact ⟨fits, rfl⟩
    | none =>
      simp only [Frame.result, found] at result
      cases result

theorem result_none {frame : Frame} (result : frame.result = .ok none) : frame = .keepAlive := by
  cases frame with
  | keepAlive => rfl
  | message id payload fits =>
    cases found : knownIds[id.toNat]? with
    | some known =>
      simp only [Frame.result, found] at result
      cases result
    | none =>
      simp only [Frame.result, found] at result
      cases result

theorem framing_lossless (p : Profile) :
    (∀ (frames : List Frame) (rest : Bytes) (ending : Ending),
      reads frames.length ⟨streamOf frames ++ rest, ending⟩ =
        (frames.map Frame.result, ⟨rest, ending⟩)) ∧
    (∀ (m : Message) (fits : 1 + m.payload.bytes.length ≤ maxMessageSize.toNat),
      Returns (m.serialize p) () (Frame.message m.id.toByte m.payload.bytes fits).bytes ()) ∧
    (∀ (reader reader' : Reader) (m : Message), Returns Message.read reader (some m) reader' →
      reader'.ending = reader.ending ∧ ∃ bytes, Returns (m.serialize p) () bytes () ∧
        reader.arrived = bytes ++ reader'.arrived) ∧
    (∀ reader reader' : Reader, Returns Message.read reader none reader' →
      reader'.ending = reader.ending ∧ reader.arrived = [0, 0, 0, 0] ++ reader'.arrived) ∧
    ∀ (frame : Frame) (part : Bytes) (ending : Ending) (o : Option Message) (reader' : Reader),
      part <+: frame.bytes → part ≠ frame.bytes →
      ¬ Returns Message.read ⟨part, ending⟩ o reader' := by
  refine ⟨reads_frames, fun m fits => serialize_frame fits, ?_, ?_, ?_⟩
  · intro reader reader' m run
    obtain ⟨frame, result, split, ending⟩ := returns_read.mp run
    obtain ⟨fits, rfl⟩ := result_some result
    exact ⟨ending, _, serialize_frame fits, split⟩
  · intro reader reader' run
    obtain ⟨frame, result, split, ending⟩ := returns_read.mp run
    rw [result_none result] at split
    exact ⟨ending, split⟩
  · intro frame part ending o reader' starts proper run
    obtain ⟨other, -, split, -⟩ := returns_read.mp run
    dsimp only at split
    rw [split] at starts proper
    exact proper (frame_not_cut starts)

end WireFraming
