import RustyTorrent.Library.DuplexLinks
import RustyTorrent.Peer.PeerHandshake

/- Two clients that perform the handshake with each other, in any order of their steps, and
   one that reads a handshake from an arbitrary stream. -/
namespace HandshakeAgreement
open RustExec ByteStreams BufferWrites StreamFutures TwoSides DuplexLinks PeerHandshake

def clients (infoHash peerId : Side → Vector UInt8 20) :
    Side → Future HandshakeError HandshakeResult :=
  fun side => performHandshake (infoHash side) (peerId side)

/-- A stream that starts with a handshake. -/
def ShakesHands (stream : Bytes) : Prop :=
  68 ≤ stream.length ∧ stream[0]? = some 19 ∧ (stream.drop 1).take 19 = protocol

/-- What a client that has returned knows, and where it has left its stream: the other end's
    later bytes are all that is still to be read. -/
structure Agrees (infoHash peerId : Side → Vector UInt8 20)
    (link : Link HandshakeError HandshakeResult) (side : Side) : Prop where
  ok_iff : (∃ result, (link side).code = .done result) ↔ infoHash side = infoHash side.other
  result : ∀ result, (link side).code = .done result →
    result.infoHash = infoHash side ∧ result.peerId = peerId side.other
  error : ∀ error, (link side).code = .fail error → error = .infoHashMismatch
  consumed : (link side).consumed =
    (buildHandshake (infoHash side.other) (peerId side.other)).toList
  length : (link side).consumed.length = 68
  intact : (link side).unread ++ (link side.other).buffered = (link side.other).sent

theorem handshake_layout (infoHash peerId : Vector UInt8 20) :
    (buildHandshake infoHash peerId).toList =
      19 :: (protocol ++ (List.replicate 8 0 ++ (infoHash.toList ++ peerId.toList))) := by
  let front : Bytes := 19 :: (protocol ++ List.replicate 8 0)
  have head : overwriteAll (List.replicate 68 0)
      [⟨0, [UInt8.ofNat protocol.length]⟩, ⟨1, protocol⟩] = front ++ List.replicate 40 0 := by
    decide
  have hash : overwrite (front ++ List.replicate 40 0) ⟨28, infoHash.toList⟩ =
      front ++ infoHash.toList ++ List.replicate 20 0 := by
    have settled : front.length = 28 := rfl
    rw [overwrite_behind front _ _ settled, Vector.length_toList, List.drop_replicate]
  have peer : overwrite (front ++ infoHash.toList ++ List.replicate 20 0) ⟨48, peerId.toList⟩ =
      front ++ infoHash.toList ++ peerId.toList := by
    have settled : (front ++ infoHash.toList).length = 48 := by
      rw [List.length_append, Vector.length_toList]
      rfl
    rw [overwrite_behind _ _ _ settled, Vector.length_toList, List.drop_replicate]
    simp
  change overwrite (overwrite (overwriteAll (List.replicate 68 0)
    [⟨0, [UInt8.ofNat protocol.length]⟩, ⟨1, protocol⟩]) ⟨28, infoHash.toList⟩)
    ⟨48, peerId.toList⟩ = _
  rw [head, hash, peer]
  simp [front]

theorem buffer_slices (b : UInt8) (buf : Vector UInt8 67) (rest : Bytes) :
    ((b :: (buf.toList ++ rest)).drop 1).take 19 = (buf.take 19).toList ∧
      ((b :: (buf.toList ++ rest)).drop 28).take 20 = (buf.extract 27 47).toList ∧
      ((b :: (buf.toList ++ rest)).drop 48).take 20 = (buf.extract 47 67).toList ∧
      (b :: (buf.toList ++ rest)).drop 68 = rest := by
  have size : buf.toList.length = 67 := by simp
  rw [Vector.toList_take, Vector.toList_extract, Vector.toList_extract]
  refine ⟨?_, ?_, ?_, ?_⟩
  · simp [List.take_append]
  · simp [List.drop_append, List.take_append]
  · simp [List.drop_append]
  · simp

theorem returns_readHandshake_buffers {b : UInt8} {buf : Vector UInt8 67} {rest : Bytes}
    {ending : Ending} {result : HandshakeResult} {reader' : Reader} :
    Returns readHandshake.onReader ⟨b :: (buf.toList ++ rest), ending⟩ result reader' ↔
      b = 19 ∧ (buf.take 19).toList = protocol ∧
        result = { peerId := buf.extract 47 67, infoHash := buf.extract 27 47 } ∧
        reader' = ⟨rest, ending⟩ := by
  rw [readHandshake_eq, show b :: (buf.toList ++ rest) = #v[b].toList ++ (buf.toList ++ rest)
    from rfl, returns_of_leads (leads_read #v[b] _)]
  change Returns (Future.onReader (if b.toNat ≠ protocol.length then _ else _)) _ _ _ ↔ _
  have length : b.toNat = protocol.length ↔ b = 19 := @UInt8.toNat_inj b 19
  by_cases same : b = 19
  · rw [if_neg (not_not.mpr (length.mpr same)), returns_of_leads (leads_read buf rest)]
    by_cases known : (buf.take 19).toList = protocol
    · rw [if_neg (not_not.mpr known)]
      simp only [same, known, true_and]
      exact returns_pure.trans (and_congr eq_comm eq_comm)
    · rw [if_pos known]
      exact iff_of_false returns_fail fun other => known other.2.1
  · rw [if_pos (mt length.mp same)]
    exact iff_of_false returns_fail fun other => same other.1

theorem stream_buffers {stream : Bytes} (enough : 68 ≤ stream.length) :
    ∃ (b : UInt8) (buf : Vector UInt8 67) (rest : Bytes), stream = b :: (buf.toList ++ rest) := by
  cases stream with
  | nil => simp at enough
  | cons b stream =>
    have more : 67 ≤ stream.length := Nat.le_of_succ_le_succ enough
    refine ⟨b, leading stream more, stream.drop 67, ?_⟩
    simp [leading, Vector.toList]

theorem returns_readHandshake {stream : Bytes} {ending : Ending} {result : HandshakeResult}
    {reader' : Reader} :
    Returns readHandshake.onReader ⟨stream, ending⟩ result reader' ↔
      ShakesHands stream ∧ result.infoHash.toList = (stream.drop 28).take 20 ∧
        result.peerId.toList = (stream.drop 48).take 20 ∧
        reader' = ⟨stream.drop 68, ending⟩ := by
  by_cases enough : 68 ≤ stream.length
  · obtain ⟨b, buf, rest, rfl⟩ := stream_buffers enough
    obtain ⟨known, hash, peer, behind⟩ := buffer_slices b buf rest
    rw [returns_readHandshake_buffers, ShakesHands, known, hash, peer, behind]
    cases result
    simp only [HandshakeResult.mk.injEq, Vector.toList_inj, List.getElem?_cons_zero,
      Option.some.injEq, enough, true_and]
    constructor
    · intro parts
      obtain ⟨rfl, same, ⟨rfl, rfl⟩, rfl⟩ := parts
      exact ⟨⟨rfl, same⟩, rfl, rfl, rfl⟩
    · intro parts
      obtain ⟨⟨rfl, same⟩, rfl, rfl, rfl⟩ := parts
      exact ⟨rfl, same, ⟨rfl, rfl⟩, rfl⟩
  · refine iff_of_false ?_ fun shakes => enough shakes.1.1
    rw [readHandshake_eq, returns_read]
    intro parts
    obtain ⟨v, rest, rfl, run⟩ := parts
    split at run
    · exact returns_fail run
    · obtain ⟨buf, rest, rfl, -⟩ := returns_read.mp run
      simp at enough
      omega

theorem readHandshake_on_handshake (infoHash peerId : Vector UInt8 20) (rest : Bytes)
    (ending : Ending) :
    Returns readHandshake.onReader ⟨(buildHandshake infoHash peerId).toList ++ rest, ending⟩
      ⟨peerId, infoHash⟩ ⟨rest, ending⟩ := by
  have size : (buildHandshake infoHash peerId).toList.length = 68 := Vector.length_toList
  have head : protocol.length = 19 := rfl
  rw [returns_readHandshake, List.drop_left' size, ShakesHands, List.length_append, size]
  rw [handshake_layout]
  refine ⟨⟨Nat.le_add_right _ _, rfl, ?_⟩, ?_, ?_, rfl⟩
  · simp [head]
  · simp [List.drop_append, List.take_append, head]
  · simp [List.drop_append, List.take_append, head]

theorem silent_readHandshake : readHandshake.Silent := by
  intro pstrlenBuf
  change Future.Silent (if _ then _ else _)
  split
  · trivial
  · intro buf
    change Future.Silent (if _ then _ else _)
    split <;> trivial

section Performing
variable (infoHash peerId : Vector UInt8 20)

/-- What performHandshake does with the handshake it has read. -/
def check (infoHash : Vector UInt8 20) (result : HandshakeResult) :
    Future HandshakeError HandshakeResult :=
  if result.infoHash ≠ infoHash then .fail .infoHashMismatch else .done result

theorem check_done_iff {result other : HandshakeResult} :
    check infoHash result = .done other ↔ result.infoHash = infoHash ∧ other = result := by
  unfold check
  split <;> rename_i compared
  · simp [compared]
  · simp [not_not.mp compared, eq_comm]

theorem check_fail_iff {result : HandshakeResult} {error : HandshakeError} :
    check infoHash result = .fail error ↔
      result.infoHash ≠ infoHash ∧ error = .infoHashMismatch := by
  unfold check
  split <;> rename_i compared
  · simp [compared, eq_comm]
  · simp [not_not.mp compared]

theorem check_returned (result : HandshakeResult) : (check infoHash result).Returned := by
  unfold check
  split <;> trivial

theorem silent_rest : (readHandshake >>= check infoHash).Silent := by
  apply silent_bind silent_readHandshake
  intro result
  unfold check
  split <;> trivial

theorem performHandshake_writesFirst : (performHandshake infoHash peerId).WritesFirst := by
  change (readHandshake >>= check infoHash).WritesFirst
  exact writesFirst_of_silent (silent_rest infoHash)

theorem performHandshake_upcoming :
    (performHandshake infoHash peerId).upcoming = (buildHandshake infoHash peerId).toList := by
  have silent := upcoming_of_silent (silent_rest infoHash)
  change (buildHandshake infoHash peerId).toList ++ (readHandshake >>= check infoHash).upcoming = _
  rw [silent, List.append_nil]

theorem performHandshake_on_handshake (infoHash' peerId' : Vector UInt8 20) (rest : Bytes)
    (ending : Ending) :
    Leads (performHandshake infoHash peerId).onReader
      ⟨(buildHandshake infoHash' peerId').toList ++ rest, ending⟩
      (check infoHash ⟨peerId', infoHash'⟩).onReader ⟨rest, ending⟩ := by
  change Leads (readHandshake >>= check infoHash).onReader _ _ _
  rw [onReader_bind]
  exact leads_bind (readHandshake_on_handshake infoHash' peerId' rest ending)

end Performing

variable {infoHash peerId : Side → Vector UInt8 20} {link : Link HandshakeError HandshakeResult}

theorem clients_conserved (reachable : Reachable (clients infoHash peerId) link) :
    Conserved (clients infoHash peerId) link :=
  conserved_reachable (fun _ => performHandshake_writesFirst _ _) reachable

theorem client_on_written (side : Side) (sent : Bytes) (ending : Ending) :
    Leads (clients infoHash peerId side).onReader
      ⟨(clients infoHash peerId side.other).upcoming ++ sent, ending⟩
      (check (infoHash side) ⟨peerId side.other, infoHash side.other⟩).onReader
      ⟨sent, ending⟩ := by
  have written : (clients infoHash peerId side.other).upcoming =
      (buildHandshake (infoHash side.other) (peerId side.other)).toList :=
    performHandshake_upcoming _ _
  rw [written]
  exact performHandshake_on_handshake _ _ _ _ sent ending

theorem returned_stream (conserved : Conserved (clients infoHash peerId) link) {side : Side}
    (returned : (link side).code.Returned) :
    (link side).code = check (infoHash side) ⟨peerId side.other, infoHash side.other⟩ ∧
      (link side).unread ++ ((link side.other).buffered ++ (link side.other).code.upcoming) =
        (link side.other).sent := by
  have alone := @client_on_written infoHash peerId side (link side.other).sent .fails
  have here := follows_written conserved side .fails
  obtain ⟨code, stream⟩ := returned_unique returned (check_returned _ _)
    ⟨here.1.symm.trans alone.1, here.2.symm.trans alone.2⟩
  exact ⟨code, congrArg Reader.arrived stream⟩

theorem client_agrees (conserved : Conserved (clients infoHash peerId) link) {side : Side}
    (returned : (link side).code.Returned) : Agrees infoHash peerId link side := by
  obtain ⟨code, stream⟩ := returned_stream conserved returned
  have consumed : (link side).consumed =
      (buildHandshake (infoHash side.other) (peerId side.other)).toList := by
    have balance := conserved.fifo side
    rw [stream] at balance
    exact (List.append_cancel_right balance).symm.trans (performHandshake_upcoming _ _)
  have upcoming : (link side.other).code.upcoming = [] := by
    by_cases otherReturned : (link side.other).code.Returned
    · exact upcoming_of_returned otherReturned
    · rw [conserved.quiet side.other otherReturned] at stream
      exact (List.append_eq_nil_iff.mp (List.append_eq_nil_iff.mp stream).2).2
  rw [upcoming, List.append_nil] at stream
  constructor
  · rw [code]
    constructor
    · intro returns
      obtain ⟨result, done⟩ := returns
      exact ((check_done_iff _).mp done).1.symm
    · intro same
      exact ⟨_, (check_done_iff _).mpr ⟨same.symm, rfl⟩⟩
  · intro result ok
    rw [code, check_done_iff] at ok
    obtain ⟨same, rfl⟩ := ok
    exact ⟨same, rfl⟩
  · intro error failed
    rw [code, check_fail_iff] at failed
    exact failed.2
  · exact consumed
  · rw [consumed]
    exact Vector.length_toList
  · exact stream

theorem client_never_waits (conserved : Conserved (clients infoHash peerId) link) {side : Side}
    (running : ¬ (link side).code.Returned) : ∃ link', Works link link' := by
  rcases works_or_waits conserved running with works | waits
  · exact works
  · have alone := @client_on_written infoHash peerId side (link side.other).sent .silent
    have pending := alone.1.symm.trans waits.1
    unfold check at pending
    split at pending <;> cases pending

/-- In every interleaving both clients return, with the other's id or both with a mismatch; and
    on any stream exactly a handshake is read. -/
theorem handshake_agreement (infoHash peerId : Side → Vector UInt8 20) :
    (∀ link, Reachable (clients infoHash peerId) link →
      (∀ side, (link side).code.Returned → Agrees infoHash peerId link side) ∧
        ((∀ side, (link side).code.Returned) ∨ ∃ link', Works link link')) ∧
    (WellFounded fun link' link : Link HandshakeError HandshakeResult => Works link link') ∧
    ∀ stream ending,
      ((∃ result reader', Returns readHandshake.onReader ⟨stream, ending⟩ result reader') ↔
        ShakesHands stream) ∧
      ∀ result reader', Returns readHandshake.onReader ⟨stream, ending⟩ result reader' →
        result.infoHash.toList = (stream.drop 28).take 20 ∧
          result.peerId.toList = (stream.drop 48).take 20 ∧
          reader' = ⟨stream.drop 68, ending⟩ := by
  refine ⟨?_, works_wellFounded, ?_⟩
  · intro link reachable
    have conserved := clients_conserved reachable
    refine ⟨fun side returned => client_agrees conserved returned, ?_⟩
    by_cases all : ∀ side, (link side).code.Returned
    · exact Or.inl all
    · obtain ⟨side, running⟩ := not_forall.mp all
      exact Or.inr (client_never_waits conserved running)
  · intro stream ending
    constructor
    · constructor
      · intro parts
        obtain ⟨result, reader', run⟩ := parts
        exact (returns_readHandshake.mp run).1
      · intro shakes
        obtain ⟨b, buf, rest, rfl⟩ := stream_buffers shakes.1
        obtain ⟨known, -⟩ := buffer_slices b buf rest
        exact ⟨_, _, returns_readHandshake_buffers.mpr ⟨Option.some.inj shakes.2.1,
          known.symm.trans shakes.2.2, rfl, rfl⟩⟩
    · intro result reader' run
      exact (returns_readHandshake.mp run).2

end HandshakeAgreement
