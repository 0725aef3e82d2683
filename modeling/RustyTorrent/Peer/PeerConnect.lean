import RustyTorrent.Library.FutureRuns
import RustyTorrent.Peer.BitfieldPhase
import RustyTorrent.Peer.HandshakeAgreement
import RustyTorrent.Peer.PeerOperations

/- The whole of connect in src/peer/client.rs, with a peer that does anything at all, and what
   the two have said to each other by any later moment. -/
namespace PeerConnect
open RustExec ByteStreams WriteHalves StreamFutures FutureRuns PeerMessage WireFraming
  PieceBitfield PeerConnection TimeoutStep BitfieldRule BitfieldPhase PeerHandshake
  HandshakeAgreement HaveRecorded OutgoingMessages PeerOperations TrackerAnnounce

variable {W : Type} [WriteHalf W]

/-- ClientError with the cases in which connect fails before it waits for a bitfield. -/
inductive ConnectError where
  | connect
  | handshake (error : HandshakeError)
  | client (error : ClientError)
  | timeout
  deriving DecidableEq, Repr

/-- A peer that has answered. `room` and `refusal`: how many bytes it takes, and what a write
    past them meets. `early`: what it sends until the handshake is over, at most ten seconds.
    `later`: what it sends until the wait for a bitfield is, if it has not closed before. -/
structure Remote where
  room : Option Nat
  refusal : Ending
  early : Bytes
  later : Option Reader
  deriving DecidableEq, Repr

/-- `TcpStream::connect` under `connect_timeout`. -/
inductive Dialing where
  | connected (remote : Remote)
  | ioError
  | silence
  deriving DecidableEq, Repr

def Remote.earlyEnding (remote : Remote) : Ending :=
  match remote.later with
  | some _ => .silent
  | none => .fails

def Remote.start (remote : Remote) : Connection W :=
  ⟨WriteHalf.start remote.room remote.refusal, ⟨remote.early, remote.earlyEnding⟩⟩

def Remote.behind (remote : Remote) (left : Bytes) : Reader :=
  match remote.later with
  | some more => ⟨left ++ more.arrived, more.ending⟩
  | none => ⟨left, .fails⟩

def Remote.bytes (remote : Remote) : Bytes :=
  remote.early ++ match remote.later with
    | some more => more.arrived
    | none => []

def connect (p : Profile) (now : Nat) (addr : PeerAddr) (ourPeerId infoHash : Vector UInt8 20)
    (numPieces : Nat) : Dialing → Exec Unit ConnectError (ConnectedPeer W)
  | .silence => fail .timeout
  | .ioError => fail .connect
  | .connected remote => do
      let (answer, connection) ← within remote.start
        (timeout (mapErr .handshake (onConnection .io (performHandshake infoHash ourPeerId))))
      let hsResult ← okOr answer .timeout
      let client ← mapErr .client
        (PeerConnection.connect p numPieces (remote.behind connection.reader.arrived))
      return { addr, client, writer := connection.writer, peerId := hsResult.peerId,
               stats := PeerStats.new now }

variable {p : Profile} {now numPieces : Nat} {addr : PeerAddr}
  {ourPeerId infoHash : Vector UInt8 20} {remote : Remote}

inductive Answer (infoHash : Vector UInt8 20) :
    Reader → Outcome HandshakeError HandshakeResult → Prop where
  | shaken {stream : Bytes} {result : HandshakeResult} (shakes : ShakesHands stream)
      (hash : (stream.drop 28).take 20 = infoHash.toList) (same : result.infoHash = infoHash)
      (peer : result.peerId.toList = (stream.drop 48).take 20) (ending : Ending) :
      Answer infoHash ⟨stream, ending⟩ (.ok result)
  | otherTorrent {stream : Bytes} (shakes : ShakesHands stream)
      (other : (stream.drop 28).take 20 ≠ infoHash.toList) (ending : Ending) :
      Answer infoHash ⟨stream, ending⟩ (.err .infoHashMismatch)
  | otherLength {b : UInt8} (other : b ≠ 19) (rest : Bytes) (ending : Ending) :
      Answer infoHash ⟨b :: rest, ending⟩ (.err (.invalidProtocolLength b))
  | otherProtocol {rest : Bytes} (enough : 67 ≤ rest.length) (other : rest.take 19 ≠ protocol)
      (ending : Ending) : Answer infoHash ⟨19 :: rest, ending⟩ (.err .unknownProtocol)
  | nothing (ending : Ending) : Answer infoHash ⟨[], ending⟩ (stop .io ending)
  | short {rest : Bytes} (few : rest.length < 67) (ending : Ending) :
      Answer infoHash ⟨19 :: rest, ending⟩ (stop .io ending)

def answering (infoHash : Vector UInt8 20) : Exec Reader HandshakeError HandshakeResult :=
  (readHandshake >>= check infoHash).onReader

theorem read_answer {stream : Bytes} {ending : Ending} (shakes : ShakesHands stream) :
    ∃ result : HandshakeResult, result.infoHash.toList = (stream.drop 28).take 20 ∧
      result.peerId.toList = (stream.drop 48).take 20 ∧
      Leads (answering infoHash) ⟨stream, ending⟩ (check infoHash result).onReader
        ⟨stream.drop 68, ending⟩ := by
  obtain ⟨b, buf, rest, rfl⟩ := stream_buffers shakes.1
  obtain ⟨known, hash, peer, behind⟩ := buffer_slices b buf rest
  have read : Returns readHandshake.onReader ⟨b :: (buf.toList ++ rest), ending⟩
      ⟨buf.extract 47 67, buf.extract 27 47⟩ ⟨rest, ending⟩ :=
    returns_readHandshake_buffers.mpr ⟨Option.some.inj shakes.2.1, known.symm.trans shakes.2.2,
      rfl, rfl⟩
  refine ⟨⟨buf.extract 47 67, buf.extract 27 47⟩, hash.symm, peer.symm, ?_⟩
  rw [behind, answering, onReader_bind]
  exact leads_bind read

theorem answer_exists (infoHash : Vector UInt8 20) (reader : Reader) :
    ∃ o, Answer infoHash reader o := by
  obtain ⟨stream, ending⟩ := reader
  cases stream with
  | nil => exact ⟨_, .nothing ending⟩
  | cons b rest =>
    by_cases first : b = 19
    · subst first
      by_cases enough : 67 ≤ rest.length
      · by_cases known : rest.take 19 = protocol
        · have shakes : ShakesHands (19 :: rest) := ⟨Nat.succ_le_succ enough, rfl, known⟩
          obtain ⟨result, hash, peer, -⟩ := @read_answer infoHash _ ending shakes
          by_cases same : result.infoHash = infoHash
          · exact ⟨_, .shaken shakes (hash.symm.trans (congrArg _ same)) same peer ending⟩
          · refine ⟨_, .otherTorrent shakes ?_ ending⟩
            rw [← hash]
            exact mt Vector.toList_inj.mp same
        · exact ⟨_, .otherProtocol enough known ending⟩
      · exact ⟨_, .short (not_le.mp enough) ending⟩
    · exact ⟨_, .otherLength first rest ending⟩

theorem readHandshake_first (rest : Bytes) (ending : Ending) :
    Leads readHandshake.onReader ⟨19 :: rest, ending⟩
      (Future.onReader (.read .io 67 fun buf =>
        if (buf.take 19).toList ≠ protocol then .fail .unknownProtocol
        else .done { peerId := buf.extract 47 67, infoHash := buf.extract 27 47 }))
      ⟨rest, ending⟩ := by
  rw [readHandshake_eq]
  exact leads_read #v[19] rest

theorem answering_fails {reader : Reader} {error : HandshakeError}
    (failed : Fails readHandshake.onReader reader error) :
    (answering infoHash reader).outcome = .err error := by
  rw [answering, onReader_bind]
  exact ErrorRuns.fails_bind_first failed

theorem answering_stops {reader : Reader} {ending : Ending}
    (stops : (readHandshake.onReader reader).outcome = stop .io ending) :
    (answering infoHash reader).outcome = stop .io ending := by
  rw [answering, onReader_bind]
  exact (stops_bind stops).1

theorem readHandshake_otherLength {b : UInt8} (other : b ≠ 19) (rest : Bytes) (ending : Ending) :
    Fails readHandshake.onReader ⟨b :: rest, ending⟩ (.invalidProtocolLength b) := by
  have length : b.toNat ≠ protocol.length := mt (@UInt8.toNat_inj b 19).mp other
  rw [Fails, readHandshake_eq]
  refine (leads_read #v[b] rest).1.trans ?_
  change (Future.onReader (if b.toNat ≠ protocol.length then _ else _) _).outcome = _
  rw [if_pos length]
  rfl

theorem readHandshake_otherProtocol {rest : Bytes} (enough : 67 ≤ rest.length)
    (other : rest.take 19 ≠ protocol) (ending : Ending) :
    Fails readHandshake.onReader ⟨19 :: rest, ending⟩ .unknownProtocol := by
  have cut : rest = (leading rest enough).toList ++ rest.drop 67 := by
    simp [leading, Vector.toList]
  have known : ((leading rest enough).take 19).toList ≠ protocol := by
    rw [Vector.toList_take]
    intro same
    apply other
    rw [cut, List.take_append_of_le_length (by simp)]
    exact same
  rw [Fails, (readHandshake_first rest ending).1, cut, (leads_read _ _).1, if_pos known]
  rfl

theorem answering_shaken {stream : Bytes} {result : HandshakeResult} (shakes : ShakesHands stream)
    (hash : (stream.drop 28).take 20 = infoHash.toList) (same : result.infoHash = infoHash)
    (peer : result.peerId.toList = (stream.drop 48).take 20) (ending : Ending) :
    (answering infoHash ⟨stream, ending⟩).outcome = .ok result := by
  obtain ⟨read, hash', peer', leads⟩ := @read_answer infoHash stream ending shakes
  have sameHash : read.infoHash = infoHash := Vector.toList_inj.mp (hash'.trans hash)
  have samePeer : read.peerId = result.peerId := Vector.toList_inj.mp (peer'.trans peer.symm)
  have equal : result = read := by
    cases read
    cases result
    exact congr (congrArg HandshakeResult.mk samePeer.symm) (same.trans sameHash.symm)
  have checked : check infoHash read = .done read :=
    (check_done_iff infoHash).mpr ⟨sameHash, rfl⟩
  rw [leads.1, checked, equal]
  rfl

theorem answering_otherTorrent {stream : Bytes} (shakes : ShakesHands stream)
    (other : (stream.drop 28).take 20 ≠ infoHash.toList) (ending : Ending) :
    (answering infoHash ⟨stream, ending⟩).outcome = .err .infoHashMismatch := by
  obtain ⟨read, hash', -, leads⟩ := @read_answer infoHash stream ending shakes
  have differs : read.infoHash ≠ infoHash := fun same => other (hash'.symm.trans (congrArg _ same))
  have checked : check infoHash read = .fail .infoHashMismatch :=
    (check_fail_iff infoHash).mpr ⟨differs, rfl⟩
  rw [leads.1, checked]
  rfl

theorem answering_of_answer {reader : Reader} {o : Outcome HandshakeError HandshakeResult}
    (answer : Answer infoHash reader o) : (answering infoHash reader).outcome = o := by
  cases answer with
  | shaken shakes hash same peer ending => exact answering_shaken shakes hash same peer ending
  | otherTorrent shakes other ending => exact answering_otherTorrent shakes other ending
  | otherLength other rest ending =>
    exact answering_fails (readHandshake_otherLength other rest ending)
  | otherProtocol enough other ending =>
    exact answering_fails (readHandshake_otherProtocol enough other ending)
  | nothing ending =>
    apply answering_stops
    rw [readHandshake_eq]
    exact (onReader_short (by simp)).1
  | short few ending =>
    apply answering_stops
    rw [(readHandshake_first _ ending).1]
    exact (onReader_short few).1

/-- What connect gives for each way in which the peer can behave. -/
inductive Connects (now : Nat) (addr : PeerAddr) (ourPeerId infoHash : Vector UInt8 20)
    (numPieces : Nat) : Dialing → Outcome ConnectError (ConnectedPeer W) → Prop where
  | silence : Connects now addr ourPeerId infoHash numPieces .silence (.err .timeout)
  | ioError : Connects now addr ourPeerId infoHash numPieces .ioError (.err .connect)
  | broken {remote : Remote} (short : fits remote.room handshakeSize = false)
      (refusal : remote.refusal = .fails) :
      Connects now addr ourPeerId infoHash numPieces (.connected remote)
        (.err (.handshake .io))
  | blocked {remote : Remote} (short : fits remote.room handshakeSize = false)
      (refusal : remote.refusal = .silent) :
      Connects now addr ourPeerId infoHash numPieces (.connected remote) (.err .timeout)
  | failed {remote : Remote} {error : HandshakeError}
      (sent : fits remote.room handshakeSize = true)
      (answer : Answer infoHash ⟨remote.early, remote.earlyEnding⟩ (.err error)) :
      Connects now addr ourPeerId infoHash numPieces (.connected remote)
        (.err (.handshake error))
  | late {remote : Remote} (sent : fits remote.room handshakeSize = true)
      (answer : Answer infoHash ⟨remote.early, remote.earlyEnding⟩ .pending) :
      Connects now addr ourPeerId infoHash numPieces (.connected remote) (.err .timeout)
  | refused {remote : Remote} {result : HandshakeResult} {error : ClientError}
      (sent : fits remote.room handshakeSize = true)
      (answer : Answer infoHash ⟨remote.early, remote.earlyEnding⟩ (.ok result))
      (phase : Phase numPieces (remote.behind (remote.early.drop handshakeSize)) (.err error)) :
      Connects now addr ourPeerId infoHash numPieces (.connected remote) (.err (.client error))
  | connected {remote : Remote} {result : HandshakeResult} {client : PeerClient} {writer : W}
      (sent : fits remote.room handshakeSize = true)
      (wrote : Returns (put HandshakeError.io (buildHandshake infoHash ourPeerId).toList)
        (WriteHalf.start remote.room remote.refusal) () writer)
      (answer : Answer infoHash ⟨remote.early, remote.earlyEnding⟩ (.ok result))
      (phase : Phase numPieces (remote.behind (remote.early.drop handshakeSize)) (.ok client)) :
      Connects now addr ourPeerId infoHash numPieces (.connected remote) (.ok
        { addr, client, writer, peerId := result.peerId, stats := PeerStats.new now })

theorem stop_cases {ε α : Type} (e : ε) (ending : Ending) :
    (stop e ending : Outcome ε α) = .err e ∨ (stop e ending : Outcome ε α) = .pending := by
  cases ending
  · exact Or.inl rfl
  · exact Or.inr rfl

theorem answer_cases {reader : Reader} {o : Outcome HandshakeError HandshakeResult}
    (answer : Answer infoHash reader o) :
    (∃ result, o = .ok result) ∨ (∃ error, o = .err error) ∨ o = .pending := by
  cases answer with
  | shaken shakes hash same peer ending => exact Or.inl ⟨_, rfl⟩
  | otherTorrent | otherLength | otherProtocol => exact Or.inr (Or.inl ⟨_, rfl⟩)
  | nothing ending | short few ending =>
    exact Or.inr ((stop_cases _ _).imp_left fun stops => ⟨_, stops⟩)

theorem phase_cases {stream : Reader} {o : Outcome ClientError PeerClient}
    (phase : Phase numPieces stream o) : (∃ client, o = .ok client) ∨ ∃ error, o = .err error := by
  cases phase with
  | stopped | silence => exact Or.inl ⟨_, rfl⟩
  | unknown | oversized | closed => exact Or.inr ⟨_, rfl⟩

def greeting (infoHash ourPeerId : Vector UInt8 20) :
    Exec (Connection W) HandshakeError HandshakeResult :=
  onConnection .io (performHandshake infoHash ourPeerId)

theorem handshake_some (infoHash ourPeerId : Vector UInt8 20) :
    (buildHandshake infoHash ourPeerId).toList ≠ [] := by
  rw [handshake_layout]
  exact List.cons_ne_nil _ _

section Greeting
variable {room : Option Nat} {refusal : Ending} {reader : Reader} {writer : W}

theorem handshake_outcome (infoHash ourPeerId : Vector UInt8 20) :
    (put HandshakeError.io (buildHandshake infoHash ourPeerId).toList
      (WriteHalf.start room refusal : W)).outcome =
      if fits room handshakeSize then .ok () else stop .io refusal := by
  have size : (buildHandshake infoHash ourPeerId).toList.length = handshakeSize :=
    Vector.length_toList
  rw [put_outcome (WriteHalf.start_stands room refusal) (handshake_some infoHash ourPeerId),
    List.nil_append, size]

theorem handshake_sent (infoHash ourPeerId : Vector UInt8 20)
    (sent : fits room handshakeSize = true) :
    ∃ writer : W, Returns (put HandshakeError.io (buildHandshake infoHash ourPeerId).toList)
      (WriteHalf.start room refusal) () writer :=
  ⟨_, (handshake_outcome infoHash ourPeerId).trans (if_pos sent), rfl⟩

theorem performed (reader : Reader) (wrote : Returns (put HandshakeError.io
      (buildHandshake infoHash ourPeerId).toList) (WriteHalf.start room refusal) () writer) :
    (greeting (W := W) infoHash ourPeerId ⟨WriteHalf.start room refusal, reader⟩).outcome =
        (answering infoHash reader).outcome ∧
      (greeting (W := W) infoHash ourPeerId ⟨WriteHalf.start room refusal, reader⟩).state =
        ⟨writer, (answering infoHash reader).state⟩ := by
  have idle := (put_returned idle_start (handshake_some infoHash ourPeerId) wrote).2
  have block : Leads (greeting infoHash ourPeerId) ⟨WriteHalf.start room refusal, reader⟩
      (onConnection .io (readHandshake >>= check infoHash)) ⟨writer, reader⟩ :=
    leads_first_block wrote
  have rest : ReadsOnly (onConnection .io (readHandshake >>= check infoHash))
      (answering infoHash) writer reader := silent_onConnection (silent_rest infoHash) idle
  exact ⟨block.1.trans rest.outcome, block.2.trans rest.state⟩

theorem greeting_stops (short : fits room handshakeSize = false) :
    (greeting (W := W) infoHash ourPeerId ⟨WriteHalf.start room refusal, reader⟩).outcome =
      stop .io refusal :=
  first_block_stops ((handshake_outcome infoHash ourPeerId).trans
    (if_neg (Bool.eq_false_iff.mp short)))

end Greeting

theorem connects_exists (now : Nat) (addr : PeerAddr) (ourPeerId infoHash : Vector UInt8 20)
    (numPieces : Nat) (dialing : Dialing) :
    ∃ o : Outcome ConnectError (ConnectedPeer W),
      Connects now addr ourPeerId infoHash numPieces dialing o := by
  cases dialing with
  | silence => exact ⟨_, .silence⟩
  | ioError => exact ⟨_, .ioError⟩
  | connected remote =>
    cases sent : fits remote.room handshakeSize with
    | false =>
      cases refusal : remote.refusal with
      | fails => exact ⟨_, .broken sent refusal⟩
      | silent => exact ⟨_, .blocked sent refusal⟩
    | true =>
      obtain ⟨o, answer⟩ := answer_exists infoHash ⟨remote.early, remote.earlyEnding⟩
      rcases answer_cases answer with ⟨result, rfl⟩ | ⟨error, rfl⟩ | rfl
      · obtain ⟨o, phase⟩ :=
          phase_exists numPieces (remote.behind (remote.early.drop handshakeSize))
        rcases phase_cases phase with ⟨client, rfl⟩ | ⟨error, rfl⟩
        · obtain ⟨writer, wrote⟩ := handshake_sent (W := W) infoHash ourPeerId sent
          exact ⟨_, .connected sent wrote answer phase⟩
        · exact ⟨_, .refused sent answer phase⟩
      · exact ⟨_, .failed sent answer⟩
      · exact ⟨_, .late sent answer⟩

theorem shaken_of_answer {reader : Reader} {result : HandshakeResult}
    (answer : Answer infoHash reader (.ok result)) :
    ShakesHands reader.arrived ∧ (reader.arrived.drop 28).take 20 = infoHash.toList ∧
      result.peerId.toList = (reader.arrived.drop 48).take 20 := by
  generalize value : (Outcome.ok result : Outcome HandshakeError HandshakeResult) = o at answer
  cases answer with
  | shaken shakes hash same peer =>
    cases value
    exact ⟨shakes, hash, peer⟩
  | otherTorrent | otherLength | otherProtocol => cases value
  | nothing ending | short few ending => cases ending <;> cases value

theorem answering_returns {stream : Bytes} {ending : Ending} {result : HandshakeResult}
    (answer : Answer infoHash ⟨stream, ending⟩ (.ok result)) :
    Returns (answering infoHash) ⟨stream, ending⟩ result ⟨stream.drop 68, ending⟩ := by
  refine ⟨answering_of_answer answer, ?_⟩
  obtain ⟨read, -, -, leads⟩ := @read_answer infoHash stream ending (shaken_of_answer answer).1
  rw [leads.2]
  unfold check
  split <;> rfl

theorem greeted {result : HandshakeResult} {writer : W}
    (wrote : Returns (put HandshakeError.io (buildHandshake infoHash ourPeerId).toList)
      (WriteHalf.start remote.room remote.refusal) () writer)
    (answer : Answer infoHash ⟨remote.early, remote.earlyEnding⟩ (.ok result)) :
    Returns (greeting infoHash ourPeerId) remote.start result
      ⟨writer, ⟨remote.early.drop handshakeSize, remote.earlyEnding⟩⟩ := by
  obtain ⟨outcome, state⟩ := performed ⟨remote.early, remote.earlyEnding⟩ wrote
  obtain ⟨value, left⟩ := answering_returns answer
  exact ⟨outcome.trans value, state.trans (by rw [left]; rfl)⟩

section Continuing
variable {result : HandshakeResult} {error : HandshakeError}
  {connection : Connection W}

theorem connect_fails
    (fails : Fails (greeting (W := W) infoHash ourPeerId) remote.start error) :
    (connect (W := W) p now addr ourPeerId infoHash numPieces (.connected remote) ()).outcome =
      .err (.handshake error) := by
  apply ErrorRuns.fails_bind_first
  apply ErrorRuns.fails_within.mpr
  rw [greeting, Fails] at fails
  simp only [Fails, timeout, mapErr, fails, Outcome.mapErr]

theorem connect_late (waits : Waits (greeting infoHash ourPeerId) remote.start connection) :
    (connect (W := W) p now addr ourPeerId infoHash numPieces (.connected remote) ()).outcome =
      .err .timeout := by
  have first : Returns (within remote.start (timeout (mapErr ConnectError.handshake
      (greeting infoHash ourPeerId)))) () (none, connection) () :=
    returns_within.mpr ⟨returns_timeout_none.mpr (waits_mapErr waits), rfl⟩
  exact (leads_bind first).1

theorem connect_goes_on
    (returns : Returns (greeting infoHash ourPeerId) remote.start result connection) :
    (connect p now addr ourPeerId infoHash numPieces (.connected remote) ()).outcome =
      ((PeerConnection.connect p numPieces (remote.behind connection.reader.arrived)
        ()).outcome.map fun client =>
          { addr, client, writer := connection.writer, peerId := result.peerId,
            stats := PeerStats.new now : ConnectedPeer W }).mapErr .client := by
  have first : Returns (within remote.start (timeout (mapErr ConnectError.handshake
      (greeting infoHash ourPeerId)))) () (some result, connection) () :=
    returns_within.mpr ⟨returns_timeout_some.mpr (returns_mapErr.mpr returns), rfl⟩
  refine (leads_bind first).1.trans ?_
  change (Exec.bind (mapErr ConnectError.client (PeerConnection.connect p numPieces _)) _
    ()).outcome = _
  unfold Exec.bind mapErr
  rcases PeerConnection.connect p numPieces (remote.behind connection.reader.arrived) ()
    with ⟨o, _, t⟩
  cases o <;> rfl

end Continuing

theorem connect_of_connects {dialing : Dialing} {o : Outcome ConnectError (ConnectedPeer W)}
    (fits : numPieces + 7 < 2 ^ 64)
    (connects : Connects now addr ourPeerId infoHash numPieces dialing o) :
    (connect p now addr ourPeerId infoHash numPieces dialing ()).outcome = o := by
  cases connects with
  | silence => rfl
  | ioError => rfl
  | broken short refusal =>
    exact connect_fails ((greeting_stops short).trans (by rw [refusal]; rfl))
  | blocked short refusal =>
    exact connect_late ⟨(greeting_stops short).trans (by rw [refusal]; rfl), rfl⟩
  | failed sent answer =>
    obtain ⟨writer, wrote⟩ := handshake_sent (W := W) infoHash ourPeerId sent
    exact connect_fails ((performed _ wrote).1.trans (answering_of_answer answer))
  | late sent answer =>
    obtain ⟨writer, wrote⟩ := handshake_sent (W := W) infoHash ourPeerId sent
    exact connect_late ⟨(performed _ wrote).1.trans (answering_of_answer answer), rfl⟩
  | refused sent answer phase =>
    obtain ⟨writer, wrote⟩ := handshake_sent (W := W) infoHash ourPeerId sent
    rw [connect_goes_on (greeted wrote answer), connect_of_phase fits phase]
    rfl
  | connected sent wrote answer phase =>
    rw [connect_goes_on (greeted wrote answer), connect_of_phase fits phase]
    rfl

theorem connects_of_outcome {dialing : Dialing} {o : Outcome ConnectError (ConnectedPeer W)}
    (fits : numPieces + 7 < 2 ^ 64)
    (outcome : (connect p now addr ourPeerId infoHash numPieces dialing ()).outcome = o) :
    Connects now addr ourPeerId infoHash numPieces dialing o := by
  obtain ⟨o', connects⟩ := connects_exists (W := W) now addr ourPeerId infoHash numPieces dialing
  rw [← outcome, connect_of_connects fits connects]
  exact connects

/-- For any peer, connect gives exactly this. -/
theorem connect_outcomes {W : Type} [WriteHalf W] {numPieces : Nat}
    (fits : numPieces + 7 < 2 ^ 64) (p : Profile) (now : Nat) (addr : PeerAddr)
    (ourPeerId infoHash : Vector UInt8 20) (dialing : Dialing)
    (o : Outcome ConnectError (ConnectedPeer W)) :
    (connect p now addr ourPeerId infoHash numPieces dialing ()).outcome = o ↔
      Connects now addr ourPeerId infoHash numPieces dialing o :=
  ⟨connects_of_outcome fits, connect_of_connects fits⟩

def localAddr : PeerAddr := ⟨.v4 ⟨127, 0, 0, 1⟩, 6881⟩

def ones : Vector UInt8 20 := Vector.replicate 20 1

def twos : Vector UInt8 20 := Vector.replicate 20 2

def answered (later : Option Reader) : Remote :=
  ⟨none, .silent, (buildHandshake ones twos).toList, later⟩

theorem connect_outcomes_closed : 8 + 7 < 2 ^ 64 ∧
    Connects (W := BufferedWriters.Writer) 0 localAddr ones ones 8 (.connected (answered none))
      (.err (.client (.message .io))) :=
  ⟨by decide, (connect_outcomes (by decide) .debug 0 localAddr ones ones _ _).mp
    (by decide +kernel)⟩

/-- What the wait for a bitfield takes off the stream, and what it makes of it. -/
inductive Greeted (numPieces : Nat) : Bytes → Bitfield → Prop where
  | stopped {before : List Frame} {stop : Frame} (skips : ∀ frame ∈ before, skipped frame = true)
      (stops : skipped stop = false) (known : knownFrame stop = true) :
      Greeted numPieces (streamOf before ++ stop.bytes) (ruledBitfield numPieces stop)
  | cut {before : List Frame} {part : Bytes} (skips : ∀ frame ∈ before, skipped frame = true)
      (unfinished : Unfinished part) :
      Greeted numPieces (streamOf before ++ part) (emptyBitfield numPieces)

theorem phase_greeted {stream : Reader} {client : PeerClient}
    (phase : Phase numPieces stream (.ok client)) :
    client.choked = true ∧ ∃ greeting, Greeted numPieces greeting client.bitfield ∧
      stream.arrived = greeting ++ client.stream.arrived := by
  cases phase with
  | stopped skips stops known rest ending =>
    exact ⟨rfl, _, .stopped skips stops known, (List.append_assoc _ _ _).symm⟩
  | silence skips unfinished => exact ⟨rfl, _, .cut skips unfinished, (List.append_nil _).symm⟩

/-- All that has gone over the connection by some moment, in the order of the stream. -/
structure Transcript (ourPeerId infoHash : Vector UInt8 20) (numPieces : Nat) (remote : Remote)
    (events : List PeerEvent) (y : ConnectedPeer W) : Prop where
  handed : WriteHalf.handed y.writer =
    (buildHandshake infoHash ourPeerId).toList ++ bytesOf (events.filterMap PeerEvent.sent)
  idle : Idle y.writer
  received : ∃ (reply greeting : Bytes) (bitfield : Bitfield) (frames : List Frame),
    remote.bytes ++ events.flatMap PeerEvent.bytes =
      reply ++ (greeting ++ (streamOf frames ++ y.client.stream.arrived)) ∧
    reply.length = handshakeSize ∧ ShakesHands reply ∧
    (reply.drop 28).take 20 = infoHash.toList ∧ (reply.drop 48).take 20 = y.peerId.toList ∧
    Greeted numPieces greeting bitfield ∧
    frames.map Frame.result = (events.filterMap PeerEvent.read).map .ok ∧
    ∀ stream, { y.client with stream } =
      handledAll ⟨stream, true, bitfield⟩ (events.filterMap PeerEvent.handled)

theorem shakes_take {stream : Bytes} (shakes : ShakesHands stream) :
    ShakesHands (stream.take handshakeSize) ∧ (stream.take handshakeSize).length = handshakeSize ∧
      ((stream.take handshakeSize).drop 28).take 20 = (stream.drop 28).take 20 ∧
      ((stream.take handshakeSize).drop 48).take 20 = (stream.drop 48).take 20 := by
  obtain ⟨enough, first, known⟩ := shakes
  have size : (stream.take handshakeSize).length = handshakeSize := List.length_take_of_le enough
  have inside {start count : Nat} (within : start + count ≤ handshakeSize) :
      ((stream.take handshakeSize).drop start).take count = (stream.drop start).take count := by
    rw [List.drop_take, List.take_take, Nat.min_eq_left (by omega)]
  refine ⟨⟨size.ge, ?_, (inside (by decide)).trans known⟩, size, inside (by decide),
    inside (by decide)⟩
  rw [List.getElem?_take_of_lt (by decide)]
  exact first

theorem behind_arrived (remote : Remote) (left : Bytes) :
    (remote.behind left).arrived = left ++ match remote.later with
      | some more => more.arrived
      | none => [] := by
  unfold Remote.behind
  cases remote.later with
  | some more => rfl
  | none => exact (List.append_nil _).symm

theorem transcript_start {x : ConnectedPeer W} (fits : numPieces + 7 < 2 ^ 64)
    (connected : Returns (connect p now addr ourPeerId infoHash numPieces (.connected remote)) ()
      x ()) : Transcript ourPeerId infoHash numPieces remote [] x := by
  have connects := connects_of_outcome fits connected.1
  generalize value : (Outcome.ok x : Outcome ConnectError (ConnectedPeer W)) = o at connects
  cases connects with
  | connected sent wrote answer phase =>
    cases value
    obtain ⟨handed, idle⟩ := put_returned idle_start (handshake_some infoHash ourPeerId) wrote
    rw [handed_start, List.nil_append] at handed
    obtain ⟨shakes, hash, peer⟩ := shaken_of_answer answer
    obtain ⟨shakes', size, hash', peer'⟩ := shakes_take shakes
    obtain ⟨choked, greeting, greeted, arrived⟩ := phase_greeted phase
    refine ⟨handed.trans (List.append_nil _).symm, idle, _, greeting, _, [], ?_, size, shakes',
      hash'.trans hash, peer'.trans peer.symm, greeted, rfl, fun stream => ?_⟩
    · rw [behind_arrived] at arrived
      rw [List.flatMap_nil, List.append_nil, streamOf, List.flatMap_nil, List.nil_append, ← arrived,
        ← List.append_assoc, List.take_append_drop]
      rfl
    · rw [← choked]
      rfl
  | _ => cases value

theorem transcript_step {events : List PeerEvent} {event : PeerEvent} {y z : ConnectedPeer W}
    (transcript : Transcript ourPeerId infoHash numPieces remote events y)
    (step : Step p y event z) :
    Transcript ourPeerId infoHash numPieces remote (events ++ [event]) z := by
  have account := step_account step
  obtain ⟨reply, greeting, bitfield, frames, split, size, shakes, hash, peer, greeted, results,
    view⟩ := transcript.received
  obtain ⟨frames', results', split'⟩ := account.stream
  refine ⟨?_, account.idle transcript.idle, reply, greeting, bitfield, frames ++ frames',
    ?_, size, shakes, hash, ?_, greeted, ?_, ?_⟩
  · rw [account.handed transcript.idle, transcript.handed, List.filterMap_append, bytesOf,
      bytesOf, bytesOf, List.flatMap_append, List.append_assoc]
  · rw [List.flatMap_append, ← List.append_assoc, split, streamOf_append]
    simp only [List.append_assoc, split']
  · rw [account.peerId, peer]
  · rw [List.map_append, results, results', List.filterMap_append, List.map_append]
  · intro stream
    rw [account.view, view, List.filterMap_append, handledAll_append]

/-- At any moment behind connect, what the two ends have said is our handshake and messages, and
    the peer's handshake, what the wait for a bitfield took, and the frames of read_message. -/
theorem connection_transcript {W : Type} [WriteHalf W] {numPieces : Nat}
    (fits : numPieces + 7 < 2 ^ 64) {p : Profile} {now : Nat} {addr : PeerAddr}
    {ourPeerId infoHash : Vector UInt8 20} {remote : Remote} {x y : ConnectedPeer W}
    {events : List PeerEvent}
    (connected : Returns (connect p now addr ourPeerId infoHash numPieces (.connected remote)) ()
      x ()) (run : Runs p x events y) :
    Transcript ourPeerId infoHash numPieces remote events y := by
  induction run with
  | start => exact transcript_start fits connected
  | step run step ih => exact transcript_step ih step

def emptyHanded : ConnectedPeer BufferedWriters.Writer where
  addr := localAddr
  client := ⟨⟨[], .silent⟩, true, ⟨[0], 8⟩⟩
  writer := ⟨(buildHandshake ones ones).toList, [], none, .silent⟩
  peerId := twos
  stats := PeerStats.new 0

theorem connection_transcript_interested :
    ∃ y : ConnectedPeer BufferedWriters.Writer, Transcript ones ones 8
      (answered (some ⟨[0, 0, 0, 2, 5, 0], .silent⟩)) [.done 3 .sendInterested none] y ∧
      y.writer.handed.length = 73 := by
  have connected : Returns (connect .debug 0 localAddr ones ones 8
      (.connected (answered (some ⟨[0, 0, 0, 2, 5, 0], .silent⟩)))) () emptyHanded () :=
    ⟨by decide +kernel, rfl⟩
  have run : Runs .debug emptyHanded [.done 3 .sendInterested none] _ :=
    .step .start (.done ⟨by decide +kernel, rfl⟩)
  exact ⟨_, connection_transcript (by decide) connected run, by decide +kernel⟩

end PeerConnect
