import RustyTorrent.Tracker.UdpTracker

/- What a successful exchange with a UDP tracker rests on. The announce phase checks how much
   it received; the connect phase does not, and reads the zeros of its buffer instead. -/
namespace UdpExchange
open RustExec BigEndian TrackerAnnounce UdpTracker

variable {draws : Draws} {facts : AnnounceFacts}

theorem returns_openSocket {net net' : Network} {u : Unit} :
    Returns openSocket net u net' ↔ net.opens = true ∧ net' = net := by
  unfold openSocket
  rw [returns_readState_bind]
  split
  · rename_i opens
    simp [opens, eq_comm]
  · rename_i closed
    simp [closed]

theorem returns_send {datagram : Bytes} {net net' : Network} {u : Unit} :
    Returns (send datagram) net u net' ↔ ∃ later, net.sending = .accepted :: later ∧
      net' = { net with sending := later, sent := net.sent ++ [datagram] } := by
  unfold send
  rw [returns_readState_bind]
  split
  · rename_i later here
    simp [here]
  · rename_i later here
    simp [here]
  · rename_i other _
    simp only [returns_fail, false_iff, not_exists, not_and]
    intro later here
    exact absurd here (other later)

theorem returns_recv {buf out : Bytes} {n : Nat} {net net' : Network} :
    Returns (recv buf) net (n, out) net' ↔ ∃ bytes later,
      net.arriving = .datagram bytes :: later ∧ n = min bytes.length buf.length ∧
        out = bytes.take n ++ buf.drop n ∧ net' = { net with arriving := later } := by
  unfold recv
  rw [returns_readState_bind]
  split
  · rename_i bytes later here
    simp only [returns_writeState_bind, returns_pure, Prod.mk.injEq, here, List.cons.injEq,
      Arrival.datagram.injEq]
    constructor
    · intro both
      obtain ⟨⟨rfl, rfl⟩, rfl⟩ := both
      exact ⟨bytes, later, ⟨rfl, rfl⟩, rfl, rfl, rfl⟩
    · intro parts
      obtain ⟨_, _, ⟨rfl, rfl⟩, rfl, rfl, rfl⟩ := parts
      exact ⟨⟨rfl, rfl⟩, rfl⟩
  · rename_i later here
    simp [here]
  · rename_i other _
    simp only [returns_fail, false_iff, not_exists, not_and]
    intro bytes later here
    exact absurd here (other bytes later)

theorem returns_readBe {width n : Nat} {rest rest' : Bytes} :
    Returns (readBe width) rest n rest' ↔
      width ≤ rest.length ∧ n = ofBe (rest.take width) ∧ rest' = rest.drop width := by
  unfold readBe
  rw [returns_readState_bind]
  split
  · rename_i enough
    rw [returns_writeState_bind, returns_pure]
    constructor
    · intro both
      obtain ⟨rfl, rfl⟩ := both
      exact ⟨enough, rfl, rfl⟩
    · intro parts
      obtain ⟨-, rfl, rfl⟩ := parts
      exact ⟨rfl, rfl⟩
  · rename_i short
    simp [short]

theorem returns_readU32 {start : Nat} {bytes rest : Bytes} {n : UInt32} :
    Returns readU32 (bytes.drop start) n rest ↔ 4 ≤ bytes.length - start ∧
      n = UInt32.ofNat (beField start 4 bytes) ∧ rest = bytes.drop (start + 4) := by
  unfold readU32
  simp only [returns_bind, returns_readBe, returns_pure, List.length_drop, List.drop_drop, beField]
  constructor
  · intro parts
    obtain ⟨_, _, ⟨enough, rfl, rfl⟩, rfl, rfl⟩ := parts
    exact ⟨enough, rfl, rfl⟩
  · intro parts
    obtain ⟨enough, rfl, rfl⟩ := parts
    exact ⟨_, _, ⟨enough, rfl, rfl⟩, rfl, rfl⟩

theorem returns_readU64 {start : Nat} {bytes rest : Bytes} {n : UInt64} :
    Returns readU64 (bytes.drop start) n rest ↔ 8 ≤ bytes.length - start ∧
      n = UInt64.ofNat (beField start 8 bytes) ∧ rest = bytes.drop (start + 8) := by
  unfold readU64
  simp only [returns_bind, returns_readBe, returns_pure, List.length_drop, List.drop_drop, beField]
  constructor
  · intro parts
    obtain ⟨_, _, ⟨enough, rfl, rfl⟩, rfl, rfl⟩ := parts
    exact ⟨enough, rfl, rfl⟩
  · intro parts
    obtain ⟨enough, rfl, rfl⟩ := parts
    exact ⟨_, _, ⟨enough, rfl, rfl⟩, rfl, rfl⟩

theorem reads_reply_header {bytes : Bytes} (enough : 8 ≤ bytes.length) :
    Returns readReplyHeader bytes
      (UInt32.ofNat (beField 0 4 bytes), UInt32.ofNat (beField 4 4 bytes)) (bytes.drop 8) := by
  have first : Returns readU32 bytes _ (bytes.drop 4) :=
    (@returns_readU32 0 bytes _ _).mpr ⟨by omega, rfl, rfl⟩
  have second : Returns readU32 (bytes.drop 4) _ (bytes.drop 8) :=
    returns_readU32.mpr ⟨by omega, rfl, rfl⟩
  unfold readReplyHeader
  rw [returns_bind_step first, returns_bind_step second]
  exact returns_value _ _

theorem reads_connect_header {bytes : Bytes} (enough : 16 ≤ bytes.length) :
    Returns readConnectHeader bytes (UInt32.ofNat (beField 0 4 bytes),
      UInt32.ofNat (beField 4 4 bytes), UInt64.ofNat (beField 8 8 bytes)) (bytes.drop 16) := by
  have first : Returns readU32 bytes _ (bytes.drop 4) :=
    (@returns_readU32 0 bytes _ _).mpr ⟨by omega, rfl, rfl⟩
  have second : Returns readU32 (bytes.drop 4) _ (bytes.drop 8) :=
    returns_readU32.mpr ⟨by omega, rfl, rfl⟩
  have third : Returns readU64 (bytes.drop 8) _ (bytes.drop 16) :=
    returns_readU64.mpr ⟨by omega, rfl, rfl⟩
  unfold readConnectHeader
  rw [returns_bind_step first, returns_bind_step second, returns_bind_step third]
  exact returns_value _ _

theorem reads_counts {bytes : Bytes} (enough : 20 ≤ bytes.length) :
    Returns readCounts (bytes.drop 8) (UInt32.ofNat (beField 8 4 bytes),
      UInt32.ofNat (beField 12 4 bytes), UInt32.ofNat (beField 16 4 bytes)) (bytes.drop 20) := by
  have first : Returns readU32 (bytes.drop 8) _ (bytes.drop 12) :=
    returns_readU32.mpr ⟨by omega, rfl, rfl⟩
  have second : Returns readU32 (bytes.drop 12) _ (bytes.drop 16) :=
    returns_readU32.mpr ⟨by omega, rfl, rfl⟩
  have third : Returns readU32 (bytes.drop 16) _ (bytes.drop 20) :=
    returns_readU32.mpr ⟨by omega, rfl, rfl⟩
  unfold readCounts
  rw [returns_bind_step first, returns_bind_step second, returns_bind_step third]
  exact returns_value _ _

theorem u32_field_toNat (start : Nat) (bytes : Bytes) :
    (UInt32.ofNat (beField start 4 bytes)).toNat = beField start 4 bytes := by
  have bound := beField_lt start 4 bytes
  rw [UInt32.toNat_ofNat', Nat.mod_eq_of_lt (by omega)]

theorem u32_field_eq {start : Nat} {bytes : Bytes} {n : UInt32} :
    UInt32.ofNat (beField start 4 bytes) = n ↔ beField start 4 bytes = n.toNat := by
  rw [← UInt32.toNat_inj, u32_field_toNat]

def announceResult (received : Bytes) : AnnounceResponse :=
  { interval := UInt64.ofNat (beField 8 4 received), peers := announcedPeers (received.drop 20) }

theorem returns_readAnnounceReply {transactionId : UInt32} {received : Bytes}
    (enough : 20 ≤ received.length) {r : AnnounceResponse} {net net' : Network} :
    Returns (readAnnounceReply transactionId received) net r net' ↔
      beField 0 4 received = 1 ∧ beField 4 4 received = transactionId.toNat ∧
        r = announceResult received ∧ net' = net := by
  have header : Returns (within received readReplyHeader) net (_, received.drop 8) net :=
    returns_within.mpr ⟨reads_reply_header (by omega), rfl⟩
  have counts : Returns (within (received.drop 8) readCounts) net (_, received.drop 20) net :=
    returns_within.mpr ⟨reads_counts enough, rfl⟩
  have all : (received.take received.length).drop 20 = received.drop 20 := by
    rw [List.take_of_length_le (Nat.le_refl _)]
  unfold readAnnounceReply
  rw [returns_bind_step header]
  simp only [ne_eq, u32_field_eq]
  split_ifs with error announced matched
  · rw [returns_slice_bind]
    simp only [returns_fail, and_false, false_iff]
    intro both
    obtain ⟨one, -⟩ := both
    rw [one] at error
    cases error
  · rw [returns_bind_step counts]
    dsimp only
    rw [returns_slice_bind, returns_pure, all, u32_field_toNat]
    constructor
    · intro parts
      obtain ⟨-, rfl, rfl⟩ := parts
      exact ⟨announced, matched, rfl, rfl⟩
    · intro parts
      obtain ⟨-, -, rfl, rfl⟩ := parts
      exact ⟨⟨enough, Nat.le_refl _⟩, rfl, rfl⟩
  · simp only [returns_fail, false_iff]
    intro parts
    obtain ⟨-, same, -⟩ := parts
    exact matched same
  · simp only [returns_fail, false_iff]
    intro both
    obtain ⟨one, -⟩ := both
    exact announced one

theorem received_cut (bytes buf : Bytes) :
    (bytes.take (min bytes.length buf.length) ++ buf.drop (min bytes.length buf.length)).take
      (min bytes.length buf.length) = bytes.take buf.length := by
  rw [List.take_left' (by simp), Nat.min_comm, ← List.take_eq_take_min]

def AnnounceAccepted (reply : Bytes) (transactionId : UInt32) : Prop :=
  20 ≤ reply.length ∧ beField 0 4 reply = 1 ∧ beField 4 4 reply = transactionId.toNat

instance (reply : Bytes) (transactionId : UInt32) :
    Decidable (AnnounceAccepted reply transactionId) :=
  inferInstanceAs (Decidable (_ ∧ _))

theorem leads_announcePhase {connectionId : UInt64} {net : Network} {reply : Bytes}
    {sending : List Sending} {arriving : List Arrival}
    (accepted : net.sending = .accepted :: sending)
    (came : net.arriving = .datagram reply :: arriving) :
    Leads (announcePhase draws facts connectionId) net
      (if (reply.take 3020).length < 20 then
        fail (.invalidResponse "Announce response too short")
      else readAnnounceReply draws.announceTransactionId (reply.take 3020))
      { net with
        sending, arriving,
        sent := net.sent ++
          [announceRequest connectionId draws.announceTransactionId draws.key facts] } := by
  have size : (List.replicate (20 + 6 * 500) (0 : UInt8)).length = 3020 := List.length_replicate
  have sent := (@returns_send
    (announceRequest connectionId draws.announceTransactionId draws.key facts) net _ ()).mpr
      ⟨sending, accepted, rfl⟩
  have got := (@returns_recv (List.replicate (20 + 6 * 500) 0) _ _
    { net with
      sending
      sent := net.sent ++
        [announceRequest connectionId draws.announceTransactionId draws.key facts] } _).mpr
      ⟨reply, arriving, came, rfl, rfl, rfl⟩
  have rest := leads_bind (f := fun got =>
    if got.1 < 20 then fail (.invalidResponse "Announce response too short")
    else readAnnounceReply draws.announceTransactionId (got.2.take got.1)) got
  dsimp only at rest
  rw [received_cut, size, Nat.min_comm, ← List.length_take] at rest
  exact leads_trans (leads_bind sent) rest

theorem returns_announcePhase {connectionId : UInt64} {net net' : Network}
    {r : AnnounceResponse} :
    Returns (announcePhase draws facts connectionId) net r net' ↔
      ∃ reply sending arriving, net.sending = .accepted :: sending ∧
        net.arriving = .datagram reply :: arriving ∧
        AnnounceAccepted reply draws.announceTransactionId ∧
        r = announceResult (reply.take 3020) ∧
        net' = { net with
          sending, arriving,
          sent := net.sent ++
            [announceRequest connectionId draws.announceTransactionId draws.key facts] } := by
  constructor
  · intro run
    have steps := run
    unfold announcePhase at steps
    simp only [returns_bind, Prod.exists, returns_send, returns_recv] at steps
    obtain ⟨_, _, ⟨sending, accepted, rfl⟩, _, _, _, ⟨reply, arriving, came, -⟩, -⟩ := steps
    rw [returns_of_leads (leads_announcePhase accepted came)] at run
    split_ifs at run with short
    · exact absurd run returns_fail
    · have enough := Nat.le_of_not_lt short
      obtain ⟨action, txid, result, state⟩ := (returns_readAnnounceReply enough).mp run
      rw [beField_take (by decide)] at action txid
      rw [List.length_take] at enough
      exact ⟨reply, sending, arriving, accepted, came, ⟨by omega, action, txid⟩, result, state⟩
  · intro parts
    obtain ⟨reply, sending, arriving, accepted, came, ⟨long, action, txid⟩, rfl, rfl⟩ := parts
    have enough : 20 ≤ (reply.take 3020).length := by
      rw [List.length_take]
      omega
    rw [returns_of_leads (leads_announcePhase accepted came), if_neg (Nat.not_lt.mpr enough),
      returns_readAnnounceReply enough, beField_take (by decide), beField_take (by decide)]
    exact ⟨action, txid, rfl, rfl⟩

/-- From one state of the network to the other, a beginning of these datagrams was sent. -/
def Sends (before : Network) (datagrams : List Bytes) (after : Network) : Prop :=
  ∃ sent, after.sent = before.sent ++ sent ∧ sent <+: datagrams

theorem sends_nothing {before after : Network} (datagrams : List Bytes)
    (same : after.sent = before.sent) : Sends before datagrams after :=
  ⟨[], by rw [same, List.append_nil], List.nil_prefix⟩

theorem sends_behind {before middle after : Network} {datagram : Bytes} {later : List Bytes}
    (first : middle.sent = before.sent ++ [datagram]) (rest : Sends middle later after) :
    Sends before (datagram :: later) after := by
  obtain ⟨sent, state, start⟩ := rest
  exact ⟨datagram :: sent, by simp [state, first], List.cons_prefix_cons.mpr ⟨rfl, start⟩⟩

theorem openSocket_state (net : Network) : (openSocket net).state = net := by
  unfold openSocket
  apply state_bind (Q := (· = net)) rfl
  intro now last read
  obtain ⟨rfl, rfl⟩ := returns_readState.mp read
  split <;> rfl

theorem sent_by_send (datagram : Bytes) (later : List Bytes) (net : Network) :
    Sends net (datagram :: later) (send datagram net).state := by
  obtain ⟨opens, sending, arriving, earlier⟩ := net
  rcases sending with _ | ⟨accepted | ioError | silence, others⟩
  · exact sends_nothing _ rfl
  · exact sends_behind rfl (sends_nothing later rfl)
  · exact sends_nothing _ rfl
  · exact sends_nothing _ rfl

theorem sent_by_recv (buf : Bytes) (net : Network) : (recv buf net).state.sent = net.sent := by
  obtain ⟨opens, sending, arriving, earlier⟩ := net
  rcases arriving with _ | ⟨datagram | ioError | silence, later⟩ <;> rfl

theorem readAnnounceReply_state (transactionId : UInt32) (received : Bytes) (net : Network) :
    (readAnnounceReply transactionId received net).state = net := by
  unfold readAnnounceReply
  apply state_bind (Q := (· = net)) rfl
  intro header net' read
  obtain rfl : net' = net := (returns_within.mp read).2
  dsimp only
  split_ifs
  · exact state_bind (Q := (· = net')) rfl fun text last cut => (returns_slice.mp cut).2.2
  · rfl
  · rfl
  · apply state_bind (Q := (· = net')) rfl
    intro counts last read
    obtain rfl : last = net' := (returns_within.mp read).2
    exact state_bind (Q := (· = last)) rfl fun peers last cut => (returns_slice.mp cut).2.2

theorem sent_by_announcePhase (connectionId : UInt64) (net : Network) :
    Sends net [announceRequest connectionId draws.announceTransactionId draws.key facts]
      (announcePhase draws facts connectionId net).state := by
  apply state_bind (Q := Sends net _) (sent_by_send _ [] net)
  intro _ net' sending
  obtain ⟨later, -, sent⟩ := returns_send.mp sending
  apply sends_behind (congrArg Network.sent sent)
  apply state_bind (Q := Sends net' []) (sends_nothing _ (sent_by_recv _ _))
  intro received net' got
  have kept := congrArg Network.sent got.2
  rw [sent_by_recv] at kept
  dsimp only
  split
  · exact sends_nothing _ kept.symm
  · rw [readAnnounceReply_state]
    exact sends_nothing _ kept.symm

def connectBuffer (reply : Bytes) : Bytes := reply.take 16 ++ List.replicate (16 - reply.length) 0

theorem connectBuffer_length (reply : Bytes) : (connectBuffer reply).length = 16 := by
  simp only [connectBuffer, List.length_append, List.length_take, List.length_replicate]
  omega

theorem connectBuffer_eq (reply : Bytes) :
    reply.take (min reply.length (List.replicate 16 (0 : UInt8)).length) ++
      (List.replicate 16 (0 : UInt8)).drop (min reply.length (List.replicate 16 (0 : UInt8)).length)
        = connectBuffer reply := by
  rw [List.length_replicate, List.drop_replicate, connectBuffer, Nat.min_comm,
    ← List.take_eq_take_min]
  congr 2
  omega

def ShowsConnect (buf : Bytes) (transactionId : UInt32) : Prop :=
  beField 0 4 buf = 0 ∧ beField 4 4 buf = transactionId.toNat

instance (buf : Bytes) (transactionId : UInt32) : Decidable (ShowsConnect buf transactionId) :=
  inferInstanceAs (Decidable (_ ∧ _))

def connectionIdOf (reply : Bytes) : UInt64 := UInt64.ofNat (beField 8 8 (connectBuffer reply))

theorem leads_connect {net : Network} {first : Bytes} {sending : List Sending}
    {arriving : List Arrival} (opens : net.opens = true)
    (accepted : net.sending = .accepted :: sending)
    (came : net.arriving = .datagram first :: arriving) :
    Leads (connectAndAnnounce draws facts) net
      (if UInt32.ofNat (beField 0 4 (connectBuffer first)) ≠ 0 then fail .connectionFailed
      else if UInt32.ofNat (beField 4 4 (connectBuffer first)) ≠ draws.connectTransactionId then
        fail (.invalidResponse "Connect transaction ID mismatch")
      else announcePhase draws facts (connectionIdOf first))
      { net with
        sending, arriving,
        sent := net.sent ++ [connectRequest draws.connectTransactionId] } := by
  have opened := (@returns_openSocket net net ()).mpr ⟨opens, rfl⟩
  have sent := (@returns_send (connectRequest draws.connectTransactionId) net _ ()).mpr
    ⟨sending, accepted, rfl⟩
  have got := (@returns_recv (List.replicate 16 0) _ _
    { net with
      sending
      sent := net.sent ++ [connectRequest draws.connectTransactionId] } _).mpr
      ⟨first, arriving, came, rfl, rfl, rfl⟩
  rw [connectBuffer_eq] at got
  have header := @reads_connect_header (connectBuffer first) (by rw [connectBuffer_length])
  exact leads_trans (leads_bind opened) (leads_trans (leads_bind sent) (leads_trans (leads_bind got)
    (leads_bind (returns_within.mpr ⟨header, rfl⟩))))

theorem sent_by_exchange (draws : Draws) (facts : AnnounceFacts) (net : Network) :
    ∃ connectionId, Sends net [connectRequest draws.connectTransactionId,
        announceRequest connectionId draws.announceTransactionId draws.key facts]
      (connectAndAnnounce draws facts net).state := by
  let Sent (last : Network) : Prop := ∃ connectionId, Sends net
    [connectRequest draws.connectTransactionId,
      announceRequest connectionId draws.announceTransactionId draws.key facts] last
  have connected {last : Network} (same : last.sent =
      net.sent ++ [connectRequest draws.connectTransactionId]) : Sent last :=
    ⟨0, sends_behind same (sends_nothing _ rfl)⟩
  unfold connectAndAnnounce
  apply state_bind (Q := Sent)
    ⟨0, sends_nothing _ (congrArg Network.sent (openSocket_state net))⟩
  intro _ opened opening
  obtain ⟨-, rfl⟩ := returns_openSocket.mp opening
  apply state_bind (Q := Sent) ⟨0, sent_by_send _ _ opened⟩
  intro _ asked sending
  obtain ⟨later, -, sent⟩ := returns_send.mp sending
  have sent := congrArg Network.sent sent
  apply state_bind (Q := Sent) (connected ((sent_by_recv _ _).trans sent))
  intro received replied got
  have kept := (congrArg Network.sent got.2).symm.trans ((sent_by_recv _ _).trans sent)
  apply state_bind (Q := Sent) (connected kept)
  intro header last read
  obtain rfl : last = replied := (returns_within.mp read).2
  dsimp only
  split_ifs
  · exact connected kept
  · exact connected kept
  · exact ⟨_, sends_behind kept (sent_by_announcePhase _ _)⟩

theorem returns_connectAndAnnounce {net net' : Network} {r : AnnounceResponse} :
    Returns (connectAndAnnounce draws facts) net r net' ↔
      ∃ first second sending arriving, net.opens = true ∧
        net.sending = .accepted :: .accepted :: sending ∧
        net.arriving = .datagram first :: .datagram second :: arriving ∧
        ShowsConnect (connectBuffer first) draws.connectTransactionId ∧
        AnnounceAccepted second draws.announceTransactionId ∧
        r = announceResult (second.take 3020) ∧
        net' = { net with
          sending, arriving,
          sent := net.sent ++ [connectRequest draws.connectTransactionId,
            announceRequest (connectionIdOf first) draws.announceTransactionId draws.key
              facts] } := by
  constructor
  · intro run
    have steps := run
    unfold connectAndAnnounce at steps
    simp only [returns_bind, Prod.exists, returns_openSocket, returns_send, returns_recv] at steps
    obtain ⟨_, _, ⟨opens, rfl⟩, _, _, ⟨sending, accepted, rfl⟩, _, _, _,
      ⟨first, arriving, came, -⟩, -⟩ := steps
    rw [returns_of_leads (leads_connect opens accepted came)] at run
    simp only [ne_eq, u32_field_eq] at run
    split_ifs at run with connect matched
    · obtain ⟨second, sending', arriving', accepted', came', announced, result, state⟩ :=
        returns_announcePhase.mp run
      refine ⟨first, second, sending', arriving', opens, ?_, ?_, ⟨connect, matched⟩, announced,
        result, ?_⟩
      · rw [accepted, ← accepted']
      · rw [came, ← came']
      · rw [state]
        simp
    · exact absurd run returns_fail
    · exact absurd run returns_fail
  · rintro ⟨first, second, sending, arriving, opens, accepted, came, ⟨connect, matched⟩, announced,
      rfl, rfl⟩
    rw [returns_of_leads (leads_connect opens accepted came),
      if_neg (not_not.mpr (u32_field_eq.mpr connect)),
      if_neg (not_not.mpr (u32_field_eq.mpr matched))]
    apply returns_announcePhase.mpr
    exact ⟨second, sending, arriving, rfl, rfl, announced, rfl, by simp⟩

def freshNetwork (first second : Bytes) : Network :=
  { opens := true, sending := [.accepted, .accepted],
    arriving := [.datagram first, .datagram second], sent := [] }

/-- A result rests on complete and matching replies, and on bytes that were received. -/
structure Trusted (draws : Draws) (first second : Bytes) (r : AnnounceResponse)
    (net : Network) : Prop where
  connectComplete : 16 ≤ first.length
  connectAction : beField 0 4 first = 0
  connectId : beField 4 4 first = draws.connectTransactionId.toNat
  connectionEchoed : ∃ request, net.sent = [connectRequest draws.connectTransactionId, request] ∧
    request.take 8 = (first.drop 8).take 8
  announceComplete : 20 ≤ second.length
  announceAction : beField 0 4 second = 1
  announceId : beField 4 4 second = draws.announceTransactionId.toNat
  interval : r.interval.toNat = beField 8 4 second
  peers : r.peers = announcedPeers ((second.take 3020).drop 20)

theorem connectBuffer_of_complete {reply : Bytes} (complete : 16 ≤ reply.length) :
    connectBuffer reply = reply.take 16 := by
  have none : 16 - reply.length = 0 := by omega
  rw [connectBuffer, none, List.replicate_zero, List.append_nil]

theorem connection_id_echoed {reply : Bytes} (complete : 16 ≤ reply.length)
    (transactionId key : UInt32) :
    (announceRequest (connectionIdOf reply) transactionId key facts).take 8 =
      (reply.drop 8).take 8 := by
  have bound := beField_lt 8 8 reply
  have id : (connectionIdOf reply).toNat = ofBe ((reply.drop 8).take 8) := by
    rw [connectionIdOf, connectBuffer_of_complete complete, beField_take (by decide),
      UInt64.toNat_ofNat', Nat.mod_eq_of_lt (by omega), beField]
  have eight : ((reply.drop 8).take 8).length = 8 := by
    simp only [List.length_take, List.length_drop]
    omega
  have back := toBe_ofBe ((reply.drop 8).take 8)
  rw [eight] at back
  simp only [announceRequest, List.append_assoc]
  rw [List.take_left' (toBe_length 8 _), id, back]

theorem announceResult_interval (received : Bytes) :
    (announceResult received).interval.toNat = beField 8 4 received := by
  have bound := beField_lt 8 4 received
  rw [announceResult, UInt64.toNat_ofNat', Nat.mod_eq_of_lt (by omega)]

/-- Every success is to be trusted, unless a short first reply passes for a connect reply by
    the zeros of the buffer and the second reply is accepted. -/
theorem exchange_trusted_iff (draws : Draws) (facts : AnnounceFacts) (first second : Bytes) :
    (∀ r net, Returns (connectAndAnnounce draws facts) (freshNetwork first second) r net →
      Trusted draws first second r net) ↔
      16 ≤ first.length ∨ ¬ ShowsConnect (connectBuffer first) draws.connectTransactionId ∨
        ¬ AnnounceAccepted second draws.announceTransactionId := by
  constructor
  · intro trusted
    by_contra fails
    simp only [not_or, not_not] at fails
    obtain ⟨short, shows, announced⟩ := fails
    have run := (@returns_connectAndAnnounce draws facts (freshNetwork first second) _ _).mpr
      ⟨first, second, [], [], rfl, rfl, rfl, shows, announced, rfl, rfl⟩
    exact short (trusted _ _ run).connectComplete
  · intro condition r net run
    obtain ⟨first', second', sending, arriving, -, -, came, ⟨connect, matched⟩,
      ⟨long, action, txid⟩, rfl, rfl⟩ := returns_connectAndAnnounce.mp run
    simp only [freshNetwork, List.cons.injEq, Arrival.datagram.injEq] at came
    obtain ⟨rfl, rfl, rfl⟩ := came
    have complete : 16 ≤ first.length := by
      rcases condition with complete | wrong | refused
      · exact complete
      · exact absurd ⟨connect, matched⟩ wrong
      · exact absurd ⟨long, action, txid⟩ refused
    rw [connectBuffer_of_complete complete, beField_take (by decide)] at connect matched
    exact {
      connectComplete := complete
      connectAction := connect
      connectId := matched
      connectionEchoed := ⟨_, rfl, connection_id_echoed complete _ _⟩
      announceComplete := long
      announceAction := action
      announceId := txid
      interval := by rw [announceResult_interval, beField_take (by decide)]
      peers := rfl }

/-- The first reply stops after the transaction id: eight bytes in place of sixteen. -/
theorem short_connect_reply_accepted :
    let draws : Draws := ⟨7, 9, 0⟩
    let facts : AnnounceFacts := ⟨.replicate 20 1, .replicate 20 2, 6881, 0, 0, 100⟩
    let first : Bytes := [0, 0, 0, 0, 0, 0, 0, 7]
    let second : Bytes := [0, 0, 0, 1, 0, 0, 0, 9, 0, 0, 7, 8, 0, 0, 0, 0, 0, 0, 0, 0]
    ∃ net, Returns (connectAndAnnounce draws facts) (freshNetwork first second)
        { interval := 1800, peers := [] } net ∧
      ¬ Trusted draws first second { interval := 1800, peers := [] } net := by
  refine ⟨_, ⟨by decide +kernel, rfl⟩, ?_⟩
  intro trusted
  exact absurd trusted.connectComplete (by decide)

end UdpExchange
