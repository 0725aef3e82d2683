import RustyTorrent.Tracker.UdpExchange

/- Errors that a UDP tracker reports. The client measures the reply before it reads the action,
   and reads the action before it looks at the transaction id. -/
namespace UdpErrors
open RustExec BigEndian Utf8Text TrackerAnnounce UdpTracker UdpExchange

variable {draws : Draws} {facts : AnnounceFacts} {net : Network} {received : Bytes}

/-- The client gets to its announce, and a reply comes of which the buffer holds this much. -/
structure Replied (draws : Draws) (net : Network) (received : Bytes) : Prop where
  opens : net.opens = true
  sends : ∃ later, net.sending = .accepted :: .accepted :: later
  arrives : ∃ first reply later, net.arriving = .datagram first :: .datagram reply :: later ∧
    ShowsConnect (connectBuffer first) draws.connectTransactionId ∧ received = reply.take 3020

theorem leads_exchange (facts : AnnounceFacts) (replied : Replied draws net received) :
    ∃ net', Leads (connectAndAnnounce draws facts) net
      (if received.length < 20 then fail (.invalidResponse "Announce response too short")
      else readAnnounceReply draws.announceTransactionId received) net' := by
  obtain ⟨opens, ⟨sending, accepted⟩, first, reply, arriving, came, ⟨connect, matched⟩, rfl⟩ :=
    replied
  have connected := @leads_connect draws facts _ _ _ _ opens accepted came
  rw [if_neg (not_not.mpr (u32_field_eq.mpr connect)),
    if_neg (not_not.mpr (u32_field_eq.mpr matched))] at connected
  exact ⟨_, leads_trans connected (leads_announcePhase rfl rfl)⟩

theorem fails_readAnnounceReply {transactionId : UInt32} (enough : 20 ≤ received.length)
    {msg : String} :
    Fails (readAnnounceReply transactionId received) net (.trackerError msg) ↔
      beField 0 4 received = 3 ∧ msg = fromUtf8Lossy (received.drop 8) := by
  have header : Returns (within received readReplyHeader) net (_, received.drop 8) net :=
    returns_within.mpr ⟨reads_reply_header (by omega), rfl⟩
  have counts : Returns (within (received.drop 8) readCounts) net (_, received.drop 20) net :=
    returns_within.mpr ⟨reads_counts enough, rfl⟩
  unfold readAnnounceReply
  rw [Fails, (leads_bind header).1]
  dsimp only
  simp only [ne_eq, u32_field_eq]
  split_ifs with error announced matched
  · have text : Returns (slice received 8 received.length : Exec Network UdpTrackerError Bytes)
        net (received.drop 8) net :=
      returns_slice.mpr ⟨⟨by omega, Nat.le_refl _⟩, by rw [List.take_length], rfl⟩
    rw [(leads_bind text).1]
    constructor
    · intro failed
      cases failed
      exact ⟨error, rfl⟩
    · intro both
      obtain ⟨-, rfl⟩ := both
      rfl
  · have peers : Returns (slice received 20 received.length : Exec Network UdpTrackerError Bytes)
        net (received.drop 20) net :=
      returns_slice.mpr ⟨⟨enough, Nat.le_refl _⟩, by rw [List.take_length], rfl⟩
    rw [(leads_bind counts).1]
    dsimp only
    rw [(leads_bind peers).1]
    refine iff_of_false ?_ fun told => error told.1
    intro failed
    cases failed
  · refine iff_of_false ?_ fun told => error told.1
    intro failed
    cases failed
  · refine iff_of_false ?_ fun told => error told.1
    intro failed
    cases failed

theorem reports_iff (replied : Replied draws net received) {msg : String} :
    Fails (connectAndAnnounce draws facts) net (.trackerError msg) ↔
      20 ≤ received.length ∧ beField 0 4 received = 3 ∧
        msg = fromUtf8Lossy (received.drop 8) := by
  obtain ⟨net', leads⟩ := leads_exchange facts replied
  rw [Fails, leads.1]
  split_ifs with short
  · refine iff_of_false ?_ fun told => absurd told.1 (by omega)
    intro failed
    cases failed
  · have enough : 20 ≤ received.length := Nat.le_of_not_lt short
    exact (fails_readAnnounceReply enough).trans (by simp [enough])

theorem accepted_of_returns (replied : Replied draws net received) {r : AnnounceResponse}
    {net' : Network} (run : Returns (connectAndAnnounce draws facts) net r net') :
    beField 4 4 received = draws.announceTransactionId.toNat := by
  obtain ⟨-, -, first, reply, later, came, -, rfl⟩ := replied
  obtain ⟨first', second, sending, arriving, -, -, came', -, ⟨-, -, matched⟩, -, -⟩ :=
    returns_connectAndAnnounce.mp run
  rw [came] at came'
  cases came'
  rw [beField_take (by decide)]
  exact matched

/-- The errors that are reported are the tracker's, and all of them are. -/
structure ErrorsFaithful (draws : Draws) (facts : AnnounceFacts) (net : Network)
    (received : Bytes) : Prop where
  reported : ∀ msg, Fails (connectAndAnnounce draws facts) net (.trackerError msg) ↔
    8 ≤ received.length ∧ beField 0 4 received = 3 ∧
      beField 4 4 received = draws.announceTransactionId.toNat ∧
      msg = fromUtf8Lossy (received.drop 8)
  foreign : beField 4 4 received ≠ draws.announceTransactionId.toNat →
    (∀ msg, ¬ Fails (connectAndAnnounce draws facts) net (.trackerError msg)) ∧
      ∀ r net', ¬ Returns (connectAndAnnounce draws facts) net r net'

def ShortError (transactionId : UInt32) (received : Bytes) : Prop :=
  8 ≤ received.length ∧ received.length < 20 ∧ beField 0 4 received = 3 ∧
    beField 4 4 received = transactionId.toNat

def ForeignError (transactionId : UInt32) (received : Bytes) : Prop :=
  20 ≤ received.length ∧ beField 0 4 received = 3 ∧
    beField 4 4 received ≠ transactionId.toNat

theorem errors_faithful_iff (draws : Draws) (facts : AnnounceFacts) {net : Network}
    {received : Bytes} (replied : Replied draws net received) :
    ErrorsFaithful draws facts net received ↔
      ¬ ShortError draws.announceTransactionId received ∧
        ¬ ForeignError draws.announceTransactionId received := by
  constructor
  · intro faithful
    constructor
    · intro parts
      obtain ⟨eight, short, error, matched⟩ := parts
      have told := (faithful.reported _).mpr ⟨eight, error, matched, rfl⟩
      have long := ((reports_iff replied).mp told).1
      omega
    · intro parts
      obtain ⟨long, error, other⟩ := parts
      exact (faithful.foreign other).1 _ ((reports_iff replied).mpr ⟨long, error, rfl⟩)
  · intro both
    obtain ⟨notShort, notForeign⟩ := both
    have reported : ∀ msg, Fails (connectAndAnnounce draws facts) net (.trackerError msg) ↔
        8 ≤ received.length ∧ beField 0 4 received = 3 ∧
          beField 4 4 received = draws.announceTransactionId.toNat ∧
          msg = fromUtf8Lossy (received.drop 8) := by
      intro msg
      rw [reports_iff replied]
      constructor
      · intro parts
        obtain ⟨long, error, text⟩ := parts
        have matched := by_contra fun other => notForeign ⟨long, error, other⟩
        exact ⟨by omega, error, matched, text⟩
      · intro parts
        obtain ⟨eight, error, matched, text⟩ := parts
        have long := by_contra fun short =>
          notShort ⟨eight, Nat.lt_of_not_le short, error, matched⟩
        exact ⟨long, error, text⟩
    refine ⟨reported, fun other => ⟨?_, ?_⟩⟩
    · intro msg told
      exact other ((reported msg).mp told).2.2.1
    · intro r net' run
      exact other (accepted_of_returns replied run)

def answered (reply : Bytes) : Network :=
  freshNetwork [0, 0, 0, 0, 0, 0, 0, 7, 1, 2, 3, 4, 5, 6, 7, 8] reply

theorem answered_replied (reply : Bytes) (txid key : UInt32) :
    Replied ⟨7, txid, key⟩ (answered reply) (reply.take 3020) := by
  have shows : ShowsConnect (connectBuffer [0, 0, 0, 0, 0, 0, 0, 7, 1, 2, 3, 4, 5, 6, 7, 8]) 7 := by
    decide
  exact { opens := rfl, sends := ⟨[], rfl⟩, arrives := ⟨_, reply, [], rfl, shows, rfl⟩ }

theorem errors_faithful_iff_banned :
    let draws : Draws := ⟨7, 9, 0⟩
    let facts : AnnounceFacts := ⟨.replicate 20 1, .replicate 20 2, 6881, 0, 0, 100⟩
    let reply : Bytes := [0, 0, 0, 3, 0, 0, 0, 9, 0x54, 0x6f, 0x72, 0x72, 0x65, 0x6e, 0x74, 0x20,
      0x62, 0x61, 0x6e, 0x6e, 0x65, 0x64]
    ErrorsFaithful draws facts (answered reply) reply := by
  intro draws facts reply
  refine (errors_faithful_iff draws facts (answered_replied reply 9 0)).mpr ⟨?_, ?_⟩
  · intro parts
    obtain ⟨-, short, -⟩ := parts
    exact absurd short (by decide)
  · intro parts
    obtain ⟨-, -, other⟩ := parts
    exact other (by decide)

/-- An error for another request is taken for this one's; a short error is not reported. -/
theorem foreign_and_short_errors :
    let draws : Draws := ⟨7, 9, 0⟩
    let facts : AnnounceFacts := ⟨.replicate 20 1, .replicate 20 2, 6881, 0, 0, 100⟩
    let foreign : Bytes := [0, 0, 0, 3, 0, 0, 0, 8] ++ List.replicate 12 0x61
    let short : Bytes := [0, 0, 0, 3, 0, 0, 0, 9, 0x62, 0x61, 0x64]
    Fails (connectAndAnnounce draws facts) (answered foreign) (.trackerError "aaaaaaaaaaaa") ∧
      ¬ ErrorsFaithful draws facts (answered foreign) foreign ∧
      Fails (connectAndAnnounce draws facts) (answered short)
        (.invalidResponse "Announce response too short") ∧
      ¬ ErrorsFaithful draws facts (answered short) short := by
  intro draws facts foreign short
  refine ⟨?_, ?_, ?_, ?_⟩
  · unfold Fails
    decide +kernel
  · intro faithful
    have told := ((faithful.reported "aaaaaaaaaaaa").mp (by unfold Fails; decide +kernel)).2.2.1
    exact absurd told (by decide)
  · unfold Fails
    decide +kernel
  · intro faithful
    have told := (faithful.reported "bad").mpr ⟨by decide, by decide, by decide, by decide +kernel⟩
    have other : Fails (connectAndAnnounce draws facts) (answered short)
        (.invalidResponse "Announce response too short") := by
      unfold Fails
      decide +kernel
    rw [Fails, told] at other
    cases other

end UdpErrors
