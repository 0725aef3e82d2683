import RustyTorrent.Bencode.CanonicalEncoding
import RustyTorrent.Tracker.AnnounceReports
import RustyTorrent.Tracker.PeerListCodec
import RustyTorrent.Tracker.UdpExchange

/- The announce of src/tracker/http.rs as a whole, and one answer of a tracker over HTTP and over
   UDP. The request itself is a parameter: it gives the body or the text of an error. -/
namespace HttpAnnounce
open RustExec BigEndian OrderedMaps Utf8Text ExactChunks BencodeValue BencodeDecoder
  CanonicalEncoding TrackerAnnounce HttpTracker UdpTracker UdpExchange CompactPeers PeerListCodec
  AnnounceReports

/-- `tracker` is an error of build_announce_url or unmarshal_peers. -/
inductive AnnounceError where
  | tracker (error : TrackerError)
  | http (text : String)
  | decode (error : DecodeError)
  | trackerFailure (msg : String)
  | missingField (field : String)
  deriving DecidableEq, Repr

def intervalOf (value : Value) : UInt64 :=
  (((value.getStr "interval").bind Value.asInteger).getD 900).toUInt64

/-- The end of announce, once the body is decoded. -/
def readResponse (value : Value) : Except AnnounceError AnnounceResponse :=
  match value.getStr "failure reason" with
  | some failure => .error (.trackerFailure (failure.asStr.getD "unknown error"))
  | none =>
      match (value.getStr "peers").bind Value.asBytes with
      | none => .error (.missingField "peers")
      | some peersRaw =>
          match unmarshalPeers peersRaw with
          | .error error => .error (.tracker error)
          | .ok peers => .ok { interval := intervalOf value, peers }

def announce (p : Profile) (pkg : UrlPackage) (request : String → Except String ByteSeq)
    (announceUrl : String) (facts : AnnounceFacts) :
    Exec Unit AnnounceError AnnounceResponse := do
  let url ← ofExcept ((buildAnnounceUrl pkg announceUrl facts).mapError .tracker)
  let body ← ofExcept ((request url).mapError .http)
  let value ← mapErr .decode (decode p body)
  ofExcept (readResponse value)

theorem readResponse_ok {value : Value} {r : AnnounceResponse} :
    readResponse value = .ok r ↔ value.getStr "failure reason" = none ∧
      ∃ peers, value.getStr "peers" = some (.bytes (compactPeers peers)) ∧
        r = { interval := intervalOf value, peers := peers.map asPeerAddr } := by
  unfold readResponse
  cases value.getStr "failure reason" with
  | some failure => simp
  | none =>
    cases raw : (value.getStr "peers").bind Value.asBytes with
    | none =>
      simp only [true_and, reduceCtorEq, false_iff]
      intro listed
      obtain ⟨peers, found, -⟩ := listed
      rw [found] at raw
      cases raw
    | some data =>
      have found : value.getStr "peers" = some (.bytes data) := by
        obtain ⟨v, some, bytes⟩ := Option.bind_eq_some_iff.mp raw
        rw [some]
        cases v <;> simp_all [Value.asBytes]
      rw [found]
      simp only [true_and, Option.some.injEq, Value.bytes.injEq]
      constructor
      · intro read
        cases unmarshalled : unmarshalPeers data with
        | error e =>
          rw [unmarshalled] at read
          cases read
        | ok listed =>
          rw [unmarshalled] at read
          cases read
          obtain ⟨peers, rfl, same⟩ := compactPeers_unmarshal unmarshalled
          exact ⟨peers, same.symm, rfl⟩
      · intro listed
        obtain ⟨peers, rfl, rfl⟩ := listed
        rw [unmarshal_compactPeers]

theorem mapError_eq_ok {ε ε' α : Type} {f : ε → ε'} {x : Except ε α} {a : α} :
    x.mapError f = .ok a ↔ x = .ok a := by
  cases x <;> simp [Except.mapError]

theorem returns_announce {p : Profile} {pkg : UrlPackage}
    {request : String → Except String ByteSeq} {announceUrl : String} {facts : AnnounceFacts}
    {r : AnnounceResponse} :
    Returns (announce p pkg request announceUrl facts) () r () ↔
      ∃ url body value, buildAnnounceUrl pkg announceUrl facts = .ok url ∧
        request url = .ok body ∧ Returns (decode p body) () value () ∧
          readResponse value = .ok r := by
  unfold announce
  simp only [returns_bind, returns_ofExcept, returns_mapErr, mapError_eq_ok]
  constructor
  · intro steps
    obtain ⟨url, u, ⟨built, -⟩, body, u', ⟨served, -⟩, value, u'', decoded, read, -⟩ := steps
    exact ⟨url, body, value, built, served, decoded, read⟩
  · intro steps
    obtain ⟨url, body, value, built, served, decoded, read⟩ := steps
    exact ⟨url, (), ⟨built, trivial⟩, body, (), ⟨served, trivial⟩, value, (), decoded, read,
      trivial⟩

def announceReply (transactionId interval leechers seeders : UInt32)
    (peers : List (Ipv4Addr × UInt16)) : Bytes :=
  toBe 4 1 ++ toBe 4 transactionId.toNat ++ toBe 4 interval.toNat ++ toBe 4 leechers.toNat ++
    toBe 4 seeders.toNat ++ compactPeers peers

def connectReply (transactionId : UInt32) (connectionId : UInt64) : Bytes :=
  toBe 4 0 ++ toBe 4 transactionId.toNat ++ toBe 8 connectionId.toNat

theorem compactPeers_take (peers : List (Ipv4Addr × UInt16)) (n : Nat) :
    (compactPeers peers).take (6 * n) = compactPeers (peers.take n) := by
  induction peers generalizing n with
  | nil => simp [compactPeers]
  | cons peer later ih =>
    cases n with
    | zero => rfl
    | succ n =>
      have size : (compactPeer peer).length = 6 := by simp [compactPeer, octets]
      have first : compactPeers (peer :: later) = compactPeer peer ++ compactPeers later :=
        List.flatMap_cons
      have rest : 6 * (n + 1) - (compactPeer peer).length = 6 * n := by omega
      rw [List.take_succ_cons, first, List.take_append, List.take_of_length_le (by omega), rest, ih]
      exact List.flatMap_cons.symm

theorem listed_compactPeers (peers : List (Ipv4Addr × UInt16)) :
    CompactPeers.listedPeers (compactPeers peers) = peers.map asPeerAddr := by
  have whole : (compactPeers peers).length % 6 = 0 := records_fill peerRecord peers
  have read := unmarshal_compactPeers peers
  rw [unmarshalPeers_eq whole] at read
  exact Except.ok.inj read

section Reply
variable {transactionId interval leechers seeders : UInt32} {peers : List (Ipv4Addr × UInt16)}

theorem announceReply_fields :
    beField 0 4 (announceReply transactionId interval leechers seeders peers) = 1 ∧
      beField 4 4 (announceReply transactionId interval leechers seeders peers) =
        transactionId.toNat ∧
      beField 8 4 (announceReply transactionId interval leechers seeders peers) =
        interval.toNat := by
  have one : ofBe (toBe 4 1) = 1 := by decide
  have txid : ofBe (toBe 4 transactionId.toNat) = _ := ofBe_toBe transactionId.toNat_lt
  have seconds : ofBe (toBe 4 interval.toNat) = _ := ofBe_toBe interval.toNat_lt
  simp [beField, announceReply, List.drop_append, List.drop_eq_nil_of_le, one, txid, seconds]

theorem announceReply_peers :
    (announceReply transactionId interval leechers seeders peers).drop 20 = compactPeers peers := by
  simp [announceReply, List.drop_append, List.drop_eq_nil_of_le]

theorem announceReply_length : 20 ≤
    (announceReply transactionId interval leechers seeders peers).length := by
  simp only [announceReply, List.length_append, toBe_length]
  omega

theorem announceReply_take :
    (announceReply transactionId interval leechers seeders peers).take 3020 =
      announceReply transactionId interval leechers seeders (peers.take 500) := by
  have room := compactPeers_take peers 500
  unfold announceReply
  rw [List.take_append, List.take_of_length_le (by simp)]
  simp only [List.length_append, toBe_length]
  rw [← room]

theorem connectReply_shown (connectionId : UInt64) :
    ShowsConnect (connectBuffer (connectReply transactionId connectionId)) transactionId := by
  have whole : (connectReply transactionId connectionId).length = 16 := by simp [connectReply]
  have buffer : connectBuffer (connectReply transactionId connectionId) =
      connectReply transactionId connectionId := by
    rw [connectBuffer_of_complete whole.ge, List.take_of_length_le whole.le]
  have zero : ofBe (toBe 4 0) = 0 := by decide
  have txid : ofBe (toBe 4 transactionId.toNat) = _ := ofBe_toBe transactionId.toNat_lt
  rw [buffer]
  constructor <;> simp [beField, connectReply, List.drop_append, zero, txid]

end Reply

theorem udp_reads_answer (draws : Draws) (facts : AnnounceFacts) (connectionId : UInt64)
    (interval leechers seeders : UInt32) (peers : List (Ipv4Addr × UInt16)) :
    ∃ net, Returns (connectAndAnnounce draws facts)
      (freshNetwork (connectReply draws.connectTransactionId connectionId)
        (announceReply draws.announceTransactionId interval leechers seeders peers))
      { interval := UInt64.ofNat interval.toNat
        peers := ((peers.take 500).map asPeerAddr).filter fun peer => peer.port ≠ 0 } net := by
  have fields := @announceReply_fields draws.announceTransactionId interval leechers seeders peers
  have result : announceResult ((announceReply draws.announceTransactionId interval leechers seeders
      peers).take 3020) = { interval := UInt64.ofNat interval.toNat
                            peers := ((peers.take 500).map asPeerAddr).filter
                              fun peer => peer.port ≠ 0 } := by
    have cut := @announceReply_fields draws.announceTransactionId interval leechers seeders
      (peers.take 500)
    rw [announceReply_take, announceResult, cut.2.2, announceReply_peers, announcedPeers_eq,
      listed_compactPeers]
  refine ⟨_, returns_connectAndAnnounce.mpr ⟨_, _, [], [], rfl, rfl, rfl, connectReply_shown _,
    ⟨announceReply_length, fields.1, fields.2.1⟩, result.symm, rfl⟩⟩

structure Answers (map : OrderedMap Bytes Value) (interval : Int64)
    (peers : List (Ipv4Addr × UInt16)) : Prop where
  noFailure : (Value.dict map).getStr "failure reason" = none
  interval : (Value.dict map).getStr "interval" = some (.integer interval)
  peers : (Value.dict map).getStr "peers" = some (.bytes (compactPeers peers))

theorem http_reads_answer (p : Profile) {pkg : UrlPackage}
    {request : String → Except String ByteSeq} {announceUrl url : String} {facts : AnnounceFacts}
    {map : OrderedMap Bytes Value} {interval : Int64} {peers : List (Ipv4Addr × UInt16)}
    (answers : Answers map interval peers) (fits : (enc (.dict map)).length < 2 ^ 63)
    (built : buildAnnounceUrl pkg announceUrl facts = .ok url)
    (served : request url = .ok ⟨enc (.dict map), fits⟩) :
    Returns (announce p pkg request announceUrl facts) ()
      { interval := interval.toUInt64, peers := peers.map asPeerAddr } () := by
  refine returns_announce.mpr ⟨url, _, _, built, served, decode_enc (.dict map) fits, ?_⟩
  refine readResponse_ok.mpr ⟨answers.noFailure, peers, answers.peers, ?_⟩
  rw [intervalOf, answers.interval]
  rfl

theorem dialable_five_hundred_iff (peers : List (Ipv4Addr × UInt16)) :
    (((peers.take 500).map asPeerAddr).filter fun peer => peer.port ≠ 0) =
        peers.map asPeerAddr ↔
      peers.length ≤ 500 ∧ ∀ peer ∈ peers, peer.2 ≠ 0 := by
  constructor
  · intro same
    have fewer := List.length_filter_le (fun peer : PeerAddr => decide (peer.port ≠ 0))
      ((peers.take 500).map asPeerAddr)
    have few : peers.length ≤ 500 := by
      rw [same, List.length_map, List.length_map, List.length_take] at fewer
      omega
    rw [List.take_of_length_le few, List.filter_eq_self] at same
    refine ⟨few, fun peer member => ?_⟩
    exact of_decide_eq_true (same _ (List.mem_map_of_mem member))
  · intro fine
    obtain ⟨few, dialable⟩ := fine
    rw [List.take_of_length_le few, List.filter_eq_self]
    intro peer member
    obtain ⟨listed, here, rfl⟩ := List.mem_map.mp member
    exact decide_eq_true (dialable listed here)

/-- One answer of a tracker, asked over HTTP and over UDP: the interval is the same, and UDP gives
    the first five hundred peers without those of port zero. -/
theorem transports_compare (p : Profile) {pkg : UrlPackage}
    {request : String → Except String ByteSeq} {announceUrl url : String} (facts : AnnounceFacts)
    {map : OrderedMap Bytes Value} {interval : UInt32} {peers : List (Ipv4Addr × UInt16)}
    (answers : Answers map (Int64.ofNat interval.toNat) peers)
    (fits : (enc (.dict map)).length < 2 ^ 63)
    (built : buildAnnounceUrl pkg announceUrl facts = .ok url)
    (served : request url = .ok ⟨enc (.dict map), fits⟩)
    (draws : Draws) (connectionId : UInt64) (leechers seeders : UInt32) :
    ∃ http udp net, Returns (announce p pkg request announceUrl facts) () http () ∧
      Returns (connectAndAnnounce draws facts)
        (freshNetwork (connectReply draws.connectTransactionId connectionId)
          (announceReply draws.announceTransactionId interval leechers seeders peers)) udp net ∧
      http.interval.toNat = interval.toNat ∧ http.peers = peers.map asPeerAddr ∧
      udp.interval = http.interval ∧
      udp.peers = (http.peers.take 500).filter (fun peer => peer.port ≠ 0) ∧
      (udp = http ↔ peers.length ≤ 500 ∧ ∀ peer ∈ peers, peer.2 ≠ 0) := by
  obtain ⟨net, udp⟩ := udp_reads_answer draws facts connectionId interval leechers seeders peers
  have http := http_reads_answer p answers fits built served
  have small := interval.toNat_lt
  have seconds : (Int64.ofNat interval.toNat).toUInt64 = UInt64.ofNat interval.toNat := rfl
  rw [seconds] at http
  refine ⟨_, _, net, http, udp, ?_, rfl, rfl, ?_, ?_⟩
  · rw [UInt64.toNat_ofNat', Nat.mod_eq_of_lt (by omega)]
  · rw [← List.map_take]
  · rw [AnnounceResponse.mk.injEq, and_iff_right rfl]
    exact dialable_five_hundred_iff peers

def twoPeers : List (Ipv4Addr × UInt16) := [(⟨10, 0, 0, 1⟩, 6881), (⟨10, 0, 0, 2⟩, 0)]

def twoPeersMap : OrderedMap Bytes Value :=
  (OrderedMap.empty.insert (utf8Bytes "interval") (.integer 1800)).insert (utf8Bytes "peers")
    (.bytes (compactPeers twoPeers))

theorem twoPeersMap_answers : Answers twoPeersMap (Int64.ofNat (1800 : UInt32).toNat) twoPeers :=
  ⟨by decide +kernel, by decide +kernel, by decide +kernel⟩

theorem twoPeersMap_fits : (enc (.dict twoPeersMap)).length < 2 ^ 63 := by decide +kernel

def testFacts : AnnounceFacts := ⟨.replicate 20 1, .replicate 20 2, 6881, 0, 0, 100⟩

theorem transports_compare_two : ∃ http udp : AnnounceResponse,
    http.peers = twoPeers.map asPeerAddr ∧
      udp.peers = (http.peers.take 500).filter (fun peer => peer.port ≠ 0) ∧ udp ≠ http := by
  obtain ⟨http, udp, net, -, -, -, listed, -, kept, same⟩ :=
    @transports_compare .debug plainPackage (fun _ => .ok ⟨_, twoPeersMap_fits⟩)
      "http://a/announce" _ testFacts _ 1800 _ twoPeersMap_answers twoPeersMap_fits rfl rfl
      ⟨7, 9, 0⟩ 5 0 0
  refine ⟨http, udp, listed, kept, fun equal => ?_⟩
  exact absurd (same.mp equal).2 (by decide)

end HttpAnnounce
