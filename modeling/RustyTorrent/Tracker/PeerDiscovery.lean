import RustyTorrent.Tracker.HttpAnnounce
import RustyTorrent.Tracker.TrackerMerge
import RustyTorrent.Tracker.UdpUrl

/- The announce of src/tracker/udp.rs as a whole, both clients behind the tasks of cmd_download,
   and the peers that a download starts from. What stands outside is a parameter: the url package,
   the HTTP request, the resolver, the network at an address, the draws, the texts of errors. -/
namespace PeerDiscovery
open RustExec ExactChunks JoinHandles BencodeGrammar BencodeRecognition BencodeValue TorrentMetainfo
  TrackerAnnounce HttpTracker UdpTracker UdpExchange UdpUrl CompactPeers PeerListCodec
  TrackerMerge HttpAnnounce

/-- The network is the one at the first address that the resolver gives. -/
def udpAnnounce {Addr : Type} (lookupHost : String → Except String (List Addr))
    (network : Addr → Network) (draws : Draws) (trackerUrl : List Char) (facts : AnnounceFacts) :
    Exec Unit UdpTrackerError AnnounceResponse := do
  let addr ← trackerAddr lookupHost trackerUrl
  let (response, _) ← within (network addr) (connectAndAnnounce draws facts)
  return response

/-- The outside, as each task meets it. -/
structure Surroundings (Addr : Type) where
  pkg : UrlPackage
  request : TrackerTask → String → Except String ByteSeq
  lookupHost : TrackerTask → String → Except String (List Addr)
  network : TrackerTask → Addr → Network
  draws : TrackerTask → Draws
  httpText : AnnounceError → String
  udpText : UdpTrackerError → String

/-- Every wait of a client is bounded, so a task that gives no result has panicked. -/
def taskEnd {ε : Type} (text : ε → String) : Outcome ε AnnounceResponse → TaskEnd
  | .ok resp => .ok (.ok resp)
  | .err error => .ok (.error (text error))
  | _ => .error .panicked

section Tasks
variable {Addr : Type} (p : Profile) (around : Surroundings Addr)

def answer (task : TrackerTask) : TaskEnd :=
  match task.client with
  | .http => taskEnd around.httpText
      (announce p around.pkg (around.request task) task.url task.facts ()).outcome
  | .udp => taskEnd around.udpText
      (udpAnnounce (around.lookupHost task) (around.network task) (around.draws task)
        task.url.toList task.facts ()).outcome

/-- A bencoded dictionary without a failure reason, with the address in its compact list. -/
def BodyLists (body : Bytes) (listed : Ipv4Addr × UInt16) : Prop :=
  ∃ value peers, Spells (.value value) body ∧ value.getStr "failure reason" = none ∧
    value.getStr "peers" = some (.bytes (compactPeers peers)) ∧ listed ∈ peers

/-- Two matching replies, and in the second one the address as one of the first five hundred. -/
structure DatagramsList (draws : Draws) (net : Network) (listed : Ipv4Addr × UInt16) : Prop where
  opens : net.opens = true
  sends : ∃ later, net.sending = .accepted :: .accepted :: later
  arrives : ∃ first second later, net.arriving = .datagram first :: .datagram second :: later ∧
    ShowsConnect (connectBuffer first) draws.connectTransactionId ∧
    AnnounceAccepted second draws.announceTransactionId ∧
    ∃ i < 500, (second.drop (20 + 6 * i)).take 6 = compactPeer listed
  dialable : listed.2 ≠ 0

/-- The tracker of a task offers an address, by the means of its client. -/
inductive Offers (task : TrackerTask) (listed : Ipv4Addr × UInt16) : Prop where
  | http {url : String} {body : ByteSeq} (client : task.client = .http)
      (built : buildAnnounceUrl around.pkg task.url task.facts = .ok url)
      (served : around.request task url = .ok body) (lists : BodyLists body.bytes listed)
  | udp {host text tail : List Char} {port : UInt16} {addr : Addr} {later : List Addr}
      (client : task.client = .udp)
      (written : task.url.toList = udpScheme ++ ((host ++ ':' :: text) ++ tail))
      (noSlash : '/' ∉ host) (numeral : PortText text port) (path : PathTail tail)
      (resolved : around.lookupHost task (addrStr (String.ofList host) port) = .ok (addr :: later))
      (lists : DatagramsList (around.draws task) (around.network task addr) listed)

end Tasks

theorem taskEnd_ok {ε : Type} {text : ε → String} {outcome : Outcome ε AnnounceResponse}
    {resp : AnnounceResponse} : taskEnd text outcome = .ok (.ok resp) ↔ outcome = .ok resp := by
  cases outcome <;> simp [taskEnd]

theorem listed_iff {data : Bytes} {peer : PeerAddr} :
    peer ∈ CompactPeers.listedPeers data ↔ ∃ listed, peer = asPeerAddr listed ∧
      ∃ i, (data.drop (6 * i)).take 6 = compactPeer listed := by
  rw [listedPeers_records]
  simp only [List.mem_map]
  constructor
  · intro member
    obtain ⟨listed, ⟨chunk, here, rfl⟩, rfl⟩ := member
    obtain ⟨i, -, place⟩ := (chunk_at_iff (by decide)).mp here
    refine ⟨_, rfl, i, ?_⟩
    rw [place]
    exact congrArg Vector.toList (peerRecord.apply_symm_apply chunk).symm
  · intro found
    obtain ⟨listed, rfl, i, place⟩ := found
    refine ⟨listed, ⟨peerRecord listed, ?_, peerRecord.symm_apply_apply listed⟩, rfl⟩
    have six : ((data.drop (6 * i)).take 6).length = 6 := by
      rw [place]
      rfl
    rw [List.length_take, List.length_drop] at six
    exact (chunk_at_iff (by decide)).mpr ⟨i, by omega, place⟩

theorem http_offers {p : Profile} {pkg : UrlPackage} {request : String → Except String ByteSeq}
    {announceUrl : String} {facts : AnnounceFacts} {peer : PeerAddr} :
    (∃ resp, Returns (announce p pkg request announceUrl facts) () resp () ∧
      peer ∈ resp.peers) ↔
      ∃ listed, peer = asPeerAddr listed ∧ ∃ url body,
        buildAnnounceUrl pkg announceUrl facts = .ok url ∧ request url = .ok body ∧
          BodyLists body.bytes listed := by
  simp only [returns_announce, readResponse_ok, decodes_value]
  constructor
  · intro answered
    obtain ⟨resp, ⟨url, body, value, built, served, spelled, noFailure, peers, given, rfl⟩,
      member⟩ := answered
    obtain ⟨listed, here, rfl⟩ := List.mem_map.mp member
    exact ⟨listed, rfl, url, body, built, served, value, peers, spelled, noFailure, given, here⟩
  · intro offered
    obtain ⟨listed, rfl, url, body, built, served, value, peers, spelled, noFailure, given,
      here⟩ := offered
    exact ⟨_, ⟨url, body, value, built, served, spelled, noFailure, peers, given, rfl⟩,
      List.mem_map_of_mem here⟩

theorem buffer_cuts {second : Bytes} {i : Nat} {listed : Ipv4Addr × UInt16} :
    ((((second.take 3020).drop 20).drop (6 * i)).take 6 = compactPeer listed) ↔
      i < 500 ∧ (second.drop (20 + 6 * i)).take 6 = compactPeer listed := by
  have six : (compactPeer listed).length = 6 := rfl
  rw [List.drop_drop, List.drop_take, List.take_take]
  constructor
  · intro place
    have inside := congrArg List.length place
    rw [six, List.length_take] at inside
    have whole : min 6 (3020 - (20 + 6 * i)) = 6 := by omega
    rw [whole] at place
    exact ⟨by omega, place⟩
  · intro place
    obtain ⟨few, place⟩ := place
    have whole : min 6 (3020 - (20 + 6 * i)) = 6 := by omega
    rw [whole]
    exact place

theorem exchange_offers {draws : Draws} (facts : AnnounceFacts) {net : Network}
    {peer : PeerAddr} :
    (∃ resp net', Returns (connectAndAnnounce draws facts) net resp net' ∧ peer ∈ resp.peers) ↔
      ∃ listed, peer = asPeerAddr listed ∧ DatagramsList draws net listed := by
  simp only [returns_connectAndAnnounce]
  constructor
  · intro answered
    obtain ⟨resp, net', ⟨first, second, sending, arriving, opens, accepted, came, shown, announced,
      rfl, -⟩, member⟩ := answered
    rw [announceResult, announcedPeers_eq, List.mem_filter, listed_iff] at member
    obtain ⟨⟨listed, rfl, i, place⟩, dialable⟩ := member
    exact ⟨listed, rfl, { opens, sends := ⟨sending, accepted⟩
                          arrives := ⟨first, second, arriving, came, shown, announced, i,
                            buffer_cuts.mp place⟩
                          dialable := of_decide_eq_true dialable }⟩
  · intro offered
    obtain ⟨listed, rfl, opens, ⟨sending, accepted⟩, ⟨first, second, arriving, came, shown,
      announced, i, place⟩, dialable⟩ := offered
    refine ⟨_, _, ⟨first, second, sending, arriving, opens, accepted, came, shown, announced, rfl,
      rfl⟩, ?_⟩
    rw [announceResult, announcedPeers_eq, List.mem_filter, listed_iff]
    exact ⟨⟨listed, rfl, i, buffer_cuts.mpr place⟩, decide_eq_true dialable⟩

section Udp
variable {Addr : Type} {lookupHost : String → Except String (List Addr)} {trackerUrl : List Char}

theorem returns_trackerAddr {addr : Addr} {u : Unit} :
    Returns (trackerAddr lookupHost trackerUrl) () addr u ↔
      ∃ host text tail port later,
        trackerUrl = udpScheme ++ ((host ++ ':' :: text) ++ tail) ∧ '/' ∉ host ∧
          PortText text port ∧ PathTail tail ∧
          lookupHost (addrStr (String.ofList host) port) = .ok (addr :: later) := by
  constructor
  · intro found
    have steps := found
    unfold trackerAddr at steps
    obtain ⟨parsed, none, read, -⟩ := returns_bind.mp steps
    obtain ⟨text, tail, rfl, noSlash, numeral, path⟩ := parsed_port_text read
    obtain ⟨later, resolved⟩ := (trackerAddr_asks noSlash numeral path).mp found
    exact ⟨parsed.1.toList, text, tail, parsed.2, later, rfl, noSlash, numeral, path, resolved⟩
  · intro shaped
    obtain ⟨host, text, tail, port, later, rfl, noSlash, numeral, path, resolved⟩ := shaped
    exact (trackerAddr_asks noSlash numeral path).mpr ⟨later, resolved⟩

theorem returns_udpAnnounce {network : Addr → Network} {draws : Draws} {facts : AnnounceFacts}
    {resp : AnnounceResponse} {u : Unit} :
    Returns (udpAnnounce lookupHost network draws trackerUrl facts) () resp u ↔
      ∃ addr net, Returns (trackerAddr lookupHost trackerUrl) () addr () ∧
        Returns (connectAndAnnounce draws facts) (network addr) resp net := by
  unfold udpAnnounce
  simp only [returns_bind, Prod.exists, returns_within, returns_pure]
  constructor
  · intro steps
    obtain ⟨addr, none, found, given, net, state, ⟨exchanged, -⟩, rfl, -⟩ := steps
    exact ⟨addr, net, found, exchanged⟩
  · intro steps
    obtain ⟨addr, net, found, exchanged⟩ := steps
    exact ⟨addr, (), found, resp, net, (), ⟨exchanged, trivial⟩, rfl, trivial⟩

end Udp

section Tasks
variable {Addr : Type} {p : Profile} {around : Surroundings Addr}

theorem answer_lists {task : TrackerTask} {peer : PeerAddr} :
    (∃ resp, answer p around task = .ok (.ok resp) ∧ peer ∈ resp.peers) ↔
      ∃ listed, peer = asPeerAddr listed ∧ Offers around task listed := by
  cases client : task.client with
  | http =>
    simp only [answer, client, taskEnd_ok]
    constructor
    · intro answered
      obtain ⟨resp, ended, member⟩ := answered
      obtain ⟨listed, rfl, url, body, built, served, lists⟩ :=
        http_offers.mp ⟨resp, ⟨ended, rfl⟩, member⟩
      exact ⟨listed, rfl, .http client built served lists⟩
    · intro offered
      obtain ⟨listed, rfl, offers⟩ := offered
      cases offers with
      | http _ built served lists =>
        obtain ⟨resp, ended, member⟩ := http_offers.mpr ⟨listed, rfl, _, _, built, served, lists⟩
        exact ⟨resp, ended.1, member⟩
      | udp other => cases client.symm.trans other
  | udp =>
    simp only [answer, client, taskEnd_ok]
    constructor
    · intro answered
      obtain ⟨resp, ended, member⟩ := answered
      obtain ⟨addr, net, found, exchanged⟩ := returns_udpAnnounce.mp ⟨ended, rfl⟩
      obtain ⟨host, text, tail, port, later, written, noSlash, numeral, path, resolved⟩ :=
        returns_trackerAddr.mp found
      obtain ⟨listed, rfl, lists⟩ :=
        (exchange_offers task.facts).mp ⟨resp, net, exchanged, member⟩
      exact ⟨listed, rfl, .udp client written noSlash numeral path resolved lists⟩
    · intro offered
      obtain ⟨listed, rfl, offers⟩ := offered
      cases offers with
      | http other => cases client.symm.trans other
      | udp _ written noSlash numeral path resolved lists =>
        obtain ⟨resp, net, exchanged, member⟩ :=
          (exchange_offers task.facts).mpr ⟨listed, rfl, lists⟩
        have found := (returns_trackerAddr (u := ())).mpr
          ⟨_, _, _, _, _, written, noSlash, numeral, path, resolved⟩
        exact ⟨resp, ((returns_udpAnnounce (u := ())).mpr ⟨_, net, found, exchanged⟩).1, member⟩

variable {m : Metainfo} {peerId : Vector UInt8 20} {listenPort : UInt16}
  {final : Joining TrackerTask Merged}

def Offered (around : Surroundings Addr) (m : Metainfo) (peerId : Vector UInt8 20)
    (listenPort : UInt16) (listed : Ipv4Addr × UInt16) : Prop :=
  ∃ url ∈ announceUrls m, ∃ task, trackerTask m peerId listenPort url = some task ∧
    Offers around task listed

theorem gathered_iff (gathers : Gathers m peerId listenPort (answer p around) final)
    (peer : PeerAddr) : peer ∈ final.taken.allPeers ↔
      ∃ listed, peer = asPeerAddr listed ∧ Offered around m peerId listenPort listed := by
  have listed := (merges_exactly (responses (answer p around)
    (trackerTasks m peerId listenPort))).listed peer
  rw [← gathers_taken gathers] at listed
  rw [listed]
  simp only [mem_responses, Offered]
  constructor
  · intro heard
    obtain ⟨resp, ⟨url, member, task, here, said⟩, within⟩ := heard
    obtain ⟨address, same, offers⟩ := answer_lists.mp ⟨resp, said, within⟩
    exact ⟨address, same, url, member, task, here, offers⟩
  · intro offered
    obtain ⟨address, same, url, member, task, here, offers⟩ := offered
    obtain ⟨resp, said, within⟩ := answer_lists.mpr ⟨address, same, offers⟩
    exact ⟨resp, ⟨url, member, task, here, said⟩, within⟩

/-- A download starts from exactly the addresses that its trackers offer, each once, and gives up
    when there are none. -/
theorem discovery_finds (gathers : Gathers m peerId listenPort (answer p around) final) :
    final.taken.allPeers.Nodup ∧
    (∀ peer, peer ∈ final.taken.allPeers ↔
      ∃ listed, peer = asPeerAddr listed ∧ Offered around m peerId listenPort listed) ∧
    ((∃ message, foundPeers final.taken = .error message) ↔
      ∀ listed, ¬ Offered around m peerId listenPort listed) := by
  have members := gathered_iff gathers
  refine ⟨?_, members, ?_⟩
  · rw [gathers_taken gathers]
    exact (merges_exactly _).distinct
  · have empty : (∃ message, foundPeers final.taken = .error message) ↔
        final.taken.allPeers = [] := by
      unfold foundPeers
      cases final.taken.allPeers <;> simp
    rw [empty, List.eq_nil_iff_forall_not_mem]
    constructor
    · intro none listed offered
      exact none _ ((members _).mpr ⟨listed, rfl, offered⟩)
    · intro none peer member
      obtain ⟨listed, -, offered⟩ := (members peer).mp member
      exact none listed offered

end Tasks

def twoTrackers : Metainfo where
  announce := "http://a/announce"
  announceList := [["udp://b:80/announce"]]
  infoHash := .replicate 20 1
  name := "a"
  pieceLength := 100
  pieceHashes := []
  totalLength := 100
  files := []
  isSingleFile := true

def bothAnswer : Surroundings Unit where
  pkg := AnnounceReports.plainPackage
  request _ _ := .ok ⟨_, twoPeersMap_fits⟩
  lookupHost _ _ := .ok [()]
  network _ _ := freshNetwork (connectReply 7 5) (announceReply 9 1800 0 0 twoPeers)
  draws _ := ⟨7, 9, 0⟩
  httpText _ := "http"
  udpText _ := "udp"

theorem discovery_finds_two : ∃ final, Gathers twoTrackers (.replicate 20 2) 6881
    (answer .debug bothAnswer) final ∧
      asPeerAddr (⟨10, 0, 0, 2⟩, 0) ∈ final.taken.allPeers := by
  obtain ⟨final, run, complete, -⟩ :=
    @run_in_order _ _ _ (answer .debug bothAnswer) absorb _ mergeStart _
      (List.Perm.refl (List.range (trackerTasks twoTrackers (.replicate 20 2) 6881).length))
  have gathers : Gathers twoTrackers (.replicate 20 2) 6881 (answer .debug bothAnswer) final :=
    ⟨run, complete⟩
  refine ⟨final, gathers, ((discovery_finds gathers).2.1 _).mpr ⟨_, rfl, ?_⟩⟩
  have spawned : trackerTask twoTrackers (.replicate 20 2) 6881 "http://a/announce" =
      some ⟨.http, "http://a/announce", ⟨.replicate 20 1, .replicate 20 2, 6881, 0, 0, 100⟩⟩ := by
    decide
  have lists : BodyLists (CanonicalEncoding.enc (.dict twoPeersMap)) (⟨10, 0, 0, 2⟩, 0) :=
    ⟨_, twoPeers, CanonicalEncoding.enc_spelled _ twoPeersMap_fits, twoPeersMap_answers.noFailure,
      twoPeersMap_answers.peers, by decide⟩
  exact ⟨_, by decide, _, spawned, .http rfl rfl rfl lists⟩

end PeerDiscovery
