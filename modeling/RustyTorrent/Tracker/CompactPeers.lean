import RustyTorrent.Tracker.HttpTracker
import RustyTorrent.Tracker.UdpTracker

/- The compact peer list as the two transports read it. The UDP loop leaves out the peers
   with port 0, and the HTTP reader keeps them. -/
namespace CompactPeers
open RustExec BigEndian ExactChunks TrackerAnnounce HttpTracker UdpTracker

def readPeer (chunk : Vector UInt8 6) : PeerAddr :=
  ⟨.v4 ⟨chunk.get 0, chunk.get 1, chunk.get 2, chunk.get 3⟩, be16 (chunk.get 4) (chunk.get 5)⟩

def listedPeers (data : Bytes) : List PeerAddr := (chunksExact 6 data).map readPeer

theorem pushPeers_eq (chunks : List (Vector UInt8 6)) (peers : List PeerAddr) :
    pushPeers chunks peers =
      peers ++ (chunks.map readPeer).filter fun peer => peer.port ≠ 0 := by
  induction chunks generalizing peers with
  | nil => simp [pushPeers]
  | cons chunk rest ih =>
    simp only [pushPeers]
    split
    · rename_i dialable
      simp [ih, readPeer, dialable]
    · rename_i zero
      simp [ih, readPeer, not_not.mp zero]

theorem announcedPeers_eq (data : Bytes) :
    announcedPeers data = (listedPeers data).filter fun peer => peer.port ≠ 0 := by
  simp [announcedPeers, listedPeers, pushPeers_eq]

theorem unmarshalPeers_eq {data : Bytes} (whole : data.length % 6 = 0) :
    unmarshalPeers data = .ok (listedPeers data) := by
  simp [unmarshalPeers, whole, listedPeers, readPeer]

theorem chunk_port {data : Bytes} {chunk : Vector UInt8 6} {i : Nat}
    (here : (data.drop (6 * i)).take 6 = chunk.toList) :
    data[6 * i + 4]? = some (chunk.get 4) ∧ data[6 * i + 5]? = some (chunk.get 5) := by
  have read : ∀ j : Fin 6, data[6 * i + j]? = some (chunk.get j) := by
    intro j
    have same : ((data.drop (6 * i)).take 6)[j.val]? = chunk.toList[j.val]? := by rw [here]
    have place : data[6 * i + j]? = some chunk[j.val] := by simpa [List.getElem?_take] using same
    exact place
  exact ⟨read 4, read 5⟩

theorem zero_port_iff {data : Bytes} (whole : data.length % 6 = 0) :
    (∃ peer ∈ listedPeers data, peer.port = 0) ↔
      ∃ i, data[6 * i + 4]? = some 0 ∧ data[6 * i + 5]? = some 0 := by
  constructor
  · intro parts
    obtain ⟨peer, listed, zero⟩ := parts
    obtain ⟨chunk, member, rfl⟩ := List.mem_map.mp listed
    obtain ⟨i, -, here⟩ := (chunk_at_iff (by decide)).mp member
    obtain ⟨high, low⟩ := chunk_port here
    obtain ⟨zeroHigh, zeroLow⟩ := be16_eq_zero.mp zero
    exact ⟨i, by rw [high, zeroHigh], by rw [low, zeroLow]⟩
  · intro parts
    obtain ⟨i, high, low⟩ := parts
    obtain ⟨inside, -⟩ := List.getElem?_eq_some_iff.mp low
    have fits : 6 * i + 6 ≤ data.length := by omega
    have size : ((data.drop (6 * i)).take 6).toArray.size = 6 := by
      simp only [List.size_toArray, List.length_take, List.length_drop]
      omega
    have here : (data.drop (6 * i)).take 6 =
        (⟨((data.drop (6 * i)).take 6).toArray, size⟩ : Vector UInt8 6).toList := rfl
    obtain ⟨high', low'⟩ := chunk_port here
    refine ⟨_, List.mem_map_of_mem ((chunk_at_iff (by decide)).mpr ⟨i, fits, here⟩), ?_⟩
    apply be16_eq_zero.mpr
    exact ⟨Option.some.inj (high'.symm.trans high), Option.some.inj (low'.symm.trans low)⟩

theorem peer_decoders_agree_iff {data : Bytes} (whole : data.length % 6 = 0) :
    unmarshalPeers data = .ok (announcedPeers data) ↔
      ∀ i, data[6 * i + 4]? = some 0 → data[6 * i + 5]? ≠ some 0 := by
  rw [unmarshalPeers_eq whole, announcedPeers_eq, Except.ok.injEq, eq_comm, List.filter_eq_self]
  have zeros := zero_port_iff whole
  constructor
  · intro dialable i high low
    obtain ⟨peer, listed, zero⟩ := zeros.mpr ⟨i, high, low⟩
    exact absurd zero (by simpa using dialable peer listed)
  · intro none peer listed
    have nonzero : peer.port ≠ 0 := by
      intro zero
      obtain ⟨i, high, low⟩ := zeros.mp ⟨peer, listed, zero⟩
      exact none i high low
    simpa using nonzero

theorem peer_decoders_agree_iff_dialable :
    unmarshalPeers [10, 0, 0, 1, 0x1a, 0xe1] = .ok (announcedPeers [10, 0, 0, 1, 0x1a, 0xe1]) ↔
      ∀ i, ([10, 0, 0, 1, 0x1a, 0xe1] : Bytes)[6 * i + 4]? = some 0 →
        ([10, 0, 0, 1, 0x1a, 0xe1] : Bytes)[6 * i + 5]? ≠ some 0 :=
  peer_decoders_agree_iff (by decide)

/-- 10.0.0.1:6881 and 10.0.0.2:0 -/
theorem zero_port_splits_decoders :
    let data : Bytes := [10, 0, 0, 1, 0x1a, 0xe1, 10, 0, 0, 2, 0, 0]
    data.length % 6 = 0 ∧ data.length ≤ 3000 ∧
      unmarshalPeers data = .ok [⟨.v4 ⟨10, 0, 0, 1⟩, 6881⟩, ⟨.v4 ⟨10, 0, 0, 2⟩, 0⟩] ∧
      announcedPeers data = [⟨.v4 ⟨10, 0, 0, 1⟩, 6881⟩] ∧
      unmarshalPeers data ≠ .ok (announcedPeers data) := by
  decide +kernel

end CompactPeers
