import RustyTorrent.Tracker.CompactPeers

/- The compact encoding of a list of addresses, and the HTTP reader as its exact inverse. -/
namespace PeerListCodec
open RustExec BigEndian ExactChunks TrackerAnnounce HttpTracker CompactPeers

def octets (addr : Ipv4Addr) : Bytes := [addr.a, addr.b, addr.c, addr.d]

/-- The address in network order, and the port behind it. -/
def compactPeer (peer : Ipv4Addr × UInt16) : Bytes := octets peer.1 ++ toBe 2 peer.2.toNat

def compactPeers (peers : List (Ipv4Addr × UInt16)) : Bytes := peers.flatMap compactPeer

def asPeerAddr (peer : Ipv4Addr × UInt16) : PeerAddr := ⟨.v4 peer.1, peer.2⟩

theorem six_bytes (chunk : Vector UInt8 6) :
    [chunk.get 0, chunk.get 1, chunk.get 2, chunk.get 3, chunk.get 4, chunk.get 5] =
      chunk.toList := by
  have listed : List.ofFn chunk.get = chunk.toList := by
    rw [← Vector.toList_ofFn]
    congr 1
    exact Vector.ofFn_getElem
  exact listed

def peerRecord : (Ipv4Addr × UInt16) ≃ Vector UInt8 6 where
  toFun peer := ⟨(compactPeer peer).toArray, by simp [compactPeer, octets]⟩
  invFun chunk :=
    (⟨chunk.get 0, chunk.get 1, chunk.get 2, chunk.get 3⟩, be16 (chunk.get 4) (chunk.get 5))
  left_inv peer := congrArg (Prod.mk peer.1) (be16_toBe peer.2)
  right_inv chunk := by
    rw [← Vector.toList_inj, ← six_bytes chunk, ← toBe_be16 (chunk.get 4) (chunk.get 5)]
    rfl

theorem compactPeers_records (peers : List (Ipv4Addr × UInt16)) :
    compactPeers peers = peers.flatMap fun peer => (peerRecord peer).toList := rfl

theorem listedPeers_records (data : Bytes) :
    listedPeers data = ((chunksExact 6 data).map peerRecord.symm).map asPeerAddr := by
  rw [List.map_map]
  rfl

theorem unmarshalPeers_refuses {data : Bytes} (ragged : data.length % 6 ≠ 0) :
    unmarshalPeers data = .error (.malformedPeers data.length) := if_pos ragged

theorem unmarshal_compactPeers (peers : List (Ipv4Addr × UInt16)) :
    unmarshalPeers (compactPeers peers) = .ok (peers.map asPeerAddr) := by
  have whole := records_fill peerRecord peers
  have back := chunks_of_records peerRecord (by decide) peers
  rw [← compactPeers_records] at whole back
  rw [unmarshalPeers_eq whole, listedPeers_records, back]

/-- 10.0.0.1:6881 -/
example : compactPeers [(⟨10, 0, 0, 1⟩, 6881)] = [10, 0, 0, 1, 0x1a, 0xe1] := by decide

theorem compactPeers_unmarshal {data : Bytes} {listed : List PeerAddr}
    (read : unmarshalPeers data = .ok listed) :
    ∃ peers, listed = peers.map asPeerAddr ∧ compactPeers peers = data := by
  by_cases whole : data.length % 6 = 0
  · rw [unmarshalPeers_eq whole, listedPeers_records] at read
    exact ⟨_, (Except.ok.inj read).symm, records_of_chunks peerRecord (by decide) whole⟩
  · rw [unmarshalPeers_refuses whole] at read
    cases read

theorem unmarshalPeers_accepts_iff (data : Bytes) :
    (∃ listed, unmarshalPeers data = .ok listed) ↔ data.length % 6 = 0 := by
  constructor
  · intro accepted
    obtain ⟨listed, read⟩ := accepted
    by_contra ragged
    rw [unmarshalPeers_refuses ragged] at read
    cases read
  · intro whole
    exact ⟨_, unmarshalPeers_eq whole⟩

theorem unmarshalPeers_inverse :
    (∀ peers, unmarshalPeers (compactPeers peers) = .ok (peers.map asPeerAddr)) ∧
      ∀ data,
        ((∃ listed, unmarshalPeers data = .ok listed) ↔ data.length % 6 = 0) ∧
        (∀ listed, unmarshalPeers data = .ok listed →
          ∃ peers, listed = peers.map asPeerAddr ∧ compactPeers peers = data) ∧
        (data.length % 6 ≠ 0 → unmarshalPeers data = .error (.malformedPeers data.length)) :=
  ⟨unmarshal_compactPeers, fun data =>
    ⟨unmarshalPeers_accepts_iff data, fun _ read => compactPeers_unmarshal read,
      unmarshalPeers_refuses⟩⟩

end PeerListCodec
