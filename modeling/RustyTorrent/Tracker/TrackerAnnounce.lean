import RustyTorrent.Library.RustExec

/- What an announce tells the tracker and what it gives back, as in src/tracker/mod.rs, with
   the peer address of src/peer/mod.rs. Printing an address is left out. -/
namespace TrackerAnnounce

structure AnnounceFacts where
  infoHash : Vector UInt8 20
  peerId : Vector UInt8 20
  port : UInt16
  uploaded : UInt64
  downloaded : UInt64
  left : UInt64
  deriving DecidableEq, Repr

structure Ipv4Addr where
  a : UInt8
  b : UInt8
  c : UInt8
  d : UInt8
  deriving DecidableEq, Repr

inductive IpAddr where
  | v4 (addr : Ipv4Addr)
  | v6 (segments : Vector UInt16 8)
  deriving DecidableEq, Repr

structure PeerAddr where
  ip : IpAddr
  port : UInt16
  deriving DecidableEq, Repr

structure AnnounceResponse where
  interval : UInt64
  peers : List PeerAddr
  deriving DecidableEq, Repr

instance compactPeerBytes : NeZero 6 := ⟨by decide⟩

end TrackerAnnounce
