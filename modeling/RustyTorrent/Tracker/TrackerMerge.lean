import Mathlib.Order.Bounds.Basic
import RustyTorrent.Library.FirstSeen
import RustyTorrent.Library.JoinHandles
import RustyTorrent.Torrent.TorrentMetainfo
import RustyTorrent.Tracker.TrackerAnnounce

/- The trackers of cmd_download in src/main.rs: the URLs, a task for each that has a client,
   and the merge of what the tasks end with. The announces themselves are a parameter.
   Printing, logging and the download behind the merge are left out. -/
namespace TrackerMerge
open FirstSeen JoinHandles TorrentMetainfo TrackerAnnounce

/-- The URLs of all tiers, then the primary announce. -/
def announceUrls (m : Metainfo) : List String :=
  pushNew (m.announceList.foldl pushAll []) m.announce

inductive Client where
  | udp
  | http
  deriving DecidableEq, Repr

def startsWith (url start : String) : Bool := start.toList.isPrefixOf url.toList

def clientFor (url : String) : Option Client :=
  if startsWith url "udp://" then some .udp
  else if startsWith url "http://" || startsWith url "https://" then some .http
  else none

structure TrackerTask where
  client : Client
  url : String
  facts : AnnounceFacts
  deriving DecidableEq, Repr

inductive JoinError where
  | panicked
  deriving DecidableEq, Repr

/-- What a handle gives: the panic of the task, or the text of its error, or the response. -/
abbrev TaskEnd := Except JoinError (Except String AnnounceResponse)

structure Merged where
  allPeers : List PeerAddr
  announceInterval : UInt64
  deriving DecidableEq, Repr

def mergeStart : Merged := ⟨[], 1800⟩

def lowerInterval (announceInterval : UInt64) (resp : AnnounceResponse) : UInt64 :=
  if resp.interval < announceInterval then resp.interval else announceInterval

def absorb (merged : Merged) : TaskEnd → Merged
  | .ok (.ok resp) =>
      { allPeers := pushAll merged.allPeers resp.peers
        announceInterval := lowerInterval merged.announceInterval resp }
  | .ok (.error _) => merged
  | .error _ => merged

/-- The check behind the merge. -/
def foundPeers (merged : Merged) : Except String Merged :=
  if merged.allPeers.isEmpty then .error "No peers found from any tracker" else .ok merged

section Download
variable (m : Metainfo) (peerId : Vector UInt8 20) (listenPort : UInt16)

def trackerTask (url : String) : Option TrackerTask :=
  (clientFor url).map fun client =>
    ⟨client, url, ⟨m.infoHash, peerId, listenPort, 0, 0, m.totalLength⟩⟩

def trackerTasks : List TrackerTask :=
  (announceUrls m).filterMap (trackerTask m peerId listenPort)

variable (answer : TrackerTask → TaskEnd)

/-- The spawns and the merge have come to their end, with the tasks in any interleaving. -/
def Gathers (final : Joining TrackerTask Merged) : Prop :=
  Runs answer absorb (Joining.start (trackerTasks m peerId listenPort) mergeStart) final ∧
    final.Complete

end Download

def Contactable (url : String) : Prop :=
  "udp://".toList <+: url.toList ∨ "http://".toList <+: url.toList ∨
    "https://".toList <+: url.toList

def response? : TaskEnd → Option AnnounceResponse
  | .ok (.ok resp) => some resp
  | _ => none

def responses (answer : TrackerTask → TaskEnd) (tasks : List TrackerTask) :
    List AnnounceResponse := tasks.filterMap fun task => response? (answer task)

def listedPeers (heard : List AnnounceResponse) : List PeerAddr := heard.flatMap (·.peers)

/-- What the merge owes to the responses. -/
structure MergesExactly (heard : List AnnounceResponse) (merged : Merged) : Prop where
  distinct : merged.allPeers.Nodup
  listed : ∀ peer, peer ∈ merged.allPeers ↔ ∃ resp ∈ heard, peer ∈ resp.peers
  firstSeen : ∀ p ∈ merged.allPeers, ∀ q ∈ merged.allPeers,
    (merged.allPeers.idxOf p < merged.allPeers.idxOf q ↔
      (listedPeers heard).idxOf p < (listedPeers heard).idxOf q)
  interval : IsLeast (insert 1800 {n | ∃ resp ∈ heard, resp.interval = n}) merged.announceInterval

theorem announceUrls_eq (m : Metainfo) :
    announceUrls m = pushAll [] (m.announceList.flatten ++ [m.announce]) := by
  rw [pushAll_append, pushAll_cons, pushAll_nil]
  exact congrArg (pushNew · m.announce) List.foldl_flatten.symm

theorem announceUrls_nodup (m : Metainfo) : (announceUrls m).Nodup := by
  rw [announceUrls_eq]
  exact pushAll_nodup List.nodup_nil _

theorem mem_announceUrls {m : Metainfo} {url : String} :
    url ∈ announceUrls m ↔ url = m.announce ∨ ∃ tier ∈ m.announceList, url ∈ tier := by
  rw [announceUrls_eq, mem_pushAll]
  simp [or_comm]

theorem startsWith_iff {url start : String} :
    startsWith url start = true ↔ start.toList <+: url.toList := List.isPrefixOf_iff_prefix

theorem clientFor_iff {url : String} {client : Client} :
    clientFor url = some client ↔
      Contactable url ∧ (client = .udp ↔ "udp://".toList <+: url.toList) := by
  have http : (startsWith url "http://" || startsWith url "https://") = true ↔
      "http://".toList <+: url.toList ∨ "https://".toList <+: url.toList := by
    rw [Bool.or_eq_true, startsWith_iff, startsWith_iff]
  by_cases udp : "udp://".toList <+: url.toList
  · rw [clientFor, if_pos (startsWith_iff.mpr udp), iff_true_right udp, Option.some.injEq, eq_comm]
    exact (and_iff_right (Or.inl udp)).symm
  · rw [clientFor, if_neg (mt startsWith_iff.mp udp), iff_false_right udp, Contactable,
      or_iff_right udp, ← http]
    split
    · cases client <;> simp_all
    · simp_all

theorem absorb_all (ends : List TaskEnd) (merged : Merged) :
    ends.foldl absorb merged =
      ⟨pushAll merged.allPeers (listedPeers (ends.filterMap response?)),
        (ends.filterMap response?).foldl lowerInterval merged.announceInterval⟩ := by
  induction ends generalizing merged with
  | nil => rfl
  | cons taskEnd rest ih =>
    rw [List.foldl_cons, ih]
    rcases taskEnd with broken | text | resp
    · rfl
    · rfl
    · simp only [absorb, response?, List.filterMap_cons, listedPeers, List.flatMap_cons,
        pushAll_append, List.foldl_cons]

theorem lowerInterval_le (announceInterval : UInt64) (resp : AnnounceResponse) :
    lowerInterval announceInterval resp ≤ announceInterval ∧
      lowerInterval announceInterval resp ≤ resp.interval := by
  unfold lowerInterval
  split
  · rename_i less
    exact ⟨UInt64.le_of_lt less, UInt64.le_refl _⟩
  · rename_i more
    exact ⟨UInt64.le_refl _, UInt64.not_lt.mp more⟩

theorem lowest_le (heard : List AnnounceResponse) (first : UInt64) :
    heard.foldl lowerInterval first ≤ first ∧
      ∀ resp ∈ heard, heard.foldl lowerInterval first ≤ resp.interval := by
  induction heard generalizing first with
  | nil => exact ⟨UInt64.le_refl _, by simp⟩
  | cons resp rest ih =>
    obtain ⟨lower, below⟩ := ih (lowerInterval first resp)
    obtain ⟨before, here⟩ := lowerInterval_le first resp
    refine ⟨UInt64.le_trans lower before, ?_⟩
    intro other member
    rcases List.mem_cons.mp member with rfl | later
    · exact UInt64.le_trans lower here
    · exact below other later

theorem lowest_mem (heard : List AnnounceResponse) (first : UInt64) :
    heard.foldl lowerInterval first = first ∨
      ∃ resp ∈ heard, resp.interval = heard.foldl lowerInterval first := by
  induction heard generalizing first with
  | nil => exact Or.inl rfl
  | cons resp rest ih =>
    rw [List.foldl_cons]
    rcases ih (lowerInterval first resp) with same | ⟨other, member, same⟩
    · rw [same, lowerInterval]
      split
      · exact Or.inr ⟨resp, List.mem_cons_self, rfl⟩
      · exact Or.inl rfl
    · exact Or.inr ⟨other, List.mem_cons_of_mem _ member, same⟩

theorem merges_exactly (heard : List AnnounceResponse) :
    MergesExactly heard ⟨pushAll [] (listedPeers heard), heard.foldl lowerInterval 1800⟩ := by
  have members : ∀ peer, peer ∈ pushAll [] (listedPeers heard) ↔ peer ∈ listedPeers heard := by
    intro peer
    simp [mem_pushAll]
  obtain ⟨low, below⟩ := lowest_le heard 1800
  refine ⟨pushAll_nodup List.nodup_nil _, ?_, ?_, ?_, ?_⟩
  · intro peer
    rw [members, listedPeers, List.mem_flatMap]
  · intro p hp q hq
    exact pushAll_order (listedPeers heard) p ((members p).mp hp) q ((members q).mp hq)
  · exact lowest_mem heard 1800
  · intro n candidate
    rcases candidate with rfl | ⟨resp, member, rfl⟩
    · exact low
    · exact below resp member

section Download
variable {m : Metainfo} {peerId : Vector UInt8 20} {listenPort : UInt16}
  {answer : TrackerTask → TaskEnd} {final : Joining TrackerTask Merged}

theorem mem_trackerTasks {task : TrackerTask} :
    task ∈ trackerTasks m peerId listenPort ↔
      task.url ∈ announceUrls m ∧ Contactable task.url ∧
        (task.client = .udp ↔ "udp://".toList <+: task.url.toList) ∧
        task.facts = ⟨m.infoHash, peerId, listenPort, 0, 0, m.totalLength⟩ := by
  simp only [trackerTasks, trackerTask, List.mem_filterMap, Option.map_eq_some_iff, clientFor_iff]
  constructor
  · intro spawned
    obtain ⟨url, member, client, ⟨contactable, udp⟩, rfl⟩ := spawned
    exact ⟨member, contactable, udp, rfl⟩
  · obtain ⟨client, url, facts⟩ := task
    intro shaped
    obtain ⟨member, contactable, udp, rfl⟩ := shaped
    exact ⟨url, member, client, ⟨contactable, udp⟩, rfl⟩

theorem taskUrls_nodup : ((trackerTasks m peerId listenPort).map (·.url)).Nodup := by
  have urls : ((trackerTasks m peerId listenPort).map (·.url)).Sublist (announceUrls m) := by
    unfold trackerTasks
    induction announceUrls m with
    | nil => exact List.Sublist.refl []
    | cons url later ih =>
      rw [List.filterMap_cons]
      cases spawned : trackerTask m peerId listenPort url with
      | none => exact ih.cons url
      | some task =>
        obtain ⟨client, -, rfl⟩ := Option.map_eq_some_iff.mp spawned
        exact ih.cons_cons url
  exact urls.nodup (announceUrls_nodup m)

theorem gathers_taken (gathers : Gathers m peerId listenPort answer final) :
    final.taken = ⟨pushAll [] (listedPeers (responses answer (trackerTasks m peerId listenPort))),
      (responses answer (trackerTasks m peerId listenPort)).foldl lowerInterval 1800⟩ := by
  obtain ⟨run, complete⟩ := gathers
  rw [run_takes run complete, absorb_all, List.filterMap_map]
  rfl

theorem mem_responses {resp : AnnounceResponse} :
    resp ∈ responses answer (trackerTasks m peerId listenPort) ↔
      ∃ url ∈ announceUrls m, ∃ task, trackerTask m peerId listenPort url = some task ∧
        answer task = .ok (.ok resp) := by
  have spoken : ∀ taskEnd, response? taskEnd = some resp ↔ taskEnd = .ok (.ok resp) := by
    intro taskEnd
    rcases taskEnd with broken | text | other <;> simp [response?]
  simp only [responses, trackerTasks, List.mem_filterMap, spoken]
  constructor
  · intro asked
    obtain ⟨task, ⟨url, member, here⟩, said⟩ := asked
    exact ⟨url, member, task, here, said⟩
  · intro listed
    obtain ⟨url, member, task, here, said⟩ := listed
    exact ⟨task, ⟨url, member, here⟩, said⟩

end Download

theorem trackers_merged (m : Metainfo) (peerId : Vector UInt8 20) (listenPort : UInt16)
    (answer : TrackerTask → TaskEnd) :
    ((announceUrls m).Nodup ∧
      ∀ url, url ∈ announceUrls m ↔ url = m.announce ∨ ∃ tier ∈ m.announceList, url ∈ tier) ∧
    (((trackerTasks m peerId listenPort).map (·.url)).Nodup ∧
      ∀ task, task ∈ trackerTasks m peerId listenPort ↔
        task.url ∈ announceUrls m ∧ Contactable task.url ∧
          (task.client = .udp ↔ "udp://".toList <+: task.url.toList) ∧
          task.facts = ⟨m.infoHash, peerId, listenPort, 0, 0, m.totalLength⟩) ∧
    (∀ order, (∃ final, Gathers m peerId listenPort answer final ∧ final.ended = order) ↔
      order.Perm (List.range (trackerTasks m peerId listenPort).length)) ∧
    (∀ final, Gathers m peerId listenPort answer final →
      MergesExactly (responses answer (trackerTasks m peerId listenPort)) final.taken) ∧
    ∀ final final', Gathers m peerId listenPort answer final →
      Gathers m peerId listenPort answer final' → final.taken = final'.taken := by
  refine ⟨⟨announceUrls_nodup m, fun url => mem_announceUrls⟩,
    ⟨taskUrls_nodup, fun task => mem_trackerTasks⟩, ?_, ?_, ?_⟩
  · intro order
    constructor
    · intro ended
      obtain ⟨final, ⟨run, complete⟩, same⟩ := ended
      rw [← same]
      exact run_ends run complete
    · intro all
      obtain ⟨final, run, complete, same⟩ := run_in_order all
      exact ⟨final, ⟨run, complete⟩, same⟩
  · intro final gathers
    rw [gathers_taken gathers]
    exact merges_exactly _
  · intro final final' gathers gathers'
    rw [gathers_taken gathers, gathers_taken gathers']

end TrackerMerge
