import RustyTorrent.Peer.UpdateHandOver
import RustyTorrent.Peer.OutgoingMessages
import RustyTorrent.Tracker.TrackerAnnounce

/- A connected peer of src/peer/client.rs with all its fields, the calls on it, and what is left
   behind by a run of them between which more bytes arrive. -/
namespace PeerOperations
open RustExec ByteStreams WriteHalves PeerMessage WireFraming PieceBitfield PeerConnection
  HaveRecorded OutgoingMessages TrackerAnnounce

/-- Times are what `Instant::now()` gives. -/
structure PeerStats where
  bytesDownloaded : UInt64
  piecesCompleted : UInt32
  failedAttempts : UInt32
  connectedAt : Nat
  lastActivity : Nat
  deriving DecidableEq, Repr

def PeerStats.new (now : Nat) : PeerStats := ⟨0, 0, 0, now, now⟩

/-- `client` holds the reading half of the stream, `writer` the other. -/
structure ConnectedPeer (W : Type) where
  addr : PeerAddr
  client : PeerClient
  writer : W
  peerId : Vector UInt8 20
  stats : PeerStats
  deriving DecidableEq, Repr

variable {W : Type}

def onClient {α : Type} : Exec PeerClient ClientError α → Exec (ConnectedPeer W) ClientError α :=
  onField (·.client) fun self client => { self with client }

def onWriter {α : Type} : Exec W ClientError α → Exec (ConnectedPeer W) ClientError α :=
  onField (·.writer) fun self writer => { self with writer }

def onStats {α : Type} : Exec PeerStats ClientError α → Exec (ConnectedPeer W) ClientError α :=
  onField (·.stats) fun self stats => { self with stats }

def sendInterested [WriteHalf W] (p : Profile) : Exec (ConnectedPeer W) ClientError Unit :=
  onWriter (mapErr .message (write p (new .interested)))

def sendHave [WriteHalf W] (p : Profile) (index : UInt32) :
    Exec (ConnectedPeer W) ClientError Unit :=
  onWriter (mapErr .message (write p («have» index)))

def sendRequest [WriteHalf W] (p : Profile) (index start length : UInt32) :
    Exec (ConnectedPeer W) ClientError Unit :=
  onWriter (mapErr .message (write p (request index start length)))

/-- `self.stats.last_activity = Instant::now()` -/
def touch (now : Nat) : Exec PeerStats ClientError Unit := do
  let stats ← readState
  writeState { stats with lastActivity := now }

def readMessage (now : Nat) : Exec (ConnectedPeer W) ClientError (Option Message) := do
  let msg ← onClient PeerConnection.readMessage
  onStats (touch now)
  return msg

def handleMessage (p : Profile) (msg : Message) : Exec (ConnectedPeer W) ClientError Unit :=
  onClient (PeerConnection.handleMessage p msg)

def recordDownload (p : Profile) (now : Nat) (bytes : UInt64) :
    Exec (ConnectedPeer W) ClientError Unit :=
  onStats do
    let stats ← readState
    let sum ← unsigned p 64 (stats.bytesDownloaded.toNat + bytes.toNat : Nat)
    writeState { stats with bytesDownloaded := UInt64.ofNat sum }
    touch now

def recordPieceComplete (p : Profile) : Exec (ConnectedPeer W) ClientError Unit :=
  onStats do
    let stats ← readState
    let sum ← unsigned p 32 (stats.piecesCompleted.toNat + 1 : Nat)
    writeState { stats with piecesCompleted := UInt32.ofNat sum }

def recordFailure (p : Profile) : Exec (ConnectedPeer W) ClientError Unit :=
  onStats do
    let stats ← readState
    let sum ← unsigned p 32 (stats.failedAttempts.toNat + 1 : Nat)
    writeState { stats with failedAttempts := UInt32.ofNat sum }

inductive Call where
  | sendInterested
  | sendHave (index : UInt32)
  | sendRequest (index start length : UInt32)
  | readMessage
  | handleMessage (msg : Message)
  | recordDownload (bytes : UInt64)
  | recordPieceComplete
  | recordFailure
  deriving DecidableEq, Repr

def Call.perform [WriteHalf W] (p : Profile) (now : Nat) :
    Call → Exec (ConnectedPeer W) ClientError (Option (Option Message))
  | .sendInterested => do
      PeerOperations.sendInterested p
      return none
  | .sendHave index => do
      PeerOperations.sendHave p index
      return none
  | .sendRequest index start length => do
      PeerOperations.sendRequest p index start length
      return none
  | .readMessage => do
      let msg ← PeerOperations.readMessage now
      return some msg
  | .handleMessage msg => do
      PeerOperations.handleMessage p msg
      return none
  | .recordDownload bytes => do
      PeerOperations.recordDownload p now bytes
      return none
  | .recordPieceComplete => do
      PeerOperations.recordPieceComplete p
      return none
  | .recordFailure => do
      PeerOperations.recordFailure p
      return none

/-- A call that has returned, or bytes that have arrived. -/
inductive PeerEvent where
  | done (now : Nat) (call : Call) (value : Option (Option Message))
  | arrived (bytes : Bytes)
  deriving DecidableEq, Repr

def arrive (x : ConnectedPeer W) (bytes : Bytes) : ConnectedPeer W :=
  { x with client := UpdateHandOver.arrive x.client bytes }

inductive Step [WriteHalf W] (p : Profile) (x : ConnectedPeer W) :
    PeerEvent → ConnectedPeer W → Prop where
  | done {now : Nat} {call : Call} {value : Option (Option Message)} {x' : ConnectedPeer W}
      (returns : Returns (call.perform p now) x value x') : Step p x (.done now call value) x'
  | arrived (bytes : Bytes) : Step p x (.arrived bytes) (arrive x bytes)

inductive Runs [WriteHalf W] (p : Profile) (x : ConnectedPeer W) :
    List PeerEvent → ConnectedPeer W → Prop where
  | start : Runs p x [] x
  | step {events : List PeerEvent} {y z : ConnectedPeer W} {event : PeerEvent}
      (run : Runs p x events y) (step : Step p y event z) : Runs p x (events ++ [event]) z

def Call.message : Call → Option WireMessage
  | .sendInterested => some ⟨new .interested, by decide⟩
  | .sendHave index => some ⟨«have» index, by simp [«have», withPayload]; decide⟩
  | .sendRequest index start length =>
      some ⟨request index start length, by simp [request, withPayload]; decide⟩
  | _ => none

namespace PeerEvent

def sent : PeerEvent → Option WireMessage
  | .done _ call _ => call.message
  | .arrived _ => none

def read : PeerEvent → Option (Option Message)
  | .done _ _ value => value
  | .arrived _ => none

def handled : PeerEvent → Option Message
  | .done _ (.handleMessage msg) _ => some msg
  | _ => none

def bytes : PeerEvent → Bytes
  | .done _ _ _ => []
  | .arrived bytes => bytes

def downloaded : PeerEvent → Nat
  | .done _ (.recordDownload bytes) _ => bytes.toNat
  | _ => 0

def completed : PeerEvent → Nat
  | .done _ .recordPieceComplete _ => 1
  | _ => 0

def failed : PeerEvent → Nat
  | .done _ .recordFailure _ => 1
  | _ => 0

def activity : PeerEvent → Option Nat
  | .done now .readMessage _ => some now
  | .done now (.recordDownload _) _ => some now
  | _ => none

end PeerEvent

/-- A counter of so many bits after an addition: debug builds reach no sum that does not fit. -/
def Counts (p : Profile) (bits before more after : Nat) : Prop :=
  after = (before + more) % 2 ^ bits ∧ (p = .debug → before + more < 2 ^ bits)

/-- What the events account for in a peer. -/
structure Account [WriteHalf W] (p : Profile) (x : ConnectedPeer W) (events : List PeerEvent)
    (y : ConnectedPeer W) : Prop where
  addr : y.addr = x.addr
  peerId : y.peerId = x.peerId
  connectedAt : y.stats.connectedAt = x.stats.connectedAt
  idle : Idle x.writer → Idle y.writer
  handed : Idle x.writer → WriteHalf.handed y.writer =
    WriteHalf.handed x.writer ++ bytesOf (events.filterMap PeerEvent.sent)
  stream : ∃ frames : List Frame,
    frames.map Frame.result = (events.filterMap PeerEvent.read).map .ok ∧
    x.client.stream.arrived ++ events.flatMap PeerEvent.bytes =
      streamOf frames ++ y.client.stream.arrived
  ending : y.client.stream.ending = x.client.stream.ending
  view : ∀ stream, { y.client with stream } =
    handledAll { x.client with stream } (events.filterMap PeerEvent.handled)
  downloaded : Counts p 64 x.stats.bytesDownloaded.toNat (events.map PeerEvent.downloaded).sum
    y.stats.bytesDownloaded.toNat
  completed : Counts p 32 x.stats.piecesCompleted.toNat (events.map PeerEvent.completed).sum
    y.stats.piecesCompleted.toNat
  failed : Counts p 32 x.stats.failedAttempts.toNat (events.map PeerEvent.failed).sum
    y.stats.failedAttempts.toNat
  lastActivity : y.stats.lastActivity =
    (events.filterMap PeerEvent.activity).getLast?.getD x.stats.lastActivity

variable {p : Profile} {x y z : ConnectedPeer W} {events later : List PeerEvent}
  {event : PeerEvent}

theorem counts_none (bits n : Nat) (fits : n < 2 ^ bits) : Counts p bits n 0 n :=
  ⟨(Nat.mod_eq_of_lt fits).symm, fun _ => fits⟩

theorem counts_add {bits a b c m n : Nat} (first : Counts p bits a m b)
    (second : Counts p bits b n c) : Counts p bits a (m + n) c := by
  obtain ⟨same, fits⟩ := first
  obtain ⟨same', fits'⟩ := second
  constructor
  · rw [same', same, Nat.mod_add_mod, Nat.add_assoc]
  · intro debug
    have less := fits debug
    have less' := fits' debug
    rw [same, Nat.mod_eq_of_lt less] at less'
    omega

theorem handledAll_append (c : PeerClient) (one other : List Message) :
    handledAll c (one ++ other) = handledAll (handledAll c one) other :=
  List.foldl_append

theorem returns_sum {bits n more sum : Nat} {s s' : PeerStats}
    (run : Returns (unsigned p bits (n + more : Nat) : Exec PeerStats ClientError Nat) s sum s') :
    s' = s ∧ Counts p bits n more sum :=
  returns_unsigned_nat.mp run

def hasRead (x : ConnectedPeer W) (now : Nat) (rest : Bytes) : ConnectedPeer W :=
  { x with client := { x.client with stream := ⟨rest, x.client.stream.ending⟩ },
           stats := { x.stats with lastActivity := now } }

theorem returns_readMessage {now : Nat} {o : Option Message} :
    Returns (readMessage now) x o y ↔ ∃ (frame : Frame) (rest : Bytes), frame.result = .ok o ∧
      x.client.stream.arrived = frame.bytes ++ rest ∧ y = hasRead x now rest := by
  have touched (x : ConnectedPeer W) : Returns (onStats (touch now)) x ()
      { x with stats := { x.stats with lastActivity := now } } := by
    refine returns_onField.mpr ⟨_, ?_, rfl⟩
    rw [touch, returns_readState_bind]
    exact ⟨rfl, rfl⟩
  have last {o' : Option Message} {x' : ConnectedPeer W} :
      Returns (onStats (touch now) >>= fun _ => pure o') x' o y ↔
        o' = o ∧ { x' with stats := { x'.stats with lastActivity := now } } = y := by
    rw [returns_bind_step (touched x'), returns_pure]
  unfold readMessage
  rw [returns_bind]
  constructor
  · intro run
    obtain ⟨o', x', first, rest⟩ := run
    obtain ⟨rfl, rfl⟩ := last.mp rest
    obtain ⟨c, received, rfl⟩ := returns_onField.mp first
    obtain ⟨stream, taken, rfl⟩ := returns_onField.mp received
    obtain ⟨frame, result, split, ending⟩ := returns_read.mp (returns_mapErr.mp taken)
    refine ⟨frame, stream.arrived, result, split, ?_⟩
    rw [hasRead, ← ending]
  · intro parts
    obtain ⟨frame, rest, result, split, rfl⟩ := parts
    have received : Returns PeerConnection.readMessage x.client o
        { x.client with stream := ⟨rest, x.client.stream.ending⟩ } :=
      UpdateHandOver.receive_frame result (Reader.ext split rfl)
    exact ⟨o, _, returns_onField.mpr ⟨_, received, rfl⟩, last.mpr ⟨rfl, rfl⟩⟩

theorem returns_recordDownload {now : Nat} {bytes : UInt64} {value : Unit}
    (run : Returns (recordDownload p now bytes) x value y) :
    ∃ sum : UInt64, Counts p 64 x.stats.bytesDownloaded.toNat bytes.toNat sum.toNat ∧
      y = { x with stats := { x.stats with bytesDownloaded := sum, lastActivity := now } } := by
  obtain ⟨stats, counted, rfl⟩ := returns_onField.mp run
  rw [returns_readState_bind] at counted
  obtain ⟨sum, middle, add, rest⟩ := returns_bind.mp counted
  obtain ⟨rfl, counts⟩ := returns_sum add
  rw [returns_writeState_bind, touch, returns_readState_bind, returns_writeState] at rest
  have small : sum < 2 ^ 64 := counts.1 ▸ Nat.mod_lt _ (by decide)
  refine ⟨UInt64.ofNat sum, ?_, by rw [rest]⟩
  rw [UInt64.toNat_ofNat', Nat.mod_eq_of_lt small]
  exact counts

theorem returns_counted (get : PeerStats → UInt32) (set : PeerStats → UInt32 → PeerStats)
    {value : Unit}
    (run : Returns (onStats do
      let stats ← readState
      let sum ← unsigned p 32 ((get stats).toNat + 1 : Nat)
      writeState (set stats (UInt32.ofNat sum))) x value y) :
    ∃ sum : UInt32, Counts p 32 (get x.stats).toNat 1 sum.toNat ∧
      y = { x with stats := set x.stats sum } := by
  obtain ⟨stats, counted, rfl⟩ := returns_onField.mp run
  rw [returns_readState_bind] at counted
  obtain ⟨sum, middle, add, rest⟩ := returns_bind.mp counted
  obtain ⟨rfl, counts⟩ := returns_sum add
  rw [returns_writeState] at rest
  have small : sum < 2 ^ 32 := counts.1 ▸ Nat.mod_lt _ (by decide)
  refine ⟨UInt32.ofNat sum, ?_, by rw [rest]⟩
  rw [UInt32.toNat_ofNat', Nat.mod_eq_of_lt small]
  exact counts

theorem returns_unit {f : Exec (ConnectedPeer W) ClientError Unit} {value : Option (Option Message)}
    (run : Returns (do
      f
      return none) x value y) : value = none ∧ Returns f x () y := by
  obtain ⟨u, y', first, last⟩ := returns_bind.mp run
  obtain ⟨rfl, rfl⟩ := returns_pure.mp last
  exact ⟨rfl, first⟩

section Accounts
variable [WriteHalf W]

theorem account_append (first : Account p x events y) (second : Account p y later z) :
    Account p x (events ++ later) z := by
  constructor
  · rw [second.addr, first.addr]
  · rw [second.peerId, first.peerId]
  · rw [second.connectedAt, first.connectedAt]
  · exact fun idle => second.idle (first.idle idle)
  · intro idle
    rw [second.handed (first.idle idle), first.handed idle, List.filterMap_append, bytesOf,
      bytesOf, bytesOf, List.flatMap_append, List.append_assoc]
  · obtain ⟨frames, results, split⟩ := first.stream
    obtain ⟨frames', results', split'⟩ := second.stream
    refine ⟨frames ++ frames', ?_, ?_⟩
    · rw [List.map_append, results, results', List.filterMap_append, List.map_append]
    · rw [List.flatMap_append, ← List.append_assoc, split, List.append_assoc, split',
        BitfieldRule.streamOf_append, List.append_assoc]
  · rw [second.ending, first.ending]
  · intro stream
    rw [second.view, first.view, List.filterMap_append, handledAll_append]
  · rw [List.map_append, List.sum_append]
    exact counts_add first.downloaded second.downloaded
  · rw [List.map_append, List.sum_append]
    exact counts_add first.completed second.completed
  · rw [List.map_append, List.sum_append]
    exact counts_add first.failed second.failed
  · rw [second.lastActivity, first.lastActivity, List.filterMap_append, List.getLast?_append]
    cases (later.filterMap PeerEvent.activity).getLast? <;> rfl

section Single
variable {now : Nat} {call : Call}

theorem account_send {m : WireMessage} {w : W} (message : call.message = some m)
    (sent : Idle x.writer →
      WriteHalf.handed w = WriteHalf.handed x.writer ++ m.frame.bytes ∧ Idle w) :
    Account p x [.done now call none] { x with writer := w } := by
  have handed (idle : Idle x.writer) : WriteHalf.handed w = WriteHalf.handed x.writer ++
      bytesOf ([PeerEvent.done now call none].filterMap PeerEvent.sent) := by
    have sends : (PeerEvent.done now call none).sent = some m := message
    rw [List.filterMap_cons_some sends, List.filterMap_nil, bytesOf, List.flatMap_singleton]
    exact (sent idle).1
  cases call with
  | sendInterested | sendHave index | sendRequest index start length =>
    exact ⟨rfl, rfl, rfl, fun idle => (sent idle).2, handed, ⟨[], rfl, List.append_nil _⟩, rfl,
      fun _ => rfl, counts_none _ _ (UInt64.toNat_lt _), counts_none _ _ (UInt32.toNat_lt _),
      counts_none _ _ (UInt32.toNat_lt _), rfl⟩
  | _ => cases message

theorem account_read {frame : Frame} {o : Option Message} {rest : Bytes}
    (result : frame.result = .ok o) (arrived : x.client.stream.arrived = frame.bytes ++ rest) :
    Account p x [.done now .readMessage (some o)]
      { x with client := { x.client with stream := ⟨rest, x.client.stream.ending⟩ },
               stats := { x.stats with lastActivity := now } } := by
  refine ⟨rfl, rfl, rfl, id, fun _ => (List.append_nil _).symm, ⟨[frame], ?_, ?_⟩, rfl,
    fun _ => rfl, counts_none _ _ (UInt64.toNat_lt _), counts_none _ _ (UInt32.toNat_lt _),
    counts_none _ _ (UInt32.toNat_lt _), rfl⟩
  · rw [List.map_singleton, result]
    rfl
  · rw [arrived, streamOf, List.flatMap_singleton, List.flatMap_singleton]
    exact List.append_nil _

theorem account_handle (msg : Message) :
    Account p x [.done now (.handleMessage msg) none] { x with client := handled x.client msg } :=
  ⟨rfl, rfl, rfl, id, fun _ => (List.append_nil _).symm, ⟨[], rfl, List.append_nil _⟩, rfl,
    fun _ => rfl, counts_none _ _ (UInt64.toNat_lt _), counts_none _ _ (UInt32.toNat_lt _),
    counts_none _ _ (UInt32.toNat_lt _), rfl⟩

theorem account_arrive (bytes : Bytes) : Account p x [.arrived bytes] (arrive x bytes) := by
  refine ⟨rfl, rfl, rfl, id, fun _ => (List.append_nil _).symm, ⟨[], rfl, ?_⟩, rfl,
    fun _ => rfl, counts_none _ _ (UInt64.toNat_lt _), counts_none _ _ (UInt32.toNat_lt _),
    counts_none _ _ (UInt32.toNat_lt _), rfl⟩
  rw [List.flatMap_singleton]
  rfl

theorem account_download {bytes : UInt64} {sum : UInt64}
    (counts : Counts p 64 x.stats.bytesDownloaded.toNat bytes.toNat sum.toNat) :
    Account p x [.done now (.recordDownload bytes) none]
      { x with stats := { x.stats with bytesDownloaded := sum, lastActivity := now } } :=
  ⟨rfl, rfl, rfl, id, fun _ => (List.append_nil _).symm, ⟨[], rfl, List.append_nil _⟩, rfl,
    fun _ => rfl, counts, counts_none _ _ (UInt32.toNat_lt _), counts_none _ _ (UInt32.toNat_lt _),
    rfl⟩

theorem account_complete {sum : UInt32}
    (counts : Counts p 32 x.stats.piecesCompleted.toNat 1 sum.toNat) :
    Account p x [.done now .recordPieceComplete none]
      { x with stats := { x.stats with piecesCompleted := sum } } :=
  ⟨rfl, rfl, rfl, id, fun _ => (List.append_nil _).symm, ⟨[], rfl, List.append_nil _⟩, rfl,
    fun _ => rfl, counts_none _ _ (UInt64.toNat_lt _), counts, counts_none _ _ (UInt32.toNat_lt _),
    rfl⟩

theorem account_failure {sum : UInt32}
    (counts : Counts p 32 x.stats.failedAttempts.toNat 1 sum.toNat) :
    Account p x [.done now .recordFailure none]
      { x with stats := { x.stats with failedAttempts := sum } } :=
  ⟨rfl, rfl, rfl, id, fun _ => (List.append_nil _).symm, ⟨[], rfl, List.append_nil _⟩, rfl,
    fun _ => rfl, counts_none _ _ (UInt64.toNat_lt _), counts_none _ _ (UInt32.toNat_lt _), counts,
    rfl⟩

end Single

theorem returns_write {m : WireMessage} {w w' : W}
    (run : Returns (mapErr ClientError.message (write p m.1)) w () w') (idle : Idle w) :
    WriteHalf.handed w' = WriteHalf.handed w ++ m.frame.bytes ∧ Idle w' := by
  have wrote := (returns_of_leads (write_leads m w)).mp (returns_mapErr.mp run)
  exact put_returned idle (frame_some m) wrote

theorem account_sends {now : Nat} {call : Call} {m : WireMessage} {value : Unit}
    (message : call.message = some m)
    (run : Returns (onWriter (mapErr ClientError.message (write p m.1))) x value y) :
    Account p x [.done now call none] y := by
  obtain ⟨w, wrote, rfl⟩ := returns_onField.mp run
  exact account_send message (returns_write wrote)

theorem step_account (step : Step p x event y) : Account p x [event] y := by
  cases step with
  | arrived bytes => exact account_arrive bytes
  | @done now call value _ returns =>
    cases call with
    | readMessage =>
      obtain ⟨o, y', run, last⟩ := returns_bind.mp returns
      obtain ⟨rfl, rfl⟩ := returns_pure.mp last
      obtain ⟨frame, rest, result, split, rfl⟩ := returns_readMessage.mp run
      exact account_read result split
    | sendInterested | sendHave index | sendRequest index start length =>
      obtain ⟨rfl, run⟩ := returns_unit returns
      exact account_sends rfl run
    | handleMessage msg =>
      obtain ⟨rfl, run⟩ := returns_unit returns
      obtain ⟨c, handles, rfl⟩ := returns_onField.mp run
      obtain rfl := returns_handleMessage.mp handles
      exact account_handle msg
    | recordDownload bytes =>
      obtain ⟨rfl, run⟩ := returns_unit returns
      obtain ⟨sum, counts, rfl⟩ := returns_recordDownload run
      exact account_download counts
    | recordPieceComplete =>
      obtain ⟨rfl, run⟩ := returns_unit returns
      obtain ⟨sum, counts, rfl⟩ := returns_counted (·.piecesCompleted)
        (fun stats piecesCompleted => { stats with piecesCompleted }) run
      exact account_complete counts
    | recordFailure =>
      obtain ⟨rfl, run⟩ := returns_unit returns
      obtain ⟨sum, counts, rfl⟩ := returns_counted (·.failedAttempts)
        (fun stats failedAttempts => { stats with failedAttempts }) run
      exact account_failure counts

theorem account_start : Account p x [] x :=
  ⟨rfl, rfl, rfl, id, fun _ => (List.append_nil _).symm, ⟨[], rfl, List.append_nil _⟩, rfl,
    fun _ => rfl, counts_none _ _ (UInt64.toNat_lt _), counts_none _ _ (UInt32.toNat_lt _),
    counts_none _ _ (UInt32.toNat_lt _), rfl⟩

/-- A peer after any run of calls, between which bytes arrive, is what its events account for. -/
theorem run_account (run : Runs p x events y) : Account p x events y := by
  induction run with
  | start => exact account_start
  | step run step ih => exact account_append ih (step_account step)

end Accounts

def idlePeer : ConnectedPeer BufferedWriters.Writer where
  addr := ⟨.v4 ⟨127, 0, 0, 1⟩, 6881⟩
  client := ⟨⟨[], .silent⟩, true, ⟨[0], 8⟩⟩
  writer := BufferedWriters.Writer.start none .silent
  peerId := Vector.replicate 20 0
  stats := PeerStats.new 0

def unchokedDownload : List PeerEvent :=
  [.arrived [0, 0, 0, 1, 1], .done 5 .readMessage (some (some (new .unchoke))),
    .done 5 (.handleMessage (new .unchoke)) none, .done 6 (.sendRequest 0 0 4) none,
    .done 9 (.recordDownload 4) none]

theorem run_account_download : ∃ y, Account .debug idlePeer unchokedDownload y ∧
    y.client.choked = false ∧ y.stats.bytesDownloaded = 4 ∧ y.stats.lastActivity = 9 ∧
      y.writer.handed.length = 17 := by
  have run : Runs .debug idlePeer unchokedDownload _ :=
    .step (.step (.step (.step (.step .start (.arrived _)) (.done ⟨by decide +kernel, rfl⟩))
      (.done ⟨by decide +kernel, rfl⟩)) (.done ⟨by decide +kernel, rfl⟩))
      (.done ⟨by decide +kernel, rfl⟩)
  exact ⟨_, run_account run, by decide +kernel⟩

end PeerOperations
