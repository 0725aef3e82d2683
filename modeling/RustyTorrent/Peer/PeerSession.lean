import Mathlib.Order.GameAdd
import RustyTorrent.Library.FramedPipes
import RustyTorrent.Library.TwoSides
import RustyTorrent.Peer.PeerOperations

/- Two connected peers at the ends of one connection: any calls at either end, in any order, and
   what is under way arrives in pieces. Each direction is a pipe of messages. -/
namespace PeerSession
open RustExec ByteStreams WriteHalves TwoSides FramedPipes PeerMessage WireFraming PeerConnection
  HaveRecorded OutgoingMessages PeerOperations Relation

variable {W : Type}

/-- `coming` has been handed over by the other end and has not arrived. -/
structure End (W : Type) where
  peer : ConnectedPeer W
  events : List PeerEvent
  coming : Bytes

abbrev Session (W : Type) := Side → End W

def Session.start (peers : Side → ConnectedPeer W) : Session W := fun side => ⟨peers side, [], []⟩

abbrev Session.set (x : Session W) (side : Side) (one : End W) (handed : Bytes) : Session W :=
  exchange x side one fun y => { y with coming := y.coming ++ handed }

def End.after (x : End W) (event : PeerEvent) (peer : ConnectedPeer W) : End W :=
  { x with peer, events := x.events ++ [event] }

def Session.called [WriteHalf W] (x : Session W) (side : Side) (event : PeerEvent)
    (peer : ConnectedPeer W) : Session W :=
  x.set side ((x side).after event peer)
    ((WriteHalf.handed peer.writer).drop (WriteHalf.handed (x side).peer.writer).length)

inductive Receives (x : Session W) : Session W → Prop where
  | deliver {side : Side} {chunk rest : Bytes} (coming : (x side).coming = chunk ++ rest)
      (some : chunk ≠ []) :
      Receives x (x.set side ⟨arrive (x side).peer chunk, (x side).events ++ [.arrived chunk], rest⟩
        [])
  | read {side : Side} {now : Nat} {o : Option Message} {peer : ConnectedPeer W}
      (returns : Returns (PeerOperations.readMessage now) (x side).peer o peer) :
      Receives x (x.set side ((x side).after (.done now .readMessage (some o)) peer) [])

inductive Step [WriteHalf W] (p : Profile) (x : Session W) : Session W → Prop where
  | receives {x' : Session W} (receives : Receives x x') : Step p x x'
  | call {side : Side} {now : Nat} {call : Call} {peer : ConnectedPeer W}
      (other : call ≠ .readMessage)
      (returns : Returns (call.perform p now) (x side).peer none peer) :
      Step p x (x.called side (.done now call none) peer)

/-- An end of a connection that takes everything, with nothing on it. -/
structure Fresh [WriteHalf W] (x : ConnectedPeer W) : Prop where
  endless : Endless x.writer
  stream : x.client.stream = ⟨[], .silent⟩

def End.sent (x : End W) : List WireMessage := x.events.filterMap PeerEvent.sent

def End.got (x : End W) : List (Option Message) := x.events.filterMap PeerEvent.read

def End.handled (x : End W) : List Message := x.events.filterMap PeerEvent.handled

/-- The direction to an end. -/
def pipe (x : Session W) (side : Side) : Pipe WireMessage (Option Message) Unit where
  sent := (x side.other).sent
  travelling := (x side).coming
  arrived := (x side).peer.client.stream.arrived
  received := (x side).got
  state := ()

theorem read_consumes {text rest : Bytes} {o : Option Message}
    (reads : Returns Message.read ⟨text, .silent⟩ o ⟨rest, .silent⟩) :
    rest.length < text.length := by
  obtain ⟨frame, -, split, -⟩ := returns_read.mp reads
  have long := TimeoutStep.frame_long frame
  have length := congrArg List.length split
  rw [List.length_append] at length
  simp only at length
  omega

theorem read_message (m : WireMessage) (rest : Bytes) :
    Returns Message.read ⟨m.frame.bytes ++ rest, .silent⟩ (some m.1) ⟨rest, .silent⟩ := by
  obtain ⟨outcome, state⟩ := read_frame m.frame rest .silent
  exact ⟨outcome.trans (frame_result m), state⟩

def framing : Framing MessageError WireMessage (Option Message) where
  encode m := m.frame.bytes
  read := Message.read
  result m := some m.1
  whole := read_message
  cut _ _ starts proper := (read_part starts proper .silent).1
  idle := rfl
  consumes := read_consumes

def ignore (_ : Unit) (_ : Option Message) : Unit := ()

variable {p : Profile} {x x' : Session W} {peers : Side → ConnectedPeer W} {side here : Side}

section Directions
variable (x : Session W) (side : Side) (one : End W) (handed : Bytes)

theorem pipe_same : pipe (x.set side one handed) side =
    ⟨(x side.other).sent, one.coming, one.peer.client.stream.arrived, one.got, ()⟩ := by
  simp only [pipe, exchange_same, exchange_other]
  rfl

theorem pipe_other : pipe (x.set side one handed) side.other =
    { pipe x side.other with sent := one.sent, travelling := (x side.other).coming ++ handed } := by
  simp only [pipe, exchange_same, exchange_other, other_other]
  rfl

end Directions

section Events
variable {one next : End W} {event : PeerEvent}

theorem sent_of_events (events : next.events = one.events ++ [event]) :
    next.sent = one.sent ++ event.sent.toList := by
  rw [End.sent, events, List.filterMap_append]
  rfl

theorem got_of_events (events : next.events = one.events ++ [event]) :
    next.got = one.got ++ event.read.toList := by
  rw [End.got, events, List.filterMap_append]
  rfl

end Events

theorem read_front {frame : Frame} {o : Option Message} (rest : Bytes)
    (result : frame.result = .ok o) :
    Returns Message.read ⟨frame.bytes ++ rest, .silent⟩ o ⟨rest, .silent⟩ :=
  returns_read.mpr ⟨frame, result, rfl, rfl⟩

theorem receives_pipe (receives : Receives x x') :
    ∃ side, Works framing ignore (pipe x side) (pipe x' side) ∧
      pipe x' side.other = pipe x side.other := by
  cases receives with
  | @deliver side chunk rest coming some =>
    refine ⟨side, ?_, ?_⟩
    · rw [pipe_same]
      have moves : Works framing ignore (pipe x side) _ := .deliver coming some
      have got : (End.mk (arrive (x side).peer chunk) ((x side).events ++ [.arrived chunk])
          rest).got = (x side).got := (got_of_events rfl).trans (List.append_nil _)
      rw [got]
      exact moves
    · rw [pipe_other, List.append_nil]
      have sent : (End.mk (arrive (x side).peer chunk) ((x side).events ++ [.arrived chunk])
          rest).sent = (x side).sent := (sent_of_events rfl).trans (List.append_nil _)
      rw [sent]
      simp only [pipe, other_other]
  | @read side now o peer returns =>
    obtain ⟨frame, rest, result, split, rfl⟩ := returns_readMessage.mp returns
    refine ⟨side, ?_, ?_⟩
    · rw [pipe_same]
      have reads := read_front rest result
      rw [← split] at reads
      have moves : Works framing ignore (pipe x side) _ := .receive reads
      have got : ((x side).after (.done now .readMessage (some o))
          (hasRead (x side).peer now rest)).got = (x side).got ++ [o] :=
        @got_of_events W _ _ (.done now .readMessage (some o)) rfl
      rw [got]
      exact moves
    · rw [pipe_other, List.append_nil]
      have sent : ((x side).after (.done now .readMessage (some o))
          (hasRead (x side).peer now rest)).sent = (x side).sent :=
        (sent_of_events rfl).trans (List.append_nil _)
      rw [sent]
      simp only [pipe, other_other]

theorem receives_wellFounded : WellFounded fun x' x : Session W => Receives x x' := by
  have pipes : WellFounded fun y' y => Works framing ignore y y' := works_wellFounded
  apply Subrelation.wf _ (InvImage.wf (fun x => (pipe x .left, pipe x .right))
    (pipes.prod_gameAdd pipes))
  intro x' x receives
  obtain ⟨side, works, same⟩ := receives_pipe receives
  change Prod.GameAdd _ _ (pipe x' .left, pipe x' .right) (pipe x .left, pipe x .right)
  cases side with
  | left =>
    rw [show pipe x' .right = pipe x .right from same]
    exact .fst works
  | right =>
    rw [show pipe x' .left = pipe x .left from same]
    exact .snd works

theorem receives_sent (receives : Receives x x') (side : Side) :
    (x' side).sent = (x side).sent := by
  obtain ⟨here, works, same⟩ := receives_pipe receives
  have sent := congrArg Pipe.sent same
  rcases eq_or_other side here with rfl | rfl
  · simpa [pipe] using sent
  · exact works_sent works

theorem call_pipe [WriteHalf W] {now : Nat} {call : Call} {peer : ConnectedPeer W}
    (idle : Idle (x side).peer.writer)
    (returns : Returns (call.perform p now) (x side).peer none peer) (here : Side) :
    pipe (x.called side (.done now call none) peer) here = pipe x here ∨
      ∃ m, pipe (x.called side (.done now call none) peer) here =
        (pipe x here).send framing m := by
  have account := step_account (.done returns)
  have handed := account.handed idle
  obtain ⟨frames, none, still⟩ := account.stream
  obtain rfl := List.map_eq_nil_iff.mp none
  rcases eq_or_other here side with rfl | rfl
  · left
    rw [Session.called, pipe_same]
    have got : ((x here).after (.done now call Option.none) peer).got = (x here).got :=
      (got_of_events rfl).trans (List.append_nil _)
    have arrived : (x here).peer.client.stream.arrived = peer.client.stream.arrived := by
      rw [List.flatMap_singleton] at still
      exact (List.append_nil _).symm.trans still
    rw [got, End.after, ← arrived]
    rfl
  · have sent : ((x side).after (.done now call Option.none) peer).sent =
        (x side).sent ++ call.message.toList :=
      @sent_of_events W _ _ (.done now call Option.none) rfl
    have more : [PeerEvent.done now call Option.none].filterMap PeerEvent.sent =
        call.message.toList := rfl
    rw [Session.called, pipe_other, handed, List.drop_left, sent, more]
    cases call.message with
    | none =>
      left
      rw [Option.toList_none, bytesOf, List.flatMap_nil, List.append_nil, List.append_nil]
      simp only [pipe, other_other]
    | some m =>
      right
      refine ⟨m, ?_⟩
      rw [Option.toList_some, bytesOf, List.flatMap_singleton, Pipe.send]
      simp only [pipe, other_other]
      rfl

theorem returns_call [WriteHalf W] {now : Nat} {o : Option Message} {c c' : ConnectedPeer W}
    (returns : Returns (PeerOperations.readMessage now) c o c') :
    Returns (Call.readMessage.perform p now) c (some o) c' :=
  returns_bind.mpr ⟨o, c', returns, returns_value _ _⟩

theorem readMessage_ok {c : ConnectedPeer W} {now : Nat} {o : Option Message}
    (outcome : (Message.read ⟨c.client.stream.arrived, .silent⟩).outcome = .ok o) :
    (PeerOperations.readMessage now c).outcome = .ok o := by
  obtain ⟨frame, result, split, -⟩ := returns_read.mp ⟨outcome, rfl⟩
  exact (returns_readMessage.mpr ⟨frame, _, result, split, rfl⟩).1

theorem readMessage_waits {c : ConnectedPeer W} {now : Nat}
    (silent : c.client.stream.ending = .silent)
    (outcome : (Message.read ⟨c.client.stream.arrived, .silent⟩).outcome = .pending) :
    (PeerOperations.readMessage now c).outcome = .pending := by
  have here : c.client.stream = ⟨c.client.stream.arrived, .silent⟩ := Reader.ext rfl silent
  have waits : Waits (onClient PeerConnection.readMessage) c
      (onClient PeerConnection.readMessage c).state := by
    refine ⟨?_, rfl⟩
    rw [← here] at outcome
    exact (waits_mapErr (g := ClientError.message) ⟨outcome, rfl⟩).1
  exact (waits_bind_first waits).1

/-- What an end has read is the start of what the other has sent. -/
structure ReadsSent (x : Session W) (side : Side) : Prop where
  fewer : (x side).got.length ≤ (x side.other).sent.length
  got : (x side).got =
    ((x side.other).sent.take (x side).got.length).map fun m => some m.1

section Sessions
variable [WriteHalf W]

def Accounted (p : Profile) (peers : Side → ConnectedPeer W) (x : Session W) : Prop :=
  ∀ side, Account p (peers side) (x side).events (x side).peer

theorem accounted_set {one : End W} {handed : Bytes} {event : PeerEvent}
    (accounted : Accounted p peers x) (step : PeerOperations.Step p (x side).peer event one.peer)
    (events : one.events = (x side).events ++ [event]) :
    Accounted p peers (x.set side one handed) := by
  intro here
  rcases eq_or_other here side with rfl | rfl
  · rw [Session.set, exchange_same, events]
    exact account_append (accounted here) (step_account step)
  · rw [Session.set, exchange_other]
    exact accounted side.other

theorem step_accounted (accounted : Accounted p peers x) (step : Step p x x') :
    Accounted p peers x' := by
  cases step with
  | receives receives =>
    cases receives with
    | deliver coming some => exact accounted_set accounted (.arrived _) rfl
    | read returns => exact accounted_set accounted (.done (returns_call returns)) rfl
  | call other returns => exact accounted_set accounted (.done returns) rfl

theorem step_pipe (fresh : ∀ side, Fresh (peers side)) (accounted : Accounted p peers x)
    (step : Step p x x') (here : Side) :
    pipe x' here = pipe x here ∨ FramedPipes.Step framing ignore (pipe x here) (pipe x' here) := by
  cases step with
  | receives receives =>
    obtain ⟨side, works, same⟩ := receives_pipe receives
    rcases eq_or_other here side with rfl | rfl
    · exact Or.inr (.works works)
    · exact Or.inl same
  | @call side now call peer other returns =>
    have idle := (accounted side).idle (endless_idle (fresh side).endless)
    rcases call_pipe idle returns here with same | ⟨m, sends⟩
    · exact Or.inl same
    · right
      rw [sends]
      exact .send m

abbrev Reachable (p : Profile) (peers : Side → ConnectedPeer W) : Session W → Prop :=
  ReflTransGen (Step p) (Session.start peers)

theorem reachable_accounted (reachable : Reachable p peers x) : Accounted p peers x := by
  induction reachable with
  | refl => exact fun side => account_start
  | tail _ step ih => exact step_accounted ih step

theorem reachable_pipe (fresh : ∀ side, Fresh (peers side)) (reachable : Reachable p peers x)
    (side : Side) :
    ReflTransGen (FramedPipes.Step framing ignore) (Pipe.start ()) (pipe x side) := by
  induction reachable with
  | refl =>
    have start : pipe (Session.start peers) side = Pipe.start () := by
      simp only [pipe, Session.start, (fresh side).stream]
      rfl
    rw [start]
  | tail before step ih =>
    rcases step_pipe fresh (reachable_accounted before) step side with same | next
    · rw [same]
      exact ih
    · exact ih.tail next

theorem reachable_reads (fresh : ∀ side, Fresh (peers side)) (reachable : Reachable p peers x)
    (side : Side) : ReadsSent x side := by
  have order := run_in_order (reachable_pipe fresh reachable side)
  exact ⟨order.fewer, order.received⟩

end Sessions

/-- In every session, an end has read the first messages that the other has sent, each once and in
    order, and its next read_message gives the next of them or waits. -/
theorem session_in_order {W : Type} [WriteHalf W] (p : Profile) {peers : Side → ConnectedPeer W}
    (fresh : ∀ side, Fresh (peers side)) {x : Session W} (reachable : Reachable p peers x)
    (side : Side) :
    ReadsSent x side ∧ Account p (peers side) (x side).events (x side).peer ∧
      ∀ now, (∃ m, (x side.other).sent[(x side).got.length]? = some m ∧
          (PeerOperations.readMessage now (x side).peer).outcome = .ok (some m.1)) ∨
        (PeerOperations.readMessage now (x side).peer).outcome = .pending := by
  have order := run_in_order (reachable_pipe fresh reachable side)
  have account := reachable_accounted reachable side
  have silent : (x side).peer.client.stream.ending = .silent := by
    rw [account.ending, (fresh side).stream]
  refine ⟨reachable_reads fresh reachable side, account, ?_⟩
  intro now
  rcases order.next with ⟨m, next, outcome⟩ | waits
  · exact Or.inl ⟨m, next, readMessage_ok outcome⟩
  · exact Or.inr (readMessage_waits silent waits)

theorem receives_or_read [WriteHalf W] (fresh : ∀ side, Fresh (peers side))
    (reachable : Reachable p peers x) (side : Side) :
    (∃ x', Receives x x') ∨ (x side).got = (x side.other).sent.map fun m => some m.1 := by
  rcases works_or_all_received (reachable_pipe fresh reachable side) with ⟨y, works⟩ | all
  · left
    cases works with
    | deliver travels some => exact ⟨_, .deliver travels some⟩
    | receive reads =>
      obtain ⟨frame, result, split, -⟩ := returns_read.mp reads
      have returns : Returns (PeerOperations.readMessage 0) (x side).peer _ _ :=
        returns_readMessage.mpr ⟨frame, _, result, split, rfl⟩
      exact ⟨_, .read returns⟩
  · exact Or.inr all

/-- However what is under way is received, this comes to an end, and then both ends have read
    all that the other has sent. -/
theorem session_delivers {W : Type} [WriteHalf W] (p : Profile) {peers : Side → ConnectedPeer W}
    (fresh : ∀ side, Fresh (peers side)) {x : Session W} (reachable : Reachable p peers x) :
    Acc (fun y' y : Session W => Receives y y') x ∧
      ∀ y, ReflTransGen Receives x y → (¬ ∃ y', Receives y y') →
        ∀ side, (y side).got = (x side.other).sent.map fun m => some m.1 := by
  refine ⟨receives_wellFounded.apply x, ?_⟩
  intro y run rests side
  have steps : ReflTransGen (Step p) x y :=
    ReflTransGen.mono (fun _ _ receives => Step.receives receives) _ _ run
  have onward : Reachable p peers y := reachable.trans steps
  have sent : (y side.other).sent = (x side.other).sent := by
    clear rests steps onward
    induction run with
    | refl => rfl
    | tail _ receives ih => rw [receives_sent receives, ih]
  rw [← sent]
  exact (receives_or_read fresh onward side).resolve_left rests

theorem idle_fresh : ∀ _ : Side, Fresh idlePeer := fun _ => ⟨endless_start, rfl⟩

def sentHave : Session BufferedWriters.Writer :=
  (Session.start fun _ => idlePeer).called .left (.done 0 (.sendHave 3) none)
    ((Call.sendHave 3).perform .debug 0 idlePeer).state

def arrivedHave : Session BufferedWriters.Writer :=
  sentHave.set .right ⟨arrive idlePeer [0, 0, 0, 5, 4, 0, 0, 0, 3],
    [.arrived [0, 0, 0, 5, 4, 0, 0, 0, 3]], []⟩ []

def readHave : Session BufferedWriters.Writer :=
  arrivedHave.set .right ((arrivedHave .right).after
    (.done 1 .readMessage (some (some («have» 3)))) (hasRead (arrivedHave .right).peer 1 [])) []

theorem arrivedHave_reachable : Reachable .debug (fun _ => idlePeer) arrivedHave := by
  have sends : Step .debug (Session.start fun _ => idlePeer) sentHave :=
    @Step.call _ _ .debug _ .left 0 (.sendHave 3) _ (by decide) ⟨by decide +kernel, rfl⟩
  have arrives : Receives sentHave arrivedHave :=
    @Receives.deliver _ sentHave .right [0, 0, 0, 5, 4, 0, 0, 0, 3] [] (by decide +kernel)
      (by decide)
  exact (ReflTransGen.refl.tail sends).tail (.receives arrives)

theorem readHave_received : Receives arrivedHave readHave :=
  .read (returns_readMessage.mpr
    ⟨.message 4 [0, 0, 0, 3] (by decide), [], by decide +kernel, by decide +kernel, rfl⟩)

theorem readHave_reachable : Reachable .debug (fun _ => idlePeer) readHave :=
  arrivedHave_reachable.tail (.receives readHave_received)

theorem readHave_rests : ¬ ∃ y, Receives readHave y := by
  intro goesOn
  obtain ⟨y, receives⟩ := goesOn
  cases receives with
  | @deliver side chunk rest coming some =>
    have none : (readHave side).coming = [] := by
      cases side <;> decide +kernel
    rw [none] at coming
    exact some (List.append_eq_nil_iff.mp coming.symm).1
  | @read side now o peer returns =>
    have none : (readHave side).peer.client.stream.arrived = [] := by
      cases side <;> decide +kernel
    obtain ⟨frame, rest, -, split, -⟩ := returns_readMessage.mp returns
    have long := TimeoutStep.frame_long frame
    rw [none] at split
    rw [(List.append_eq_nil_iff.mp split.symm).1] at long
    cases long

theorem session_in_order_have :
    (readHave .right).got = [some («have» 3)] ∧ ReadsSent readHave .right :=
  ⟨by decide +kernel, (session_in_order .debug idle_fresh readHave_reachable .right).1⟩

theorem session_delivers_have : (readHave .right).got = [some («have» 3)] := by
  have delivered := (session_delivers .debug idle_fresh arrivedHave_reachable).2 readHave
    (.single readHave_received) readHave_rests .right
  exact delivered.trans (by decide +kernel)

end PeerSession
