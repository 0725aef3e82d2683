import RustyTorrent.Peer.PeerOperations

/- What the overflow checks of a debug build change about a connected peer. -/
namespace CheckedCounters
open RustExec WriteHalves PeerMessage PeerConnection HaveRecorded OutgoingMessages
  PeerOperations

variable {W : Type} {p q : Profile} {x y z : ConnectedPeer W} {events : List PeerEvent}

/-- What the events add to the counters of a peer leaves them within their widths. -/
structure CountersFit (x : ConnectedPeer W) (events : List PeerEvent) : Prop where
  downloaded : x.stats.bytesDownloaded.toNat + (events.map PeerEvent.downloaded).sum < 2 ^ 64
  completed : x.stats.piecesCompleted.toNat + (events.map PeerEvent.completed).sum < 2 ^ 32
  failed : x.stats.failedAttempts.toNat + (events.map PeerEvent.failed).sum < 2 ^ 32

theorem write_profile [WriteHalf W] {m : Message}
    (small : 1 + m.payload.bytes.length ≤ maxMessageSize.toNat)
    (run : Returns (onWriter (mapErr ClientError.message (write p m))) x () y) :
    Returns (onWriter (mapErr ClientError.message (write q m))) x () y := by
  obtain ⟨w, wrote, rfl⟩ := returns_onField.mp run
  have put := (returns_of_leads (write_leads ⟨m, small⟩ x.writer)).mp (returns_mapErr.mp wrote)
  exact returns_onField.mpr ⟨w, returns_mapErr.mpr
    ((returns_of_leads (write_leads ⟨m, small⟩ x.writer)).mpr put), rfl⟩

section Counting
variable {bits : Nat} {exact : PeerStats → Nat}
  {rest : PeerStats → Nat → Exec PeerStats ClientError Unit}

theorem count_profile
    (run : Returns (onStats do
      let stats ← readState
      let sum ← unsigned p bits (exact stats : Nat)
      rest stats sum) x () y) (fits : q = .debug → exact x.stats < 2 ^ bits) :
    Returns (onStats do
      let stats ← readState
      let sum ← unsigned q bits (exact stats : Nat)
      rest stats sum) x () y := by
  obtain ⟨stats, counted, rfl⟩ := returns_onField.mp run
  rw [returns_readState_bind] at counted
  obtain ⟨sum, _, add, last⟩ := returns_bind.mp counted
  obtain ⟨rfl, rfl, -⟩ := returns_unsigned_nat.mp add
  refine returns_onField.mpr ⟨stats, ?_, rfl⟩
  rw [returns_readState_bind]
  exact returns_bind.mpr ⟨_, _, returns_unsigned_nat.mpr ⟨rfl, rfl, fits⟩, last⟩

theorem count_panics (beyond : 2 ^ bits ≤ exact x.stats) :
    Panics (onStats do
      let stats ← readState
      let sum ← unsigned .debug bits (exact stats : Nat)
      rest stats sum) x := by
  have inner : Panics (readState >>= fun stats =>
      unsigned .debug bits (exact stats : Nat) >>= rest stats) x.stats := by
    apply panics_readState_bind
    exact panics_bind_first (panics_unsigned beyond)
  obtain ⟨fault, stopped⟩ := inner
  exact ⟨fault, stopped⟩

end Counting

theorem unit_profile {f g : Exec (ConnectedPeer W) ClientError Unit}
    {value : Option (Option Message)} (run : Returns (do
      f
      return none) x value y) (same : Returns f x () y → Returns g x () y) :
    Returns (do
      g
      return none) x value y := by
  obtain ⟨rfl, first⟩ := returns_unit run
  exact returns_bind.mpr ⟨(), y, same first, returns_value _ _⟩

theorem fits_before {later : List PeerEvent} (fits : CountersFit x (events ++ later)) :
    CountersFit x events := by
  obtain ⟨downloaded, completed, failed⟩ := fits
  simp only [List.map_append, List.sum_append] at downloaded completed failed
  exact ⟨by omega, by omega, by omega⟩

theorem fits_none {event : PeerEvent} (downloaded : event.downloaded = 0)
    (completed : event.completed = 0) (failed : event.failed = 0) : CountersFit x [event] := by
  have bytes := x.stats.bytesDownloaded.toNat_lt
  have pieces := x.stats.piecesCompleted.toNat_lt
  have failures := x.stats.failedAttempts.toNat_lt
  exact ⟨by simpa [downloaded] using bytes, by simpa [completed] using pieces,
    by simpa [failed] using failures⟩

section Builds
variable [WriteHalf W]

theorem step_profile {event : PeerEvent} (step : PeerOperations.Step p x event y)
    (fits : q = .debug → CountersFit x [event]) : PeerOperations.Step q x event y := by
  cases step with
  | arrived bytes => exact .arrived bytes
  | @done now call value _ returns =>
    cases call with
    | readMessage => exact .done returns
    | sendInterested => exact .done (unit_profile returns (write_profile (by decide)))
    | sendHave index =>
      have small : 1 + («have» index).payload.bytes.length ≤ maxMessageSize.toNat := by
        simp [«have», withPayload]
        decide
      exact .done (unit_profile returns (write_profile small))
    | sendRequest index start length =>
      have small : 1 + (request index start length).payload.bytes.length ≤
          maxMessageSize.toNat := by
        simp [request, withPayload]
        decide
      exact .done (unit_profile returns (write_profile small))
    | handleMessage msg =>
      refine .done (unit_profile returns fun run => ?_)
      obtain ⟨c, handles, rfl⟩ := returns_onField.mp run
      obtain rfl := returns_handleMessage.mp handles
      exact returns_onField.mpr ⟨_, returns_handleMessage.mpr rfl, rfl⟩
    | recordDownload bytes =>
      refine .done (unit_profile returns fun run => count_profile run fun debug => ?_)
      have less := (fits debug).downloaded
      simpa [PeerEvent.downloaded] using less
    | recordPieceComplete =>
      refine .done (unit_profile returns fun run => count_profile run fun debug => ?_)
      have less := (fits debug).completed
      simpa [PeerEvent.completed] using less
    | recordFailure =>
      refine .done (unit_profile returns fun run => count_profile run fun debug => ?_)
      have less := (fits debug).failed
      simpa [PeerEvent.failed] using less

theorem fits_after {later : List PeerEvent} (account : Account p x events y) :
    CountersFit x (events ++ later) → CountersFit y later := by
  intro fits
  obtain ⟨downloaded, completed, failed⟩ := fits
  simp only [List.map_append, List.sum_append] at downloaded completed failed
  have bytes := account.downloaded.1
  have pieces := account.completed.1
  have failures := account.failed.1
  rw [Nat.mod_eq_of_lt (by omega)] at bytes pieces failures
  exact ⟨by omega, by omega, by omega⟩

theorem call_panics {now : Nat} {call : Call} {value : Option (Option Message)}
    (beyond : ¬ CountersFit x [.done now call value]) : Panics (call.perform .debug now) x := by
  have bytes := x.stats.bytesDownloaded.toNat_lt
  have pieces := x.stats.piecesCompleted.toNat_lt
  have failures := x.stats.failedAttempts.toNat_lt
  cases call with
  | recordDownload more =>
    have past : 2 ^ 64 ≤ x.stats.bytesDownloaded.toNat + more.toNat := by
      by_contra less
      exact beyond ⟨Nat.lt_of_not_le less, pieces, failures⟩
    exact panics_bind_first (count_panics past)
  | recordPieceComplete =>
    have past : 2 ^ 32 ≤ x.stats.piecesCompleted.toNat + 1 := by
      by_contra less
      exact beyond ⟨bytes, Nat.lt_of_not_le less, failures⟩
    exact panics_bind_first (count_panics past)
  | recordFailure =>
    have past : 2 ^ 32 ≤ x.stats.failedAttempts.toNat + 1 := by
      by_contra less
      exact beyond ⟨bytes, pieces, Nat.lt_of_not_le less⟩
    exact panics_bind_first (count_panics past)
  | _ => exact absurd (fits_none rfl rfl rfl) beyond

theorem debug_runs_iff :
    Runs .debug x events y ↔ Runs .release x events y ∧ CountersFit x events := by
  constructor
  · intro run
    have account := run_account run
    refine ⟨?_, account.downloaded.2 rfl, account.completed.2 rfl, account.failed.2 rfl⟩
    clear account
    induction run with
    | start => exact .start
    | step run step ih => exact .step ih (step_profile step fun release => nomatch release)
  · intro parts
    obtain ⟨run, fits⟩ := parts
    induction run with
    | start => exact .start
    | step run step ih =>
      exact .step (ih (fits_before fits))
        (step_profile step fun _ => fits_after (run_account run) fits)

end Builds

/-- The runs of a debug build are those of a release build in which no counter is taken past its
    width, and it panics at the first call that would. -/
theorem builds_differ_in_counters {W : Type} [WriteHalf W] (x y : ConnectedPeer W)
    (events : List PeerEvent) :
    (Runs .debug x events y ↔ Runs .release x events y ∧ CountersFit x events) ∧
    (Runs .debug x events y → ∀ now (call : Call) value z,
      Returns (call.perform .release now) y value z →
        (Returns (call.perform .debug now) y value z ↔
          CountersFit x (events ++ [.done now call value])) ∧
        (¬ CountersFit x (events ++ [.done now call value]) →
          Panics (call.perform .debug now) y)) := by
  refine ⟨debug_runs_iff, ?_⟩
  intro run now call value z returns
  have later : CountersFit x (events ++ [.done now call value]) →
      CountersFit y [.done now call value] := fits_after (run_account run)
  refine ⟨⟨?_, ?_⟩, ?_⟩
  · intro debug
    exact (debug_runs_iff.mp (.step run (.done debug))).2
  · intro fits
    cases step_profile (.done returns) fun _ => later fits with
    | done debug => exact debug
  · intro beyond
    apply call_panics
    intro fits
    cases step_profile (.done returns) fun _ => fits with
    | done debug => exact beyond (debug_runs_iff.mp (.step run (.done debug))).2

def failingPeer : ConnectedPeer BufferedWriters.Writer :=
  { idlePeer with stats := { idlePeer.stats with failedAttempts := 4294967295 } }

theorem builds_differ_in_counters_full :
    Returns (Call.recordFailure.perform .release 0) failingPeer none idlePeer ∧
      Panics (Call.recordFailure.perform .debug 0) failingPeer := by
  have returns : Returns (Call.recordFailure.perform .release 0) failingPeer none idlePeer := by
    decide +kernel
  have beyond : ¬ CountersFit failingPeer ([] ++ [.done 0 .recordFailure none]) := by
    intro fits
    exact absurd fits.failed (by decide +kernel)
  exact ⟨returns, ((builds_differ_in_counters failingPeer failingPeer []).2 .start 0 .recordFailure
    none idlePeer returns).2 beyond⟩

end CheckedCounters
