import Mathlib.Logic.Relation
import Mathlib.Order.GameAdd
import RustyTorrent.Library.StreamFutures
import RustyTorrent.Library.TwoSides

/- Two async functions at the two ends of a reliable duplex stream, in any interleaving. A step
   moves a single byte, and a chunk is a run of such steps. What has been written waits in a
   buffer until it is handed over, at the latest by a flush. -/
namespace DuplexLinks
open RustExec ByteStreams StreamFutures TwoSides

variable {ε α : Type}

/-- One end. `unread` has been handed over by the other end. `consumed` and `sent` are for the
    record: all that has been read, and all that was sent once the function had returned. -/
structure Endpoint (ε α : Type) where
  code : Future ε α
  buffered : Bytes
  unread : Bytes
  consumed : Bytes
  sent : Bytes

abbrev Link (ε α : Type) := Side → Endpoint ε α

def Link.start (codes : Side → Future ε α) : Link ε α := fun side => ⟨codes side, [], [], [], []⟩

inductive Moves (x : Endpoint ε α) : Endpoint ε α → Bytes → Prop where
  | store {b : UInt8} {rest : Bytes} {next : Future ε α} (code : x.code = .write (b :: rest) next) :
      Moves x { x with code := .write rest next, buffered := x.buffered ++ [b] } []
  | stored {next : Future ε α} (code : x.code = .write [] next) : Moves x { x with code := next } []
  | hand {b : UInt8} {rest : Bytes} (buffered : x.buffered = b :: rest) :
      Moves x { x with buffered := rest } [b]
  | flushed {next : Future ε α} (code : x.code = .flush next) (empty : x.buffered = []) :
      Moves x { x with code := next } []
  | take {b : UInt8} {rest : Bytes} {e : ε} {k : Nat} {next : Vector UInt8 (k + 1) → Future ε α}
      (code : x.code = .read e (k + 1) next) (unread : x.unread = b :: rest) :
      Moves x { x with code := .read e k fun v => next (consByte b v), unread := rest,
                       consumed := x.consumed ++ [b] } []
  | taken {e : ε} {next : Vector UInt8 0 → Future ε α} (code : x.code = .read e 0 next) :
      Moves x { x with code := next #v[] } []

abbrev Link.set (link : Link ε α) (side : Side) (x : Endpoint ε α) (handed : Bytes) : Link ε α :=
  exchange link side x fun y => { y with unread := y.unread ++ handed }

def Works (link link' : Link ε α) : Prop :=
  ∃ side x handed, Moves (link side) x handed ∧ link' = link.set side x handed

def Sends (link link' : Link ε α) : Prop :=
  ∃ side b, (link side).code.Returned ∧
    link' = link.set side { link side with buffered := (link side).buffered ++ [b],
                                           sent := (link side).sent ++ [b] } []

def Step (link link' : Link ε α) : Prop := Works link link' ∨ Sends link link'

def Reachable (codes : Side → Future ε α) : Link ε α → Prop :=
  Relation.ReflTransGen Step (Link.start codes)

/-- What holds after every step of two functions that write before they read. -/
structure Conserved (codes : Side → Future ε α) (link : Link ε α) : Prop where
  writesFirst : ∀ side, (link side).code.WritesFirst
  quiet : ∀ side, ¬ (link side).code.Returned → (link side).sent = []
  fifo : ∀ side, (codes side.other).upcoming ++ (link side.other).sent =
    (link side).consumed ++ ((link side).unread ++
      ((link side.other).buffered ++ (link side.other).code.upcoming))
  follows : ∀ side rest ending,
    Leads (codes side).onReader ⟨(link side).consumed ++ rest, ending⟩
      (link side).code.onReader ⟨rest, ending⟩

section Moving
variable {x x' : Endpoint ε α} {handed : Bytes}

theorem moves_writesFirst (move : Moves x x' handed) (first : x.code.WritesFirst) :
    x'.code.WritesFirst := by
  cases move with
  | hand buffered => exact first
  | take code unread =>
    rw [code] at first
    exact fun v => first (consByte _ v)
  | taken code =>
    rw [code] at first
    exact writesFirst_of_silent (first #v[])
  | store code => rw [code] at first; exact first
  | stored code => rw [code] at first; exact first
  | flushed code => rw [code] at first; exact first

theorem moves_out (move : Moves x x' handed) (first : x.code.WritesFirst) :
    handed ++ (x'.buffered ++ x'.code.upcoming) = x.buffered ++ x.code.upcoming := by
  cases move with
  | store code => simp [code, Future.upcoming]
  | stored code => simp [code, Future.upcoming]
  | hand buffered => simp [buffered]
  | flushed code empty => simp [code, Future.upcoming]
  | take code unread => simp [code, Future.upcoming]
  | taken code =>
    rw [code] at first
    simp [code, Future.upcoming, upcoming_of_silent (first #v[])]

theorem moves_in (move : Moves x x' handed) :
    ∃ read, x'.consumed = x.consumed ++ read ∧ x.unread = read ++ x'.unread ∧
      ∀ rest ending, Leads x.code.onReader ⟨read ++ rest, ending⟩ x'.code.onReader
        ⟨rest, ending⟩ := by
  cases move with
  | take code unread =>
    refine ⟨[_], rfl, unread, fun rest ending => ?_⟩
    rw [code]
    exact leads_read_byte _ _
  | taken code =>
    refine ⟨[], by simp, rfl, fun rest ending => ?_⟩
    rw [code]
    exact leads_read_empty _
  | hand buffered => exact ⟨[], by simp, rfl, fun _ _ => leads_refl _ _⟩
  | store code => exact ⟨[], by simp, rfl, fun _ _ => by rw [code]; exact leads_refl _ _⟩
  | stored code => exact ⟨[], by simp, rfl, fun _ _ => by rw [code]; exact leads_refl _ _⟩
  | flushed code => exact ⟨[], by simp, rfl, fun _ _ => by rw [code]; exact leads_refl _ _⟩

theorem moves_sent (move : Moves x x' handed) : x'.sent = x.sent := by
  cases move <;> rfl

theorem moves_returned (move : Moves x x' handed) (returned : x.code.Returned) :
    x'.code = x.code := by
  cases move with
  | hand buffered => rfl
  | store code => rw [code] at returned; cases returned
  | stored code => rw [code] at returned; cases returned
  | flushed code => rw [code] at returned; cases returned
  | take code => rw [code] at returned; cases returned
  | taken code => rw [code] at returned; cases returned

end Moving

theorem upcoming_of_returned {code : Future ε α} (returned : code.Returned) :
    code.upcoming = [] := by
  cases code with
  | done a => rfl
  | fail e => rfl
  | _ => cases returned

variable {codes : Side → Future ε α} {link link' : Link ε α}

theorem conserved_start (first : ∀ side, (codes side).WritesFirst) :
    Conserved codes (Link.start codes) where
  writesFirst := first
  quiet _ _ := rfl
  fifo side := by simp [Link.start]
  follows _ _ _ := leads_refl _ _

theorem conserved_works (before : Conserved codes link) (works : Works link link') :
    Conserved codes link' := by
  obtain ⟨side, x, handed, move, rfl⟩ := works
  obtain ⟨read, consumed, unread, leads⟩ := moves_in move
  have out := moves_out move (before.writesFirst side)
  have sent := moves_sent move
  constructor
  · intro here
    rcases eq_or_other here side with rfl | rfl
    · simpa using moves_writesFirst move (before.writesFirst here)
    · simpa using before.writesFirst side.other
  · intro here
    rcases eq_or_other here side with rfl | rfl
    · rw [Link.set, exchange_same, sent]
      intro running
      apply before.quiet
      intro returned
      rw [moves_returned move returned] at running
      exact running returned
    · simpa using before.quiet side.other
  · intro here
    rcases eq_or_other here side with rfl | rfl
    · have balance := before.fifo here
      rw [unread] at balance
      simp [consumed, balance]
    · have balance := before.fifo side.other
      rw [other_other] at balance
      rw [other_other, Link.set, exchange_other, exchange_same, sent, balance, ← out]
      simp
  · intro here rest ending
    rcases eq_or_other here side with rfl | rfl
    · rw [Link.set, exchange_same, consumed, List.append_assoc]
      exact leads_trans (before.follows here (read ++ rest) ending) (leads rest ending)
    · rw [Link.set, exchange_other]
      exact before.follows side.other rest ending

theorem conserved_sends (before : Conserved codes link) (sends : Sends link link') :
    Conserved codes link' := by
  obtain ⟨side, b, returned, rfl⟩ := sends
  have none := upcoming_of_returned returned
  constructor
  · intro here
    rcases eq_or_other here side with rfl | rfl
    · simpa using before.writesFirst here
    · simpa using before.writesFirst side.other
  · intro here
    rcases eq_or_other here side with rfl | rfl
    · rw [Link.set, exchange_same]
      intro running
      exact absurd returned running
    · simpa using before.quiet side.other
  · intro here
    rcases eq_or_other here side with rfl | rfl
    · simpa using before.fifo here
    · have balance := before.fifo side.other
      rw [other_other, none] at balance
      rw [other_other, Link.set, exchange_other, exchange_same]
      simp only [none, ← List.append_assoc, balance]
      simp
  · intro here rest ending
    rcases eq_or_other here side with rfl | rfl
    · simpa using before.follows here rest ending
    · simpa using before.follows side.other rest ending

theorem conserved_reachable (first : ∀ side, (codes side).WritesFirst)
    (reachable : Reachable codes link) : Conserved codes link := by
  induction reachable with
  | refl => exact conserved_start first
  | tail _ step ih =>
    rcases step with works | sends
    · exact conserved_works ih works
    · exact conserved_sends ih sends

theorem follows_written (conserved : Conserved codes link) (side : Side) (ending : Ending) :
    Leads (codes side).onReader
      ⟨(codes side.other).upcoming ++ (link side.other).sent, ending⟩ (link side).code.onReader
      ⟨(link side).unread ++ ((link side.other).buffered ++ (link side.other).code.upcoming),
        ending⟩ := by
  rw [conserved.fifo side]
  exact conserved.follows side _ ending

theorem works_or_idle (side : Side) : (∃ link', Works link link') ∨
    (link side).buffered = [] ∧ ((link side).code.Returned ∨ ∃ e k next,
      (link side).code = .read e (k + 1) next ∧ (link side).unread = []) := by
  cases buffered : (link side).buffered with
  | cons b rest => exact Or.inl ⟨_, side, _, _, .hand buffered, rfl⟩
  | nil =>
    cases code : (link side).code with
    | done a => exact Or.inr ⟨rfl, Or.inl trivial⟩
    | fail e => exact Or.inr ⟨rfl, Or.inl trivial⟩
    | flush next => exact Or.inl ⟨_, side, _, _, .flushed code buffered, rfl⟩
    | write bytes next =>
      cases bytes with
      | nil => exact Or.inl ⟨_, side, _, _, .stored code, rfl⟩
      | cons b rest => exact Or.inl ⟨_, side, _, _, .store code, rfl⟩
    | read e k next =>
      cases k with
      | zero => exact Or.inl ⟨_, side, _, _, .taken code, rfl⟩
      | succ k =>
        cases unread : (link side).unread with
        | nil => exact Or.inr ⟨rfl, Or.inr ⟨e, k, next, rfl, rfl⟩⟩
        | cons b rest => exact Or.inl ⟨_, side, _, _, .take code unread, rfl⟩

theorem works_or_waits (conserved : Conserved codes link) {side : Side}
    (running : ¬ (link side).code.Returned) : (∃ link', Works link link') ∨
      Waits (codes side).onReader ⟨(codes side.other).upcoming ++ (link side.other).sent, .silent⟩
        ⟨[], .silent⟩ := by
  rcases @works_or_idle ε α link side with works | ⟨-, idle⟩
  · exact Or.inl works
  rcases @works_or_idle ε α link side.other with works | ⟨buffered, otherIdle⟩
  · exact Or.inl works
  have upcoming : (link side.other).code.upcoming = [] := by
    rcases otherIdle with returned | ⟨e, k, next, code, -⟩
    · exact upcoming_of_returned returned
    · rw [code]
      rfl
  rcases idle with returned | ⟨e, k, next, code, unread⟩
  · exact absurd returned running
  · have leads := follows_written conserved side .silent
    rw [buffered, upcoming, code, unread] at leads
    exact Or.inr (waits_of_leads leads ⟨rfl, rfl⟩)

theorem moves_next {x x' : Endpoint ε α} {handed : Bytes} (move : Moves x x' handed) :
    Next x'.code x.code ∨ x'.code = x.code ∧ x'.buffered.length < x.buffered.length := by
  cases move with
  | hand buffered => exact Or.inr ⟨rfl, by simp [buffered]⟩
  | store code => rw [code]; exact Or.inl (.store _ _ _)
  | stored code => rw [code]; exact Or.inl (.stored _)
  | flushed code => rw [code]; exact Or.inl (.flushed _)
  | take code => rw [code]; exact Or.inl (.take _ _ _ _)
  | taken code => rw [code]; exact Or.inl (.taken _ _)

def remaining (link : Link ε α) : (Future ε α × Future ε α) × Nat :=
  (((link .left).code, (link .right).code),
    (link .left).buffered.length + (link .right).buffered.length)

theorem works_wellFounded : WellFounded fun link' link : Link ε α => Works link link' := by
  have codes := (@next_wellFounded ε α).prod_gameAdd (@next_wellFounded ε α)
  apply Subrelation.wf _ (InvImage.wf remaining (WellFounded.prod_lex codes Nat.lt_wfRel.wf))
  rintro link' link ⟨side, x, handed, move, rfl⟩
  cases side with
  | left =>
    change Prod.Lex _ _ ((x.code, (link .right).code), x.buffered.length + _) (remaining link)
    rcases moves_next move with next | ⟨same, fewer⟩
    · exact .left _ _ (.fst next)
    · rw [same]
      exact .right _ (Nat.add_lt_add_right fewer _)
  | right =>
    change Prod.Lex _ _ (((link .left).code, x.code), _ + x.buffered.length) (remaining link)
    rcases moves_next move with next | ⟨same, fewer⟩
    · exact .left _ _ (.snd next)
    · rw [same]
      exact .right _ (Nat.add_lt_add_left fewer _)

end DuplexLinks
