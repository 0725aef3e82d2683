import Mathlib.Logic.Relation
import RustyTorrent.Library.ByteStreams

/- One direction of a reliable connection: a party sends framed messages, any part of what
   travels may arrive at any time, and the other party reads and handles one message after
   another. It refines a mailbox, where each message that was posted is taken once, in order. -/
namespace FramedPipes
open RustExec ByteStreams Relation

/-- An encoding of messages, and the reader that takes one from the front of a text. In front
    of a part of one it waits. -/
structure Framing (ε M R : Type) where
  encode : M → Bytes
  read : Exec Reader ε R
  result : M → R
  whole : ∀ m rest, Returns read ⟨encode m ++ rest, .silent⟩ (result m) ⟨rest, .silent⟩
  cut : ∀ m text, text <+: encode m → text ≠ encode m → (read ⟨text, .silent⟩).outcome = .pending
  idle : (read ⟨[], .silent⟩).outcome = .pending
  consumes : ∀ {text r rest}, Returns read ⟨text, .silent⟩ r ⟨rest, .silent⟩ →
    rest.length < text.length

/-- `sent` and `received` are for the record. -/
structure Pipe (M R σ : Type) where
  sent : List M
  travelling : Bytes
  arrived : Bytes
  received : List R
  state : σ

structure Mailbox (M σ : Type) where
  taken : List M
  waiting : List M
  state : σ

def Pipe.start {M R σ : Type} (first : σ) : Pipe M R σ := ⟨[], [], [], [], first⟩

def Mailbox.start {M σ : Type} (first : σ) : Mailbox M σ := ⟨[], [], first⟩

variable {ε M R σ : Type}

section Steps
variable (framing : Framing ε M R) (handle : σ → R → σ)

def Pipe.send (x : Pipe M R σ) (m : M) : Pipe M R σ :=
  { x with sent := x.sent ++ [m], travelling := x.travelling ++ framing.encode m }

/-- A step without the sender. A read is one step, at the moment when its last byte is there. -/
inductive Works (x : Pipe M R σ) : Pipe M R σ → Prop where
  | deliver {chunk rest : Bytes} (travels : x.travelling = chunk ++ rest) (some : chunk ≠ []) :
      Works x { x with travelling := rest, arrived := x.arrived ++ chunk }
  | receive {r : R} {rest : Bytes}
      (reads : Returns framing.read ⟨x.arrived, .silent⟩ r ⟨rest, .silent⟩) :
      Works x { x with arrived := rest, received := x.received ++ [r], state := handle x.state r }

inductive Step (x : Pipe M R σ) : Pipe M R σ → Prop where
  | works {x' : Pipe M R σ} (moves : Works framing handle x x') : Step x x'
  | send (m : M) : Step x (x.send framing m)

inductive Mailbox.Step (box : Mailbox M σ) : Mailbox M σ → Prop where
  | post (m : M) : Step box { box with waiting := box.waiting ++ [m] }
  | take {m : M} {rest : List M} (next : box.waiting = m :: rest) :
      Step box ⟨box.taken ++ [m], rest, handle box.state (framing.result m)⟩

structure Represents (x : Pipe M R σ) (box : Mailbox M σ) : Prop where
  sent : x.sent = box.taken ++ box.waiting
  received : x.received = box.taken.map framing.result
  bytes : x.arrived ++ x.travelling = box.waiting.flatMap framing.encode
  state : x.state = box.state

end Steps

variable {framing : Framing ε M R} {handle : σ → R → σ} {first : σ} {x x' : Pipe M R σ}
  {box box' : Mailbox M σ}

theorem mailbox_folds
    (run : ReflTransGen (Mailbox.Step framing handle) (Mailbox.start first) box) :
    box.state = (box.taken.map framing.result).foldl handle first := by
  induction run with
  | refl => rfl
  | tail _ step ih =>
    cases step with
    | post m => exact ih
    | take next => simp [ih]

theorem next_cases {arrived travelling : Bytes} {waiting : List M}
    (bytes : arrived ++ travelling = waiting.flatMap framing.encode) :
    (∃ m later rest, waiting = m :: later ∧ arrived = framing.encode m ++ rest ∧
        rest ++ travelling = later.flatMap framing.encode) ∨
      (framing.read ⟨arrived, .silent⟩).outcome = .pending := by
  cases waiting with
  | nil =>
    obtain ⟨rfl, -⟩ := List.append_eq_nil_iff.mp bytes
    exact Or.inr framing.idle
  | cons m later =>
    rw [List.flatMap_cons] at bytes
    rcases List.append_eq_append_iff.mp bytes with ⟨missing, frame, rest⟩ | ⟨rest, split, behind⟩
    · cases missing with
      | nil =>
        refine Or.inl ⟨m, later, [], rfl, ?_, ?_⟩
        · rw [frame]
          simp
        · rw [List.nil_append, rest, List.nil_append]
      | cons b missing =>
        refine Or.inr (framing.cut m arrived ⟨_, frame.symm⟩ ?_)
        intro same
        rw [same] at frame
        simp at frame
    · exact Or.inl ⟨m, later, rest, rfl, split, behind.symm⟩

theorem reads_next (represents : Represents framing x box) {r : R} {rest : Bytes}
    (reads : Returns framing.read ⟨x.arrived, .silent⟩ r ⟨rest, .silent⟩) :
    ∃ m later, box.waiting = m :: later ∧ r = framing.result m ∧
      rest ++ x.travelling = later.flatMap framing.encode := by
  rcases next_cases represents.bytes with ⟨m, later, rest', next, arrived, behind⟩ | waits
  · have whole := framing.whole m rest'
    rw [← arrived] at whole
    obtain ⟨value, reader⟩ := returns_unique reads whole
    cases reader
    exact ⟨m, later, next, value, behind⟩
  · rw [reads.1] at waits
    cases waits

theorem read_outcome (represents : Represents framing x box) :
    (∃ m later, box.waiting = m :: later ∧
        (framing.read ⟨x.arrived, .silent⟩).outcome = .ok (framing.result m)) ∨
      (framing.read ⟨x.arrived, .silent⟩).outcome = .pending := by
  rcases next_cases represents.bytes with ⟨m, later, rest, next, arrived, -⟩ | waits
  · rw [arrived]
    exact Or.inl ⟨m, later, next, (framing.whole m rest).1⟩
  · exact Or.inr waits

theorem start_represents : Represents framing (Pipe.start first) (Mailbox.start first) :=
  ⟨rfl, rfl, rfl, rfl⟩

theorem step_refines (represents : Represents framing x box) (step : Step framing handle x x') :
    ∃ box', (box' = box ∨ Mailbox.Step framing handle box box') ∧ Represents framing x' box' := by
  cases step with
  | send m =>
    refine ⟨{ box with waiting := box.waiting ++ [m] }, Or.inr (.post m), ?_⟩
    constructor
    · simp only [Pipe.send, represents.sent, List.append_assoc]
    · exact represents.received
    · simp only [Pipe.send, List.flatMap_append, ← represents.bytes, List.append_assoc,
        List.flatMap_cons, List.flatMap_nil, List.append_nil]
    · exact represents.state
  | works moves =>
    cases moves with
    | deliver travels some =>
      refine ⟨box, Or.inl rfl, represents.sent, represents.received, ?_, represents.state⟩
      rw [← represents.bytes, travels, List.append_assoc]
    | receive reads =>
      obtain ⟨m, later, next, rfl, behind⟩ := reads_next represents reads
      refine ⟨⟨box.taken ++ [m], later, handle box.state (framing.result m)⟩,
        Or.inr (.take next), ?_, ?_, behind, ?_⟩
      · simp only [represents.sent, next, List.append_assoc, List.singleton_append]
      · simp only [represents.received, List.map_append, List.map_singleton]
      · simp only [represents.state]

theorem run_refines (run : ReflTransGen (Step framing handle) (Pipe.start first) x) :
    ∃ box, ReflTransGen (Mailbox.Step framing handle) (Mailbox.start first) box ∧
      Represents framing x box := by
  induction run with
  | refl => exact ⟨_, .refl, start_represents⟩
  | tail _ step ih =>
    obtain ⟨box, run, represents⟩ := ih
    obtain ⟨box', same | next, represents'⟩ := step_refines represents step
    · exact ⟨box, run, same ▸ represents'⟩
    · exact ⟨box', run.tail next, represents'⟩

/-- What holds of a pipe in every interleaving. -/
structure InOrder (framing : Framing ε M R) (handle : σ → R → σ) (first : σ)
    (x : Pipe M R σ) : Prop where
  fewer : x.received.length ≤ x.sent.length
  received : x.received = (x.sent.take x.received.length).map framing.result
  state : x.state = x.received.foldl handle first
  next : (∃ m, x.sent[x.received.length]? = some m ∧
      (framing.read ⟨x.arrived, .silent⟩).outcome = .ok (framing.result m)) ∨
    (framing.read ⟨x.arrived, .silent⟩).outcome = .pending

theorem run_in_order (run : ReflTransGen (Step framing handle) (Pipe.start first) x) :
    InOrder framing handle first x := by
  obtain ⟨box, posted, represents⟩ := run_refines run
  have length : x.received.length = box.taken.length := by
    rw [represents.received, List.length_map]
  constructor
  · rw [length, represents.sent, List.length_append]
    omega
  · rw [length, represents.sent, List.take_left]
    exact represents.received
  · rw [represents.state, represents.received]
    exact mailbox_folds posted
  · rcases read_outcome represents with ⟨m, later, next, outcome⟩ | waits
    · refine Or.inl ⟨m, ?_, outcome⟩
      rw [length, represents.sent, next]
      simp
    · exact Or.inr waits

theorem works_or_all_received
    (run : ReflTransGen (Step framing handle) (Pipe.start first) x) :
    (∃ x', Works framing handle x x') ∨ x.received = x.sent.map framing.result := by
  obtain ⟨box, -, represents⟩ := run_refines run
  by_cases travels : x.travelling = []
  · cases waiting : box.waiting with
    | nil =>
      rw [represents.sent, represents.received, waiting, List.append_nil]
      exact Or.inr rfl
    | cons m later =>
      have bytes := represents.bytes
      rw [travels, List.append_nil, waiting, List.flatMap_cons] at bytes
      have reads := framing.whole m (later.flatMap framing.encode)
      rw [← bytes] at reads
      exact Or.inl ⟨_, .receive reads⟩
  · exact Or.inl ⟨_, .deliver (List.append_nil _).symm travels⟩

theorem works_sent (works : Works framing handle x x') : x'.sent = x.sent := by
  cases works <;> rfl

theorem works_wellFounded :
    WellFounded fun x' x : Pipe M R σ => Works framing handle x x' := by
  apply Subrelation.wf _
    (measure fun x : Pipe M R σ => 2 * x.travelling.length + x.arrived.length).wf
  intro x' x works
  change 2 * x'.travelling.length + x'.arrived.length < 2 * x.travelling.length + x.arrived.length
  cases works with
  | deliver travels some =>
    have positive := List.length_pos_iff.mpr some
    simp only [travels, List.length_append]
    omega
  | receive reads =>
    have fewer := framing.consumes reads
    simp only
    omega

end FramedPipes
