import RustyTorrent.Library.ByteStreams

/- The write half of a connection that takes only so many bytes, whatever it buffers. However
   the writes end, what it has taken is the start of all that was written, and they return up to
   the first that it cannot take whole. -/
namespace WriteHalves
open RustExec ByteStreams

variable {σ ε α β : Type}

def fits : Option Nat → Nat → Bool
  | none, _ => true
  | some room, n => decide (n ≤ room)

def cut : Option Nat → Bytes → Bytes
  | none, data => data
  | some room, data => data.take room

def spend (room : Option Nat) (n : Nat) : Option Nat := room.map (· - n)

def stop (ioError : ε) : Ending → Outcome ε α
  | .fails => .err ioError
  | .silent => .pending

/-- `start`: nothing is written yet, and the connection takes so many bytes, if there is a limit.
    `handed`: what it has taken. `Stands`: all this was written, in blocks that were each
    flushed. -/
class WriteHalf (W : Type) where
  start : Option Nat → Ending → W
  handed : W → Bytes
  writeAll {ε : Type} : ε → Bytes → Exec W ε Unit
  flush {ε : Type} : ε → Exec W ε Unit
  Stands : Option Nat → Ending → Bytes → W → Prop
  start_stands (limit : Option Nat) (ending : Ending) : Stands limit ending [] (start limit ending)
  handed_stands {limit : Option Nat} {ending : Ending} {written : Bytes} {w : W}
    (stands : Stands limit ending written w) : handed w = cut limit written
  block_outcome {ε : Type} (e : ε) {limit : Option Nat} {ending : Ending} {written data : Bytes}
    {w : W} (stands : Stands limit ending written w) (some : data ≠ []) :
    ((writeAll e data >>= fun _ => flush e) w).outcome =
      if fits limit (written ++ data).length then .ok () else stop e ending
  block_stands {ε : Type} (e : ε) {limit : Option Nat} {ending : Ending} {written data : Bytes}
    {w : W} (stands : Stands limit ending written w) (some : data ≠ []) :
    Stands limit ending (written ++ data) ((writeAll e data >>= fun _ => flush e) w).state
  flush_stands {ε : Type} (e : ε) {limit : Option Nat} {ending : Ending} {written : Bytes} {w : W}
    (stands : Stands limit ending written w) (enough : fits limit written.length = true) :
    Returns (flush e) w () w

section Limits
variable {limit : Option Nat} {data : Bytes}

theorem cut_append (limit : Option Nat) (written data : Bytes) :
    cut limit (written ++ data) = cut limit written ++ cut (spend limit written.length) data := by
  cases limit with
  | none => rfl
  | some room => exact List.take_append

theorem fits_spend (limit : Option Nat) (m : Nat) {n : Nat} (positive : 0 < n) :
    fits (spend limit m) n = fits limit (m + n) := by
  cases limit with
  | none => rfl
  | some room =>
    simp only [fits, spend, Option.map_some, decide_eq_decide]
    omega

theorem fits_less {m n : Nat} (le : m ≤ n) (enough : fits limit n = true) :
    fits limit m = true := by
  cases limit with
  | none => rfl
  | some room => exact decide_eq_true (le.trans (of_decide_eq_true enough))

theorem spend_add (limit : Option Nat) (m n : Nat) :
    spend limit (m + n) = spend (spend limit m) n := by
  cases limit with
  | none => rfl
  | some room => simp only [spend, Option.map_some, Nat.sub_sub]

theorem cut_of_fits (enough : fits limit data.length = true) : cut limit data = data := by
  cases limit with
  | none => rfl
  | some room => exact List.take_of_length_le (of_decide_eq_true enough)

theorem cut_proper (short : fits limit data.length = false) :
    cut limit data <+: data ∧ cut limit data ≠ data := by
  cases limit with
  | none => cases short
  | some room =>
    have less := of_decide_eq_false short
    refine ⟨List.take_prefix _ _, ?_⟩
    intro whole
    have length := congrArg List.length whole
    simp only [cut, List.length_take] at length
    omega

theorem spend_of_not_fits {n : Nat} (short : fits limit n = false) : spend limit n = some 0 := by
  cases limit with
  | none => cases short
  | some room =>
    have less := of_decide_eq_false short
    simp only [spend, Option.map_some, Option.some.injEq]
    omega

theorem cut_zero (data : Bytes) : cut (some 0) data = [] := rfl

theorem cut_nil (limit : Option Nat) : cut limit [] = [] := by
  cases limit with
  | none => rfl
  | some room => exact List.take_nil

theorem fits_zero (limit : Option Nat) : fits limit 0 = true := by
  cases limit with
  | none => rfl
  | some room => exact decide_eq_true (Nat.zero_le room)

theorem spend_zero (limit : Option Nat) : spend limit 0 = limit := by
  cases limit <;> rfl

end Limits

theorem stops_bind {x : Exec σ ε α} {f : α → Exec σ ε β} {s : σ} {e : ε} {ending : Ending}
    (stops : (x s).outcome = stop e ending) :
    ((x >>= f) s).outcome = stop e ending ∧ ((x >>= f) s).state = (x s).state := by
  cases ending with
  | fails => exact leads_fail_bind ⟨stops, rfl⟩
  | silent => exact waits_bind_first ⟨stops, rfl⟩

section Writes
variable {W : Type} [WriteHalf W]
open WriteHalf

def put (ioError : ε) (data : Bytes) : Exec W ε Unit := do
  writeAll ioError data
  flush ioError

def puts (ioError : ε) : List Bytes → W → List (Outcome ε Unit) × W
  | [], w => ([], w)
  | data :: later, w =>
      let run := put ioError data w
      let rest := puts ioError later run.state
      (run.outcome :: rest.1, rest.2)

/-- All that was written so far has been taken. -/
def Idle (w : W) : Prop :=
  ∃ limit ending written, Stands limit ending written w ∧ fits limit written.length = true

/-- A connection without a limit, between two writes. -/
def Endless (w : W) : Prop := ∃ ending written, Stands none ending written w

variable {limit : Option Nat} {ending : Ending} {written data : Bytes} {w w' : W} {e : ε}

theorem endless_idle (endless : Endless w) : Idle w := by
  obtain ⟨ending, written, stands⟩ := endless
  exact ⟨none, ending, written, stands, rfl⟩

theorem endless_start : Endless (start none ending : W) := ⟨ending, [], start_stands none ending⟩

theorem idle_start : Idle (start limit ending : W) :=
  ⟨limit, ending, [], start_stands limit ending, fits_zero limit⟩

theorem handed_start : handed (start limit ending : W) = [] :=
  (handed_stands (start_stands limit ending)).trans (cut_nil limit)

theorem idle_flush (idle : Idle w) : Returns (flush e) w () w := by
  obtain ⟨limit, ending, written, stands, enough⟩ := idle
  exact flush_stands e stands enough

theorem put_outcome (stands : Stands limit ending written w) (some : data ≠ []) :
    (put e data w).outcome =
      if fits limit (written ++ data).length then .ok () else stop e ending :=
  block_outcome e stands some

theorem put_stands (stands : Stands limit ending written w) (some : data ≠ []) :
    Stands limit ending (written ++ data) (put e data w).state :=
  block_stands e stands some

theorem put_fits (stands : Stands limit ending written w) (some : data ≠ []) :
    (put e data w).outcome = .ok () ↔ fits limit (written ++ data).length = true := by
  rw [put_outcome stands some]
  cases fits limit (written ++ data).length with
  | true => exact iff_of_true rfl rfl
  | false => cases ending <;> exact iff_of_false nofun nofun

theorem put_returned (idle : Idle w) (some : data ≠ []) (returns : Returns (put e data) w () w') :
    handed w' = handed w ++ data ∧ Idle w' := by
  obtain ⟨limit, ending, written, stands, enough⟩ := idle
  obtain ⟨outcome, rfl⟩ := returns
  have whole := (put_fits stands some).mp outcome
  have after := put_stands (e := e) stands some
  refine ⟨?_, limit, ending, written ++ data, after, whole⟩
  rw [handed_stands after, handed_stands stands, cut_of_fits whole, cut_of_fits enough]

theorem puts_stopped (blocks : List Bytes) (all : ∀ data ∈ blocks, data ≠ [])
    (stands : Stands limit ending written w) (short : fits limit written.length = false) :
    (puts e blocks w).1 = List.replicate blocks.length (stop e ending) ∧
      handed (puts e blocks w).2 = handed w := by
  induction blocks generalizing written w with
  | nil => exact ⟨rfl, rfl⟩
  | cons data later ih =>
    obtain ⟨some, others⟩ := List.forall_mem_cons.mp all
    have outcome := put_outcome (e := e) stands some
    have after := put_stands (e := e) stands some
    have still : fits limit (written ++ data).length = false := by
      apply Bool.eq_false_iff.mpr
      intro enough
      have less : fits limit written.length = true := fits_less (by simp) enough
      rw [short] at less
      cases less
    obtain ⟨outcomes, handed⟩ := ih others after still
    rw [still, if_neg Bool.false_ne_true] at outcome
    constructor
    · rw [puts, outcome, outcomes, List.length_cons, List.replicate_succ]
    · rw [puts, handed, handed_stands after, handed_stands stands, cut_append,
        spend_of_not_fits short, cut_zero, List.append_nil]

/-- The first `n` writes return and no other: these fit, and the connection has taken them and a
    proper part of the next. -/
structure Returned (e : ε) (room : Option Nat) (ending : Ending) (blocks : List Bytes) (n : Nat)
    (outcomes : List (Outcome ε Unit)) (handed : Bytes) : Prop where
  most : n ≤ blocks.length
  outcomes : outcomes =
    List.replicate n (.ok ()) ++ List.replicate (blocks.length - n) (stop e ending)
  fitting : fits room (blocks.take n).flatten.length = true
  handed : n = blocks.length ∧ handed = blocks.flatten ∨
    ∃ data part, blocks[n]? = some data ∧
      fits room ((blocks.take n).flatten ++ data).length = false ∧
      part <+: data ∧ part ≠ data ∧ handed = (blocks.take n).flatten ++ part

theorem returned_cons {room : Option Nat} {blocks : List Bytes} {n : Nat}
    {outcomes : List (Outcome ε Unit)} {handed : Bytes}
    (returned : Returned e (spend room data.length) ending blocks n outcomes handed)
    (whole : fits room data.length = true) :
    Returned e room ending (data :: blocks) (n + 1) (.ok () :: outcomes) (data ++ handed) := by
  constructor
  · exact Nat.succ_le_succ returned.most
  · rw [returned.outcomes, List.length_cons, Nat.add_sub_add_right, List.replicate_succ,
      List.cons_append]
  · rw [List.take_succ_cons, List.flatten_cons, List.length_append]
    rcases Nat.eq_zero_or_pos (blocks.take n).flatten.length with none | positive
    · rw [none]
      exact whole
    · rw [← fits_spend room _ positive]
      exact returned.fitting
  · rcases returned.handed with ⟨rfl, rfl⟩ | ⟨block, part, next, past, starts, proper, rfl⟩
    · exact Or.inl ⟨rfl, rfl⟩
    · refine Or.inr ⟨block, part, next, ?_, starts, proper, by simp⟩
      have positive : 0 < ((blocks.take n).flatten ++ block).length := by
        apply Nat.pos_of_ne_zero
        intro none
        rw [none, fits_zero] at past
        cases past
      rw [List.take_succ_cons, List.flatten_cons, List.append_assoc, List.length_append,
        ← fits_spend room _ positive]
      exact past

theorem puts_returned (blocks : List Bytes) (all : ∀ data ∈ blocks, data ≠ [])
    (stands : Stands limit ending written w) (enough : fits limit written.length = true) :
    ∃ n more, handed (puts e blocks w).2 = handed w ++ more ∧
      Returned e (spend limit written.length) ending blocks n (puts e blocks w).1 more := by
  induction blocks generalizing written w with
  | nil =>
    exact ⟨0, [], (List.append_nil _).symm, Nat.le_refl 0, rfl, fits_zero _, Or.inl ⟨rfl, rfl⟩⟩
  | cons data later ih =>
    obtain ⟨some, others⟩ := List.forall_mem_cons.mp all
    have outcome := put_outcome (e := e) stands some
    have after := put_stands (e := e) stands some
    have takes : handed (put e data w).state =
        handed w ++ cut (spend limit written.length) data := by
      rw [handed_stands after, handed_stands stands, cut_append]
    have same := fits_spend limit written.length (List.length_pos_iff.mpr some)
    rw [← List.length_append] at same
    cases whole : fits limit (written ++ data).length with
    | true =>
      obtain ⟨n, more, behind, returned⟩ := ih others after whole
      rw [whole, if_pos rfl] at outcome
      rw [whole] at same
      rw [List.length_append, spend_add] at returned
      refine ⟨n + 1, data ++ more, ?_, ?_⟩
      · rw [puts, behind, takes, cut_of_fits same, List.append_assoc]
      · rw [puts, outcome]
        exact returned_cons returned same
    | false =>
      obtain ⟨outcomes, stays⟩ := puts_stopped (e := e) later others after whole
      rw [whole, if_neg Bool.false_ne_true] at outcome
      rw [whole] at same
      obtain ⟨starts, proper⟩ := cut_proper same
      refine ⟨0, cut (spend limit written.length) data, ?_, Nat.zero_le _, ?_, fits_zero _,
        Or.inr ⟨data, _, rfl, same, starts, proper, rfl⟩⟩
      · rw [puts, stays, takes]
      · rw [puts, outcome, outcomes]
        rfl

end Writes

end WriteHalves
