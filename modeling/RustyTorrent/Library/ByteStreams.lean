import RustyTorrent.Library.RustExec

/- One direction of a connection as its reader sees it at one moment: the bytes that have
   arrived and are unread, and what a read past them meets. -/
namespace ByteStreams
open RustExec

variable {σ ε α : Type}

/-- fails: an I/O error, as at the end of the file. silent: nothing more has arrived yet. -/
inductive Ending where
  | fails
  | silent
  deriving DecidableEq, Repr

@[ext] structure Reader where
  arrived : Bytes
  ending : Ending
  deriving DecidableEq, Repr

/-- `read_exact` on a fresh buffer of `k` bytes. A read that comes up short has already
    taken what there was. -/
def readExact (ioError : ε) (k : Nat) (small : k < 2 ^ 63) : Exec Reader ε ByteSeq :=
  fun reader =>
    if k ≤ reader.arrived.length then
      ⟨.ok ⟨reader.arrived.take k, by simp only [List.length_take]; omega⟩,
        { reader with arrived := reader.arrived.drop k }, []⟩
    else
      match reader.ending with
      | .fails => ⟨.err ioError, { reader with arrived := [] }, []⟩
      | .silent => ⟨.pending, { reader with arrived := [] }, []⟩

/-- `tokio::time::timeout` at a moment when nothing more arrives: a future that waits is
    dropped, and what it has done to the state stays done. -/
def timeout (x : Exec σ ε α) : Exec σ ε (Option α) := fun s =>
  ⟨match (x s).outcome with
    | .ok a => .ok (some a)
    | .err e => .err e
    | .panic f => .panic f
    | .pending => .ok none
    | .outOfFuel => .outOfFuel,
    (x s).state, (x s).trace⟩

theorem returns_readExact {e : ε} {k : Nat} {small : k < 2 ^ 63} {reader reader' : Reader}
    {out : ByteSeq} :
    Returns (readExact e k small) reader out reader' ↔
      out.bytes.length = k ∧ reader.arrived = out.bytes ++ reader'.arrived ∧
        reader'.ending = reader.ending := by
  unfold Returns readExact
  by_cases enough : k ≤ reader.arrived.length
  · simp only [enough, ↓reduceIte, Outcome.ok.injEq]
    constructor
    · intro both
      obtain ⟨rfl, rfl⟩ := both
      simp [enough]
    · intro parts
      obtain ⟨rfl, split, ending⟩ := parts
      constructor
      · ext1
        simp [split]
      · ext1
        · simp [split]
        · exact ending.symm
  · simp only [enough, ↓reduceIte]
    constructor
    · intro run
      cases h : reader.ending <;> simp [h] at run
    · intro parts
      obtain ⟨size, split, -⟩ := parts
      rw [split, List.length_append] at enough
      omega

theorem readExact_short {e : ε} {k : Nat} {small : k < 2 ^ 63} {reader : Reader}
    (short : reader.arrived.length < k) :
    (readExact e k small reader).state = ⟨[], reader.ending⟩ ∧
      (readExact e k small reader).outcome =
        match reader.ending with
        | .fails => .err e
        | .silent => .pending := by
  have no : ¬ k ≤ reader.arrived.length := by omega
  unfold readExact
  simp only [no, ↓reduceIte]
  cases h : reader.ending <;> simp

theorem waits_readExact {e : ε} {k : Nat} {small : k < 2 ^ 63} {arrived : Bytes}
    (short : arrived.length < k) :
    Waits (readExact e k small) ⟨arrived, .silent⟩ ⟨[], .silent⟩ := by
  obtain ⟨state, outcome⟩ := @readExact_short ε e k small ⟨arrived, .silent⟩ short
  exact ⟨outcome, state⟩

section Timeout
variable {x : Exec σ ε α} {s s' : σ}

theorem returns_timeout_some {a : α} : Returns (timeout x) s (some a) s' ↔ Returns x s a s' := by
  unfold Returns timeout
  cases (x s).outcome <;> simp

theorem returns_timeout_none : Returns (timeout x) s none s' ↔ Waits x s s' := by
  unfold Returns timeout Waits
  cases (x s).outcome <;> simp

end Timeout

end ByteStreams
