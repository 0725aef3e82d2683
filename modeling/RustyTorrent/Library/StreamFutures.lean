import RustyTorrent.Library.ByteStreams

/- Async functions on one stream, each as the first thing it does and what it goes on with. A
   function that is alone with its reader runs as a computation on it. -/
namespace StreamFutures
open RustExec ByteStreams

variable {ε α β : Type}

/-- A read asks for exactly `k` bytes, and ends the function with `ioError` at the end of the
    file. -/
inductive Future (ε α : Type) where
  | done (value : α)
  | fail (error : ε)
  | write (bytes : Bytes) (next : Future ε α)
  | flush (next : Future ε α)
  | read (ioError : ε) (k : Nat) (next : Vector UInt8 k → Future ε α)

namespace Future

def bind : Future ε α → (α → Future ε β) → Future ε β
  | .done a, f => f a
  | .fail e, _ => .fail e
  | .write bytes next, f => .write bytes (next.bind f)
  | .flush next, f => .flush (next.bind f)
  | .read ioError k next, f => .read ioError k fun v => (next v).bind f

instance : Monad (Future ε) where
  pure := Future.done
  bind := Future.bind

def writeAll (bytes : Bytes) : Future ε Unit := .write bytes (.done ())

def flushAll : Future ε Unit := .flush (.done ())

def readExact (ioError : ε) (k : Nat) : Future ε (Vector UInt8 k) := .read ioError k .done

def Returned : Future ε α → Prop
  | .done _ => True
  | .fail _ => True
  | _ => False

def upcoming : Future ε α → Bytes
  | .write bytes next => bytes ++ next.upcoming
  | .flush next => next.upcoming
  | _ => []

def Silent : Future ε α → Prop
  | .done _ => True
  | .fail _ => True
  | .write _ _ => False
  | .flush next => next.Silent
  | .read _ _ next => ∀ v, (next v).Silent

def WritesFirst : Future ε α → Prop
  | .done _ => True
  | .fail _ => True
  | .write _ next => next.WritesFirst
  | .flush next => next.WritesFirst
  | .read _ _ next => ∀ v, (next v).Silent

end Future

def leading {k : Nat} (bytes : Bytes) (enough : k ≤ bytes.length) : Vector UInt8 k :=
  ⟨(bytes.take k).toArray, by simp [enough]⟩

def consByte {k : Nat} (b : UInt8) (v : Vector UInt8 k) : Vector UInt8 (k + 1) :=
  ⟨(b :: v.toList).toArray, by simp⟩

/-- The run of a function on what arrives. Writes and flushes succeed. -/
def Future.onReader : Future ε α → Exec Reader ε α
  | .done a => Exec.pure a
  | .fail e => RustExec.fail e
  | .write _ next => next.onReader
  | .flush next => next.onReader
  | .read ioError k next => fun reader =>
      if enough : k ≤ reader.arrived.length then
        (next (leading reader.arrived enough)).onReader
          { reader with arrived := reader.arrived.drop k }
      else
        match reader.ending with
        | .fails => ⟨.err ioError, { reader with arrived := [] }, []⟩
        | .silent => ⟨.pending, { reader with arrived := [] }, []⟩

theorem leading_append {k : Nat} (v : Vector UInt8 k) (rest : Bytes)
    (enough : k ≤ (v.toList ++ rest).length) : leading (v.toList ++ rest) enough = v := by
  apply Vector.toList_inj.mp
  simp [leading, Vector.toList]

theorem leading_cons {k : Nat} (b : UInt8) (rest : Bytes) (enough : k ≤ rest.length) :
    leading (b :: rest) (Nat.succ_le_succ enough) = consByte b (leading rest enough) := by
  apply Vector.toList_inj.mp
  simp [leading, consByte, Vector.toList]

section Running
variable {ioError : ε} {k : Nat} {next : Vector UInt8 k → Future ε α} {ending : Ending}

theorem leads_read (v : Vector UInt8 k) (rest : Bytes) :
    Leads (Future.read ioError k next).onReader ⟨v.toList ++ rest, ending⟩
      (next v).onReader ⟨rest, ending⟩ := by
  have enough : k ≤ (v.toList ++ rest).length := by simp
  have behind : (v.toList ++ rest).drop k = rest := by simp
  unfold Leads
  simp only [Future.onReader, enough, ↓reduceDIte, leading_append, behind, and_self]

theorem returns_read {arrived : Bytes} {a : α} {r : Reader} :
    Returns (Future.read ioError k next).onReader ⟨arrived, ending⟩ a r ↔
      ∃ (v : Vector UInt8 k) (rest : Bytes), arrived = v.toList ++ rest ∧
        Returns (next v).onReader ⟨rest, ending⟩ a r := by
  constructor
  · intro run
    by_cases enough : k ≤ arrived.length
    · have cut : arrived = (leading arrived enough).toList ++ arrived.drop k := by
        simp [leading, Vector.toList]
      rw [cut, returns_of_leads (leads_read _ _)] at run
      exact ⟨_, _, cut, run⟩
    · obtain ⟨outcome, -⟩ := run
      simp only [Future.onReader, enough, ↓reduceDIte] at outcome
      cases ending <;> cases outcome
  · intro parts
    obtain ⟨v, rest, rfl, run⟩ := parts
    exact (returns_of_leads (leads_read v rest)).mpr run

theorem leads_read_byte {next : Vector UInt8 (k + 1) → Future ε α} (b : UInt8) (rest : Bytes) :
    Leads (Future.read ioError (k + 1) next).onReader ⟨b :: rest, ending⟩
      (Future.read ioError k fun v => next (consByte b v)).onReader ⟨rest, ending⟩ := by
  unfold Leads
  by_cases enough : k ≤ rest.length
  · have more : k + 1 ≤ (b :: rest).length := Nat.succ_le_succ enough
    simp only [Future.onReader, enough, more, ↓reduceDIte, leading_cons b rest enough,
      List.drop_succ_cons, and_self]
  · have short : ¬ k + 1 ≤ (b :: rest).length := fun more => enough (Nat.le_of_succ_le_succ more)
    simp only [Future.onReader, enough, short, ↓reduceDIte]
    cases ending <;> simp

theorem leads_read_empty {next : Vector UInt8 0 → Future ε α} (rest : Bytes) :
    Leads (Future.read ioError 0 next).onReader ⟨rest, ending⟩
      (next #v[]).onReader ⟨rest, ending⟩ :=
  leads_read #v[] rest

end Running

theorem upcoming_of_silent {code : Future ε α} (silent : code.Silent) : code.upcoming = [] := by
  induction code with
  | write bytes next => cases silent
  | flush next ih => exact ih silent
  | _ => rfl

theorem writesFirst_of_silent {code : Future ε α} (silent : code.Silent) : code.WritesFirst := by
  induction code with
  | write bytes next => cases silent
  | flush next ih => exact ih silent
  | read ioError k next => exact silent
  | _ => trivial

theorem returned_unique {x y : Future ε α} {r t : Reader} (one : x.Returned) (other : y.Returned)
    (same : Leads x.onReader r y.onReader t) : x = y ∧ r = t := by
  obtain ⟨outcome, state⟩ := same
  cases x with
  | done a =>
    cases y with
    | done b =>
      cases outcome
      exact ⟨rfl, state⟩
    | fail e => cases outcome
    | _ => cases other
  | fail e =>
    cases y with
    | done b => cases outcome
    | fail e' =>
      cases outcome
      exact ⟨rfl, state⟩
    | _ => cases other
  | _ => cases one

theorem silent_bind {x : Future ε α} {f : α → Future ε β} (first : x.Silent)
    (next : ∀ a, (f a).Silent) : (x >>= f).Silent := by
  change (x.bind f).Silent
  induction x with
  | done a => exact next a
  | fail e => trivial
  | write bytes rest => cases first
  | flush rest ih => exact ih first
  | read ioError k rest ih => exact fun v => ih v (first v)

theorem onReader_bind (x : Future ε α) (f : α → Future ε β) :
    (x >>= f).onReader = x.onReader >>= fun a => (f a).onReader := by
  change (x.bind f).onReader = Exec.bind x.onReader fun a => (f a).onReader
  induction x with
  | done a => rfl
  | fail e => rfl
  | write bytes rest ih => exact ih
  | flush rest ih => exact ih
  | read ioError k rest ih =>
    funext reader
    by_cases enough : k ≤ reader.arrived.length
    · simp only [Future.bind, Future.onReader, Exec.bind, enough, ↓reduceDIte, ih]
    · simp only [Future.bind, Future.onReader, Exec.bind, enough, ↓reduceDIte]
      cases reader.ending <;> rfl

inductive Next : Future ε α → Future ε α → Prop where
  | store (b : UInt8) (rest : Bytes) (next : Future ε α) :
      Next (.write rest next) (.write (b :: rest) next)
  | stored (next : Future ε α) : Next next (.write [] next)
  | flushed (next : Future ε α) : Next next (.flush next)
  | take (ioError : ε) (k : Nat) (next : Vector UInt8 (k + 1) → Future ε α) (b : UInt8) :
      Next (.read ioError k fun v => next (consByte b v)) (.read ioError (k + 1) next)
  | taken (ioError : ε) (next : Vector UInt8 0 → Future ε α) :
      Next (next #v[]) (.read ioError 0 next)

theorem next_accessible_write {next : Future ε α} (ended : Acc Next next) (bytes : Bytes) :
    Acc Next (.write bytes next) := by
  induction bytes with
  | nil =>
    constructor
    intro code step
    cases step
    exact ended
  | cons b rest ih =>
    constructor
    intro code step
    cases step
    exact ih

theorem next_accessible_read {ioError : ε} {k : Nat} {next : Vector UInt8 k → Future ε α}
    (ended : ∀ v, Acc Next (next v)) : Acc Next (.read ioError k next) := by
  induction k with
  | zero =>
    constructor
    intro code step
    cases step
    exact ended #v[]
  | succ k ih =>
    constructor
    intro code step
    cases step with
    | take _ _ _ b => exact ih fun v => ended (consByte b v)

theorem next_wellFounded : WellFounded (@Next ε α) := by
  constructor
  intro code
  induction code with
  | done a => exact ⟨_, fun _ step => nomatch step⟩
  | fail e => exact ⟨_, fun _ step => nomatch step⟩
  | write bytes next ih => exact next_accessible_write ih bytes
  | flush next ih =>
    constructor
    intro code step
    cases step
    exact ih
  | read ioError k next ih => exact next_accessible_read ih

end StreamFutures
