import RustyTorrent.Library.WriteHalves
import RustyTorrent.Library.StreamFutures

/- A function of a stream that runs alone on both halves of a connection. Its reads do not see
   the writer, so that what writes first and then reads falls apart into the two. -/
namespace FutureRuns
open RustExec ByteStreams StreamFutures WriteHalves

variable {ε α β W : Type}

structure Connection (W : Type) where
  writer : W
  reader : Reader
  deriving DecidableEq, Repr

def onWriter : Exec W ε α → Exec (Connection W) ε α :=
  onField (·.writer) fun c writer => { c with writer }

def onReader : Exec Reader ε α → Exec (Connection W) ε α :=
  onField (·.reader) fun c reader => { c with reader }

def onConnection [WriteHalf W] (ioError : ε) : Future ε α → Exec (Connection W) ε α
  | .done a => pure a
  | .fail e => RustExec.fail e
  | .write bytes next => do
      onWriter (WriteHalf.writeAll ioError bytes)
      onConnection ioError next
  | .flush next => do
      onWriter (WriteHalf.flush ioError)
      onConnection ioError next
  | .read readError k next => do
      let v ← onReader (Future.readExact readError k).onReader
      onConnection ioError (next v)

structure ReadsOnly (x : Exec (Connection W) ε α) (y : Exec Reader ε α) (w : W) (r : Reader) :
    Prop where
  outcome : (x ⟨w, r⟩).outcome = (y r).outcome
  state : (x ⟨w, r⟩).state = ⟨w, (y r).state⟩

variable {e : ε} {w w' : W} {r : Reader}

theorem leads_onWriter {x : Exec W ε Unit} {f : Unit → Exec (Connection W) ε α}
    (wrote : Returns x w () w') :
    Leads (onWriter x >>= f) ⟨w, r⟩ (f ()) ⟨w', r⟩ := by
  exact leads_bind (returns_onField.mpr ⟨w', wrote, rfl⟩)

theorem readsOnly_bind {x : Exec Reader ε β} {f : β → Exec (Connection W) ε α}
    {g : β → Exec Reader ε α} (later : ∀ b r', ReadsOnly (f b) (g b) w r') :
    ReadsOnly (onReader x >>= f) (x >>= g) w r := by
  have both : (Exec.bind (onReader x) f ⟨w, r⟩).outcome = (Exec.bind x g r).outcome ∧
      (Exec.bind (onReader x) f ⟨w, r⟩).state = ⟨w, (Exec.bind x g r).state⟩ := by
    unfold Exec.bind onReader onField
    rcases x r with ⟨o, r', t⟩
    cases o with
    | ok b => exact ⟨(later b r').outcome, (later b r').state⟩
    | _ => exact ⟨rfl, rfl⟩
  exact ⟨both.1, both.2⟩

theorem silent_onConnection [WriteHalf W] {code : Future ε α} (silent : code.Silent)
    (idle : Idle w) : ReadsOnly (onConnection e code) code.onReader w r := by
  induction code generalizing r with
  | done a => exact ⟨rfl, rfl⟩
  | fail error => exact ⟨rfl, rfl⟩
  | write bytes next => cases silent
  | flush next ih =>
    have flushed := leads_onWriter (r := r) (f := fun _ => onConnection e next)
      (idle_flush (e := e) idle)
    have rest := @ih r silent
    exact ⟨flushed.1.trans rest.outcome, flushed.2.trans rest.state⟩
  | read readError k next ih =>
    have split : (Future.read readError k next).onReader =
        (Future.readExact readError k).onReader >>= fun v => (next v).onReader :=
      onReader_bind (Future.readExact readError k) next
    rw [split]
    exact readsOnly_bind fun v r' => ih v (silent v)

theorem onWriter_bind (x : Exec W ε β) (f : β → Exec W ε α) :
    onWriter (x >>= f) = onWriter x >>= fun b => onWriter (f b) := by
  funext c
  change onWriter (Exec.bind x f) c = Exec.bind (onWriter x) (fun b => onWriter (f b)) c
  rcases h : x c.writer with ⟨o, w', t⟩
  cases o <;> simp only [Exec.bind, onWriter, onField, h]

theorem onConnection_put [WriteHalf W] (data : Bytes) (next : Future ε α) :
    (onConnection e (.write data (.flush next)) : Exec (Connection W) ε α) =
      onWriter (put e data) >>= fun _ => onConnection e next := by
  rw [put, onWriter_bind, bind_assoc]
  rfl

theorem onReader_short {k : Nat} {next : Vector UInt8 k → Future ε α} {arrived : Bytes}
    {ending : Ending} (short : arrived.length < k) :
    ((Future.read e k next).onReader ⟨arrived, ending⟩).outcome = stop e ending ∧
      ((Future.read e k next).onReader ⟨arrived, ending⟩).state = ⟨[], ending⟩ := by
  have no : ¬ k ≤ arrived.length := not_le.mpr short
  simp only [Future.onReader, no, ↓reduceDIte]
  cases ending <;> exact ⟨rfl, rfl⟩

section Opening
variable [WriteHalf W] {data : Bytes} {next : Future ε α}

theorem leads_first_block (wrote : Returns (put e data) w () w') :
    Leads (onConnection e (.write data (.flush next))) ⟨w, r⟩ (onConnection e next) ⟨w', r⟩ := by
  rw [onConnection_put]
  exact leads_onWriter wrote

theorem first_block_stops {ending : Ending} (stops : (put e data w).outcome = stop e ending) :
    (onConnection e (.write data (.flush next)) ⟨w, r⟩).outcome = stop e ending := by
  have first : (onWriter (put e data) (⟨w, r⟩ : Connection W)).outcome = stop e ending := stops
  rw [onConnection_put]
  exact (stops_bind first).1

end Opening

end FutureRuns
