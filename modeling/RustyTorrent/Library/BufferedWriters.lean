import RustyTorrent.Library.WriteHalves

/- tokio's write buffer in front of a connection that takes only so many bytes, as a write
   half. -/
namespace BufferedWriters
open RustExec ByteStreams WriteHalves

variable {ε : Type}

/-- `room`: how many bytes the connection still takes, if there is a limit. `ending`: what a
    write past it meets. -/
@[ext] structure Writer where
  handed : Bytes
  buffered : Bytes
  room : Option Nat
  ending : Ending
  deriving DecidableEq, Repr

def Writer.start (room : Option Nat) (ending : Ending) : Writer := ⟨[], [], room, ending⟩

/-- tokio's write buffer. -/
def capacity : Nat := 8192

def pass (ioError : ε) (data : Bytes) : Exec Writer ε Unit := fun w =>
  ⟨if fits w.room data.length then .ok () else stop ioError w.ending,
    { w with handed := w.handed ++ cut w.room data, room := spend w.room data.length }, []⟩

def flush (ioError : ε) : Exec Writer ε Unit := fun w =>
  ⟨(pass ioError w.buffered w).outcome,
    { (pass ioError w.buffered w).state with
      buffered := w.buffered.drop (cut w.room w.buffered).length }, []⟩

def store (data : Bytes) : Exec Writer ε Unit := fun w =>
  ⟨.ok (), { w with buffered := w.buffered ++ data }, []⟩

def makeRoom (ioError : ε) (data : Bytes) : Exec Writer ε Unit := do
  let w ← readState
  if w.buffered.length + data.length > capacity then flush ioError else return ()

/-- What would fill the buffer alone goes past it. -/
def place (ioError : ε) (data : Bytes) : Exec Writer ε Unit :=
  if data.length ≥ capacity then pass ioError data else store data

def writeAll (ioError : ε) (data : Bytes) : Exec Writer ε Unit := do
  makeRoom ioError data
  place ioError data

structure Stands (limit : Option Nat) (ending : Ending) (written : Bytes) (w : Writer) : Prop where
  handed : w.handed = cut limit written
  room : w.room = spend limit written.length
  ending : w.ending = ending
  buffered : fits limit written.length = true → w.buffered = []

variable {limit : Option Nat} {ending : Ending} {written data : Bytes} {w : Writer} {e : ε}

structure Takes (e : ε) (w : Writer) (data : Bytes) (run : Run Writer ε Unit) : Prop where
  outcome : run.outcome = if fits w.room data.length then .ok () else stop e w.ending
  handed : run.state.handed = w.handed ++ cut w.room data
  room : run.state.room = spend w.room data.length
  ending : run.state.ending = w.ending
  buffered : fits w.room data.length = true → run.state.buffered = []

theorem takes_of_leads {x y : Exec Writer ε Unit} {w' : Writer} (leads : Leads x w y w')
    (takes : Takes e w data (y w')) : Takes e w data (x w) := by
  obtain ⟨outcome, state⟩ := leads
  constructor
  · rw [outcome, takes.outcome]
  · rw [state, takes.handed]
  · rw [state, takes.room]
  · rw [state, takes.ending]
  · rw [state]
    exact takes.buffered

theorem takes_pass (clear : fits w.room data.length = true → w.buffered = []) :
    Takes e w data (pass e data w) :=
  ⟨rfl, rfl, rfl, rfl, clear⟩

theorem takes_flush : Takes e w w.buffered (flush e w) := by
  refine ⟨rfl, rfl, rfl, rfl, ?_⟩
  intro enough
  change w.buffered.drop (cut w.room w.buffered).length = []
  rw [cut_of_fits enough, List.drop_length]

theorem flush_empty (empty : w.buffered = []) : Returns (flush e) w () w := by
  have takes := @takes_flush ε w e
  rw [empty] at takes
  constructor
  · rw [takes.outcome, List.length_nil, if_pos (fits_zero _)]
  · ext1
    · rw [takes.handed, cut_nil, List.append_nil]
    · rw [takes.buffered (fits_zero _), empty]
    · rw [takes.room, List.length_nil, spend_zero]
    · exact takes.ending

theorem leads_stop {x : Exec Writer ε Unit} {f : Unit → Exec Writer ε Unit}
    (stops : (x w).outcome = stop e ending) : Leads (x >>= f) w x w := by
  obtain ⟨outcome, state⟩ := stops_bind (f := f) stops
  exact ⟨outcome.trans stops.symm, state⟩

theorem takes_then_flush {x : Exec Writer ε Unit} (takes : Takes e w data (x w)) :
    Takes e w data ((x >>= fun _ => flush e) w) := by
  by_cases enough : fits w.room data.length = true
  · have outcome := takes.outcome
    rw [if_pos enough] at outcome
    obtain ⟨value, state⟩ := (returns_bind_step (f := fun _ => flush e) ⟨outcome, rfl⟩).mpr
      (flush_empty (takes.buffered enough))
    exact takes_of_leads ⟨value.trans outcome.symm, state⟩ takes
  · have outcome := takes.outcome
    rw [if_neg enough] at outcome
    exact takes_of_leads (leads_stop outcome) takes

theorem takes_full {other : Bytes} {run : Run Writer ε Unit} (full : w.room = some 0)
    (some : data ≠ []) (someOther : other ≠ []) (takes : Takes e w data run) :
    Takes e w other run := by
  have none {bytes : Bytes} (some : bytes ≠ []) : fits w.room bytes.length = false := by
    rw [full]
    exact decide_eq_false (by simpa using some)
  refine ⟨?_, ?_, ?_, takes.ending, ?_⟩
  · rw [takes.outcome, none some, none someOther]
  · rw [takes.handed, full]
    rfl
  · rw [takes.room, full]
    simp [spend]
  · intro enough
    rw [none someOther] at enough
    cases enough

theorem not_fits_full (full : w.room = some 0) (some : data ≠ []) :
    fits w.room data.length = false := by
  rw [full]
  exact decide_eq_false (by simpa using some)

theorem takes_place (clear : w.buffered = [] ∨ w.room = some 0) (some : data ≠ []) :
    Takes e w data ((place e data >>= fun _ => flush e) w) := by
  by_cases large : data.length ≥ capacity
  · rw [place, if_pos large]
    apply takes_then_flush
    apply takes_pass
    intro enough
    rcases clear with empty | full
    · exact empty
    · rw [not_fits_full full some] at enough
      cases enough
  · rw [place, if_neg large]
    have flushed := @takes_flush ε { w with buffered := w.buffered ++ data } e
    have takes : Takes e w (w.buffered ++ data) ((store data >>= fun _ => flush e) w) :=
      takes_of_leads (leads_bind ⟨rfl, rfl⟩) ⟨flushed.outcome, flushed.handed, flushed.room,
        flushed.ending, flushed.buffered⟩
    rcases clear with empty | full
    · rw [empty, List.nil_append] at takes
      exact takes
    · exact takes_full full (by simp [some]) some takes

theorem makeRoom_cases (clear : w.buffered = [] ∨ w.room = some 0) :
    Returns (makeRoom e data) w () w ∨
      w.room = some 0 ∧ w.buffered ≠ [] ∧ Takes e w w.buffered (makeRoom e data w) := by
  unfold makeRoom
  by_cases overflows : w.buffered.length + data.length > capacity
  · by_cases empty : w.buffered = []
    · left
      rw [returns_readState_bind, if_pos overflows]
      exact flush_empty empty
    · right
      refine ⟨clear.resolve_left empty, empty, ?_⟩
      apply takes_of_leads (leads_bind (returns_current w))
      rw [if_pos overflows]
      exact takes_flush
  · left
    rw [returns_readState_bind, if_neg overflows]
    exact returns_value _ _

theorem takes_put (clear : w.buffered = [] ∨ w.room = some 0) (some : data ≠ []) :
    Takes e w data ((writeAll e data >>= fun _ => flush e) w) := by
  unfold writeAll
  rw [bind_assoc]
  rcases makeRoom_cases (e := e) clear with made | ⟨full, left, takes⟩
  · exact takes_of_leads (leads_bind made) (takes_place clear some)
  · have stops := takes.outcome
    rw [not_fits_full full left, if_neg Bool.false_ne_true] at stops
    exact takes_of_leads (leads_stop stops) (takes_full full left some takes)

theorem start_stands : Stands limit ending [] (Writer.start limit ending) := by
  constructor
  · exact (cut_nil limit).symm
  · exact (spend_zero limit).symm
  · rfl
  · exact fun _ => rfl

theorem stands_clear (stands : Stands limit ending written w) :
    w.buffered = [] ∨ w.room = some 0 := by
  by_cases enough : fits limit written.length = true
  · exact Or.inl (stands.buffered enough)
  · right
    rw [stands.room]
    exact spend_of_not_fits (Bool.eq_false_iff.mpr enough)

theorem takes_fits (stands : Stands limit ending written w) (some : data ≠ []) :
    fits w.room data.length = fits limit (written ++ data).length := by
  rw [stands.room, List.length_append]
  exact fits_spend limit written.length (List.length_pos_iff.mpr some)

theorem stands_takes {run : Run Writer ε Unit} (stands : Stands limit ending written w)
    (some : data ≠ []) (takes : Takes e w data run) :
    Stands limit ending (written ++ data) run.state := by
  constructor
  · rw [takes.handed, stands.handed, stands.room, cut_append]
  · rw [takes.room, stands.room, List.length_append, spend_add]
  · rw [takes.ending, stands.ending]
  · intro enough
    exact takes.buffered ((takes_fits stands some).trans enough)

instance : WriteHalf Writer where
  start := Writer.start
  handed := Writer.handed
  writeAll := writeAll
  flush := flush
  Stands := Stands
  start_stands _ _ := start_stands
  handed_stands := Stands.handed
  block_outcome e _ _ _ _ _ stands some := by
    rw [(takes_put (e := e) (stands_clear stands) some).outcome, takes_fits stands some,
      stands.ending]
  block_stands e _ _ _ _ _ stands some :=
    stands_takes stands some (takes_put (e := e) (stands_clear stands) some)
  flush_stands _ _ _ _ _ stands enough := flush_empty (stands.buffered enough)

theorem idle_iff : Idle w ↔ w.buffered = [] := by
  constructor
  · intro idle
    obtain ⟨limit, ending, written, stands, enough⟩ := idle
    exact Stands.buffered stands enough
  · intro empty
    have whole : fits (w.room.map (· + w.handed.length)) w.handed.length = true := by
      cases w.room with
      | none => rfl
      | some room => exact decide_eq_true (Nat.le_add_left _ room)
    have left : w.room = spend (w.room.map (· + w.handed.length)) w.handed.length := by
      cases w.room with
      | none => rfl
      | some room => simp [spend]
    have stands : Stands (w.room.map (· + w.handed.length)) w.ending w.handed w :=
      ⟨(cut_of_fits whole).symm, left, rfl, fun _ => empty⟩
    exact ⟨_, _, _, stands, whole⟩

end BufferedWriters
