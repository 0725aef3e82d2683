import RustyTorrent.Library.BufferedWriters
import RustyTorrent.Peer.TimeoutStep

/- The outgoing messages of src/peer/message.rs: their builders, write, and what a reader at the
   other end of a connection makes of a run of writes. -/
namespace OutgoingMessages
open RustExec BigEndian ByteStreams WriteHalves PeerMessage WireFraming

variable {W : Type} [WriteHalf W]

def new (id : MessageId) : Message := ⟨id, [], by decide⟩

def withPayload (id : MessageId) (payload : ByteSeq) : Message := ⟨id, payload⟩

def «have» (index : UInt32) : Message :=
  withPayload .have ⟨toBe 4 index.toNat, by simp⟩

def request (index start length : UInt32) : Message :=
  withPayload .request ⟨toBe 4 index.toNat ++ toBe 4 start.toNat ++ toBe 4 length.toNat, by simp⟩

def write (p : Profile) (self : Message) : Exec W MessageError Unit := do
  let (data, _) ← within () (self.serialize p)
  WriteHalf.writeAll .io data
  WriteHalf.flush .io

/-- The messages that a reader admits by their size. -/
abbrev WireMessage := { m : Message // 1 + m.payload.bytes.length ≤ maxMessageSize.toNat }

def WireMessage.frame (m : WireMessage) : Frame := .message m.1.id.toByte m.1.payload.bytes m.2

def writes (p : Profile) : List WireMessage → W → List (Outcome MessageError Unit) × W
  | [], w => ([], w)
  | m :: later, w =>
      let run := write p m.1 w
      let rest := writes p later run.state
      (run.outcome :: rest.1, rest.2)

variable {p : Profile}

theorem frame_some (m : WireMessage) : m.frame.bytes ≠ [] := by
  intro empty
  have long := TimeoutStep.frame_long m.frame
  rw [empty] at long
  cases long

theorem write_leads (m : WireMessage) (w : W) :
    Leads (write p m.1) w (put .io m.frame.bytes) w := by
  have data : Returns (m.1.serialize p) () m.frame.bytes () := serialize_frame m.2
  have serialized : Returns (within () (m.1.serialize p) : Exec W MessageError _) w
      (m.frame.bytes, ()) w := returns_within.mpr ⟨data, rfl⟩
  unfold write
  exact leads_trans (leads_bind serialized) (leads_refl _ _)

theorem writes_eq (messages : List WireMessage) (w : W) :
    writes p messages w = puts .io (messages.map fun m => m.frame.bytes) w := by
  induction messages generalizing w with
  | nil => rfl
  | cons m later ih =>
    obtain ⟨outcome, state⟩ := write_leads (p := p) m w
    rw [writes, List.map_cons, puts, outcome, state, ih]

theorem frame_result (m : WireMessage) : m.frame.result = .ok (some m.1) := by
  have known : knownIds[m.1.id.toByte.toNat]? = some m.1.id := by
    cases m.1.id <;> rfl
  exact TimeoutStep.result_of_index m.2 known

theorem readExact_stops {e : MessageError} {k : Nat} {small : k < 2 ^ 63} {arrived : Bytes}
    {ending : Ending} (short : arrived.length < k) :
    (readExact e k small ⟨arrived, ending⟩).outcome = stop e ending ∧
      (readExact e k small ⟨arrived, ending⟩).state = ⟨[], ending⟩ := by
  obtain ⟨state, outcome⟩ := @readExact_short MessageError e k small ⟨arrived, ending⟩ short
  refine ⟨?_, state⟩
  rw [outcome]
  cases ending <;> rfl

theorem read_short {part : Bytes} (short : part.length < 4) (ending : Ending) :
    (Message.read ⟨part, ending⟩).outcome = stop .io ending ∧
      (Message.read ⟨part, ending⟩).state = ⟨[], ending⟩ := by
  obtain ⟨outcome, state⟩ := readExact_stops short
  obtain ⟨stops, same⟩ := stops_bind outcome
  exact ⟨stops, same.trans state⟩

theorem read_part {frame : Frame} {part : Bytes} (starts : part <+: frame.bytes)
    (proper : part ≠ frame.bytes) (ending : Ending) :
    (Message.read ⟨part, ending⟩).outcome = stop .io ending ∧
      (Message.read ⟨part, ending⟩).state = ⟨[], ending⟩ := by
  have short : part.length < frame.bytes.length :=
    lt_of_le_of_ne starts.length_le fun same => proper (starts.eq_of_length same)
  by_cases inPrefix : part.length < 4
  · exact read_short inPrefix ending
  · cases frame with
    | keepAlive => exact absurd short inPrefix
    | message id payload fits =>
      obtain ⟨behind, whole⟩ := starts
      have lengthBytes : part.take 4 = toBe 4 (1 + payload.length) := by
        have cut : (part ++ behind).take 4 = part.take 4 :=
          List.take_append_of_le_length (by omega)
        rw [← cut, whole]
        exact List.take_left' (toBe_length _ _)
      obtain ⟨body, split⟩ : ∃ body, part = toBe 4 (1 + payload.length) ++ body :=
        ⟨part.drop 4, by rw [← lengthBytes, List.take_append_drop]⟩
      rw [split] at short ⊢
      have less : body.length < 1 + payload.length := by
        simp only [Frame.bytes, List.length_append, toBe_length, List.length_cons] at short
        omega
      have leads := read_body (by omega) fits body ending
      obtain ⟨outcome, state⟩ := readExact_stops less
      obtain ⟨stops, same⟩ := stops_bind outcome
      exact ⟨leads.1.trans stops, leads.2.trans (same.trans state)⟩

theorem reads_succ (n : Nat) (reader : Reader) :
    reads (n + 1) reader =
      ((reads n reader).1 ++ [(Message.read (reads n reader).2).outcome],
        (Message.read (reads n reader).2).state) := by
  induction n generalizing reader with
  | zero => rfl
  | succ n ih =>
    rw [reads, ih]
    rfl

def bytesOf (messages : List WireMessage) : Bytes := messages.flatMap fun m => m.frame.bytes

theorem bytesOf_succ {messages : List WireMessage} {n : Nat} (less : n < messages.length) :
    bytesOf (messages.take (n + 1)) = bytesOf (messages.take n) ++ messages[n].frame.bytes := by
  rw [List.take_succ_eq_append_getElem less, bytesOf, bytesOf, List.flatMap_append,
    List.flatMap_singleton]

theorem bytesOf_take (messages : List WireMessage) (n : Nat) :
    ((messages.map fun m => m.frame.bytes).take n).flatten = bytesOf (messages.take n) := by
  rw [← List.map_take, ← List.flatMap_def]
  rfl

theorem reads_messages (messages : List WireMessage) (rest : Bytes) (ending : Ending) :
    reads messages.length ⟨bytesOf messages ++ rest, ending⟩ =
      (messages.map fun m => .ok (some m.1), ⟨rest, ending⟩) := by
  have frames := reads_frames (messages.map WireMessage.frame) rest ending
  rw [streamOf, List.flatMap_map, List.length_map, List.map_map] at frames
  rw [bytesOf, frames]
  congr 1
  exact List.map_congr_left fun m _ => frame_result m

theorem reads_to_end (messages : List WireMessage) {frame : Frame} {part : Bytes}
    (starts : part <+: frame.bytes) (proper : part ≠ frame.bytes) (ending : Ending) :
    (reads (messages.length + 1) ⟨bytesOf messages ++ part, ending⟩).1 =
      (messages.map fun m => .ok (some m.1)) ++ [stop .io ending] := by
  rw [reads_succ, reads_messages, (read_part starts proper ending).1]

/-- Of messages written one after another to a connection that takes so many bytes, the writes
    return up to the first that does not fit, and the reader at the other end gets these messages
    and no other before it meets the end. -/
theorem written_is_read {W : Type} [WriteHalf W] (p : Profile) (messages : List WireMessage)
    (limit : Option Nat) (ending far : Ending) :
    ∃ n, n ≤ messages.length ∧ fits limit (bytesOf (messages.take n)).length = true ∧
      (n < messages.length → fits limit (bytesOf (messages.take (n + 1))).length = false) ∧
      (writes p messages (WriteHalf.start limit ending : W)).1 =
        List.replicate n (.ok ()) ++ List.replicate (messages.length - n) (stop .io ending) ∧
      (reads (n + 1)
          ⟨WriteHalf.handed (writes p messages (WriteHalf.start limit ending : W)).2, far⟩).1 =
        ((messages.take n).map fun m => .ok (some m.1)) ++ [stop .io far] := by
  have all : ∀ data ∈ messages.map (fun m => m.frame.bytes), data ≠ [] := by
    intro data member
    obtain ⟨m, -, rfl⟩ := List.mem_map.mp member
    exact frame_some m
  have start := WriteHalf.start_stands (W := W) limit ending
  obtain ⟨n, handed, more, returned⟩ :=
    puts_returned (e := MessageError.io) _ all start (fits_zero _)
  rw [List.length_nil, spend_zero] at returned
  have most := returned.most
  have outcomes := returned.outcomes
  have fitting := returned.fitting
  rw [List.length_map] at most outcomes
  rw [bytesOf_take] at fitting
  have taken : (messages.take n).length = n := List.length_take_of_le most
  rw [writes_eq, more, handed_start, List.nil_append]
  refine ⟨n, most, fitting, ?_, outcomes, ?_⟩
  · intro less
    rcases returned.handed with ⟨same, -⟩ | ⟨data, part, next, past, -⟩
    · rw [List.length_map] at same
      exact absurd same less.ne
    · rw [bytesOf_take] at past
      rw [List.getElem?_map, List.getElem?_eq_getElem less] at next
      cases next
      rw [bytesOf_succ less]
      exact past
  · rcases returned.handed with ⟨same, all⟩ | ⟨data, part, next, -, starts, proper, split⟩
    · have nothing : ([] : Bytes) <+: Frame.keepAlive.bytes := List.nil_prefix
      have whole := reads_to_end (messages.take n) nothing (by decide) far
      rw [List.append_nil, taken] at whole
      rw [all, ← List.take_length (l := messages.map _), ← same, bytesOf_take]
      exact whole
    · obtain ⟨m, -, rfl⟩ := List.mem_map.mp (List.mem_of_getElem? next)
      have cutOff := reads_to_end (messages.take n) starts proper far
      rw [taken] at cutOff
      rw [split, bytesOf_take]
      exact cutOff

def unchokeHave : List WireMessage :=
  [⟨new .unchoke, by decide⟩, ⟨«have» 3, by decide⟩]

theorem written_is_read_cut :
    (writes .debug unchokeHave (BufferedWriters.Writer.start (some 12) .fails)).1 =
        [.ok (), .err .io] ∧
      (reads 2 ⟨(writes .debug unchokeHave
        (BufferedWriters.Writer.start (some 12) .fails)).2.handed, .silent⟩).1 =
        [.ok (some (new .unchoke)), .pending] := by
  obtain ⟨n, most, fitting, next, outcomes, read⟩ :=
    @written_is_read BufferedWriters.Writer _ .debug unchokeHave (some 12) .fails .silent
  have only : ∀ n ≤ 2, fits (some 12) (bytesOf (unchokeHave.take n)).length = true →
      (n < 2 → fits (some 12) (bytesOf (unchokeHave.take (n + 1))).length = false) → n = 1 := by
    decide +kernel
  obtain rfl := only n most fitting next
  exact ⟨outcomes, read⟩

end OutgoingMessages
