import RustyTorrent.Library.BufferWrites
import RustyTorrent.Peer.PeerMessage

/- Blocks of a piece collected in one buffer by calls of parse_piece. A call that succeeds is a
   write of its block; a call that fails writes nothing. -/
namespace PieceAssembly
open RustExec BigEndian PeerMessage BufferWrites

variable {p : Profile} {expected : UInt32}

def blockOf (m : Message) : Write UInt8 :=
  ⟨ofBe ((m.payload.bytes.drop 4).take 4), m.payload.bytes.drop 8⟩

/-- Pass messages on one after another: the outcome of each call, and the final buffer. -/
def assemble (p : Profile) (expected : UInt32) :
    List Message → Bytes → List (Message × Outcome MessageError Nat) × Bytes
  | [], buf => ([], buf)
  | m :: later, buf =>
      let call := m.parsePiece p expected buf
      let rest := assemble p expected later call.state
      ((m, call.outcome) :: rest.1, rest.2)

def stored (calls : List (Message × Outcome MessageError Nat)) : List (Write UInt8) :=
  calls.filterMap fun call =>
    match call.2 with
    | .ok _ => some (blockOf call.1)
    | _ => none

theorem getU32_long {σ ε : Type} {bytes : Bytes} (long : 4 ≤ bytes.length) :
    (Message.getU32 bytes : Exec σ ε (UInt32 × Bytes)) =
      pure (UInt32.ofNat (ofBe (bytes.take 4)), bytes.drop 4) := if_pos long

theorem offset_small (bytes : Bytes) : ofBe ((bytes.drop 4).take 4) < 2 ^ 32 := by
  have bound := ofBe_lt ((bytes.drop 4).take 4)
  have size : ((bytes.drop 4).take 4).length ≤ 4 := by
    rw [List.length_take]
    omega
  calc ofBe ((bytes.drop 4).take 4) < 256 ^ ((bytes.drop 4).take 4).length := bound
    _ ≤ 256 ^ 4 := Nat.pow_le_pow_right (by decide) size
    _ = 2 ^ 32 := by decide

theorem parsePiece_behind {m : Message} (piece : m.id = .piece)
    (long : 8 ≤ m.payload.bytes.length)
    (same : UInt32.ofNat (ofBe (m.payload.bytes.take 4)) = expected) :
    m.parsePiece p expected = (do
      let block ← slice m.payload.bytes 8 m.payload.bytes.length
      let buf ← readState
      let bound ← usizeAdd p (blockOf m).start block.length
      if bound > buf.length then do
        let need ← usizeAdd p (blockOf m).start block.length
        fail (.payloadTooShort "piece data" need buf.length)
      else do
        let stop ← usizeAdd p (blockOf m).start block.length
        Message.copyInto (blockOf m).start stop block
        return block.length) := by
  have value : (UInt32.ofNat (ofBe ((m.payload.bytes.drop 4).take 4))).toNat =
      (blockOf m).start := by
    rw [UInt32.toNat_ofNat', Nat.mod_eq_of_lt (offset_small _)]
    rfl
  have short : ¬ m.payload.bytes.length < 8 := by omega
  simp only [Message.parsePiece, piece, ne_eq, not_true_eq_false, short, ↓reduceIte,
    getU32_long (show 4 ≤ m.payload.bytes.length by omega),
    getU32_long (show 4 ≤ (m.payload.bytes.drop 4).length by rw [List.length_drop]; omega),
    pure_bind, same, value]

theorem copyInto_fits {w : Write UInt8} {buf : Bytes} (fits : w.Fits buf.length) :
    Safe (Message.copyInto w.start (w.start + w.block.length) w.block) buf ∧
    Returns (Message.copyInto w.start (w.start + w.block.length) w.block) buf ()
      (overwrite buf w) := by
  unfold Write.Fits at fits
  have order : w.start ≤ w.start + w.block.length := by omega
  have size : ((buf.take (w.start + w.block.length)).drop w.start).length = w.block.length := by
    rw [List.length_drop, List.length_take]
    omega
  constructor
  · refine safe_readState_bind (safe_bind (safe_slice buf order fits) ?_)
    intro target buf' sliced
    obtain ⟨-, rfl, rfl⟩ := returns_slice.mp sliced
    rw [if_pos size]
    exact safe_writeState _ _
  · refine returns_readState_bind.mpr (returns_slice_bind.mpr ⟨⟨order, fits⟩, ?_⟩)
    rw [if_pos size]
    exact returns_writeState.mpr rfl

/-- What a call comes to: an error that leaves the buffer as it was, or a write of the block. -/
def Settled (p : Profile) (expected : UInt32) (m : Message) (buf : Bytes) : Prop :=
  Safe (m.parsePiece p expected) buf ∧
    ((∃ e, Fails (m.parsePiece p expected) buf e ∧ (m.parsePiece p expected buf).state = buf) ∨
    (blockOf m).Fits buf.length ∧ Returns (m.parsePiece p expected) buf (blockOf m).block.length
      (overwrite buf (blockOf m)))

theorem stop_fits (m : Message) : (blockOf m).start + (blockOf m).block.length < 2 ^ 64 := by
  have start := offset_small m.payload.bytes
  have payload := m.payload.fits
  simp only [blockOf, List.length_drop]
  omega

theorem parsePiece_refuses {m : Message}
    (refused : m.id ≠ .piece ∨ m.payload.bytes.length < 8 ∨
      UInt32.ofNat (ofBe (m.payload.bytes.take 4)) ≠ expected) :
    ∃ e, m.parsePiece p expected = fail e := by
  by_cases piece : m.id = .piece
  · by_cases short : m.payload.bytes.length < 8
    · exact ⟨.payloadTooShort "piece" 8 m.payload.bytes.length, by
        simp only [Message.parsePiece, piece, ne_eq, not_true_eq_false, short, ↓reduceIte]⟩
    · have other : ¬ UInt32.ofNat (ofBe (m.payload.bytes.take 4)) = expected := by
        rcases refused with one | one | one
        · exact absurd piece one
        · exact absurd one short
        · exact one
      refine ⟨.indexMismatch expected (UInt32.ofNat (ofBe (m.payload.bytes.take 4))), ?_⟩
      simp only [Message.parsePiece, piece, ne_eq, not_true_eq_false, short, ↓reduceIte,
        getU32_long (show 4 ≤ m.payload.bytes.length by omega),
        getU32_long (show 4 ≤ (m.payload.bytes.drop 4).length by rw [List.length_drop]; omega),
        pure_bind, other, not_false_eq_true]
  · exact ⟨.unexpectedType "piece" m.id.toByte, by
      simp only [Message.parsePiece, ne_eq, piece, not_false_eq_true, ↓reduceIte]⟩

theorem returns_block (m : Message) (buf : Bytes) (long : 8 ≤ m.payload.bytes.length) :
    Returns (slice m.payload.bytes 8 m.payload.bytes.length : Exec Bytes MessageError Bytes) buf
      (blockOf m).block buf := by
  have whole : (m.payload.bytes.take m.payload.bytes.length).drop 8 = (blockOf m).block := by
    rw [List.take_length]
    rfl
  exact returns_slice.mpr ⟨⟨long, le_rfl⟩, whole.symm, rfl⟩

theorem returns_stop (m : Message) (buf : Bytes) :
    Returns (usizeAdd p (blockOf m).start (blockOf m).block.length :
      Exec Bytes MessageError Nat) buf ((blockOf m).start + (blockOf m).block.length) buf :=
  (returns_usizeAdd (stop_fits m)).mpr ⟨rfl, rfl⟩

/-- A message that passes every check of parse_piece. -/
structure Accepted (expected : UInt32) (m : Message) (buf : Bytes) : Prop where
  piece : m.id = .piece
  long : 8 ≤ m.payload.bytes.length
  same : UInt32.ofNat (ofBe (m.payload.bytes.take 4)) = expected
  fits : (blockOf m).Fits buf.length

theorem accepted_written {m : Message} {buf : Bytes} (accepted : Accepted expected m buf) :
    Safe (m.parsePiece p expected) buf ∧
      Returns (m.parsePiece p expected) buf (blockOf m).block.length
        (overwrite buf (blockOf m)) := by
  obtain ⟨piece, long, same, fits⟩ := accepted
  have inside : ¬ (blockOf m).start + (blockOf m).block.length > buf.length := not_lt.mpr fits
  have sliced := returns_block m buf long
  have sum := stop_fits m
  obtain ⟨safe, copied⟩ := copyInto_fits fits
  rw [parsePiece_behind piece long same]
  constructor
  · apply safe_bind_step sliced (safe_slice buf long le_rfl)
    refine safe_readState_bind (safe_usizeAdd_bind sum ?_)
    rw [if_neg inside]
    apply safe_usizeAdd_bind sum
    exact safe_bind_step copied safe (safe_pure _ _)
  · refine (returns_bind_step sliced).mpr (returns_readState_bind.mpr ?_)
    rw [returns_bind_step (returns_stop m buf), if_neg inside,
      returns_bind_step (returns_stop m buf), returns_bind_step copied]
    exact returns_value _ _

theorem overrun_settled {m : Message} {buf : Bytes} (piece : m.id = .piece)
    (long : 8 ≤ m.payload.bytes.length)
    (same : UInt32.ofNat (ofBe (m.payload.bytes.take 4)) = expected)
    (past : ¬ (blockOf m).Fits buf.length) : Settled p expected m buf := by
  have outside : (blockOf m).start + (blockOf m).block.length > buf.length := not_le.mp past
  have sliced := returns_block m buf long
  have sum := stop_fits m
  unfold Settled
  rw [parsePiece_behind piece long same]
  refine ⟨?_, Or.inl ?_⟩
  · apply safe_bind_step sliced (safe_slice buf long le_rfl)
    refine safe_readState_bind (safe_usizeAdd_bind sum ?_)
    rw [if_pos outside]
    exact safe_usizeAdd_bind sum (safe_fail _ _)
  · refine ⟨.payloadTooShort "piece data" ((blockOf m).start + (blockOf m).block.length)
      buf.length, fails_of_leads (leads_trans (leads_bind sliced) ?_)⟩
    apply leads_trans (leads_bind (returns_current _))
    apply leads_trans (leads_bind (returns_stop m buf))
    rw [if_pos outside]
    exact leads_bind (returns_stop m buf)

theorem parsePiece_settled (p : Profile) (expected : UInt32) (m : Message) (buf : Bytes) :
    Settled p expected m buf := by
  by_cases refused : m.id ≠ .piece ∨ m.payload.bytes.length < 8 ∨
      UInt32.ofNat (ofBe (m.payload.bytes.take 4)) ≠ expected
  · obtain ⟨e, same⟩ := parsePiece_refuses (p := p) refused
    unfold Settled
    rw [same]
    exact ⟨safe_fail e buf, Or.inl ⟨e, rfl, rfl⟩⟩
  · simp only [ne_eq, not_or, not_not, not_lt] at refused
    obtain ⟨piece, long, same⟩ := refused
    by_cases fits : (blockOf m).Fits buf.length
    · obtain ⟨safe, written⟩ := accepted_written (p := p) ⟨piece, long, same, fits⟩
      exact ⟨safe, Or.inr ⟨fits, written⟩⟩
    · exact overrun_settled piece long same fits

theorem parsePiece_ok_iff {m : Message} {buf : Bytes} :
    (∃ n buf', Returns (m.parsePiece p expected) buf n buf') ↔ Accepted expected m buf := by
  constructor
  · intro stored
    obtain ⟨n, buf', run⟩ := stored
    have passed : ¬ (m.id ≠ .piece ∨ m.payload.bytes.length < 8 ∨
        UInt32.ofNat (ofBe (m.payload.bytes.take 4)) ≠ expected) := by
      intro refused
      obtain ⟨e, same⟩ := parsePiece_refuses (p := p) refused
      rw [same] at run
      exact absurd run returns_fail
    simp only [ne_eq, not_or, not_not, not_lt] at passed
    obtain ⟨piece, long, same⟩ := passed
    rcases (parsePiece_settled p expected m buf).2 with ⟨e, failed, -⟩ | ⟨fits, -⟩
    · exact absurd (run.1.symm.trans failed) (by simp)
    · exact ⟨piece, long, same, fits⟩
  · intro accepted
    exact ⟨_, _, (accepted_written accepted).2⟩

theorem parsePiece_cases (p : Profile) (expected : UInt32) (m : Message) (buf : Bytes) :
    (∃ e, (m.parsePiece p expected buf).outcome = .err e ∧
      (m.parsePiece p expected buf).state = buf) ∨
    (∃ n, (m.parsePiece p expected buf).outcome = .ok n ∧
      (m.parsePiece p expected buf).state = overwrite buf (blockOf m) ∧
      (blockOf m).Fits buf.length) := by
  rcases (parsePiece_settled p expected m buf).2 with refused | ⟨fits, outcome, state⟩
  · exact Or.inl refused
  · exact Or.inr ⟨_, outcome, state, fits⟩

theorem assemble_writes (p : Profile) (expected : UInt32) (messages : List Message) (buf : Bytes) :
    (assemble p expected messages buf).2 =
        overwriteAll buf (stored (assemble p expected messages buf).1) ∧
      ∀ w ∈ stored (assemble p expected messages buf).1, w.Fits buf.length := by
  induction messages generalizing buf with
  | nil => simp [assemble, stored, overwriteAll]
  | cons m later ih =>
    obtain ⟨final, fits⟩ := ih (m.parsePiece p expected buf).state
    rcases parsePiece_cases p expected m buf with ⟨e, outcome, state⟩ | ⟨n, outcome, state, here⟩
    -- the length of the buffer never changes, so later blocks fit the first buffer too
    · rw [state] at final fits
      simp only [assemble, stored, List.filterMap_cons, outcome, state]
      exact ⟨final, fits⟩
    · have size : (m.parsePiece p expected buf).state.length = buf.length := by
        rw [state, overwrite_length here]
      rw [size] at fits
      simp only [assemble, stored, List.filterMap_cons, outcome]
      refine ⟨?_, ?_⟩
      · rw [overwriteAll, List.foldl_cons, ← state]
        exact final
      · intro w member
        rcases List.mem_cons.mp member with rfl | after
        · exact here
        · exact fits w after

theorem pieces_assemble (p : Profile) (expected : UInt32) :
    (∀ (m : Message) (buf : Bytes), Safe (m.parsePiece p expected) buf) ∧
    (∀ (m : Message) (buf : Bytes),
      (∃ n buf', Returns (m.parsePiece p expected) buf n buf') ↔ Accepted expected m buf) ∧
    (∀ (m : Message) (buf : Bytes) (e : MessageError), Fails (m.parsePiece p expected) buf e →
      (m.parsePiece p expected buf).state = buf) ∧
    (∀ (m : Message) (buf buf' : Bytes) (n : Nat), Returns (m.parsePiece p expected) buf n buf' →
      n = (blockOf m).block.length ∧ buf'.length = buf.length ∧
      ∀ i, ¬ ((blockOf m).start ≤ i ∧ i < (blockOf m).start + n) → buf'[i]? = buf[i]?) ∧
    (∀ (messages : List Message) (buf : Bytes) (i : Nat),
      (assemble p expected messages buf).2[i]? =
        lastWritten buf (stored (assemble p expected messages buf).1) i) ∧
    ∀ (messages : List Message) (buf piece : Bytes), buf.length = piece.length →
      (∀ w ∈ stored (assemble p expected messages buf).1,
        w.block = (piece.drop w.start).take w.block.length) →
      (∀ i, i < piece.length →
        ∃ w ∈ stored (assemble p expected messages buf).1, w.covers i = true) →
      (assemble p expected messages buf).2 = piece := by
  refine ⟨fun m buf => (parsePiece_settled p expected m buf).1, fun m buf => parsePiece_ok_iff,
    ?_, ?_, ?_, ?_⟩
  · intro m buf e failed
    rcases (parsePiece_settled p expected m buf).2 with ⟨-, -, state⟩ | ⟨-, stores⟩
    · exact state
    · exact absurd (stores.1.symm.trans failed) (by simp)
  · intro m buf buf' n run
    rcases (parsePiece_settled p expected m buf).2 with ⟨e, failed, -⟩ | ⟨fits, stores⟩
    · exact absurd (run.1.symm.trans failed) (by simp)
    · obtain ⟨rfl, rfl⟩ := returns_unique run stores
      refine ⟨rfl, overwrite_length fits, ?_⟩
      intro i outside
      exact overwrite_outside fits (Bool.eq_false_iff.mpr fun covered =>
        outside (covers_iff.mp covered))
  · intro messages buf i
    obtain ⟨final, fits⟩ := assemble_writes p expected messages buf
    rw [final]
    exact overwriteAll_last i fits
  · intro messages buf piece size slices covering
    obtain ⟨final, fits⟩ := assemble_writes p expected messages buf
    rw [final]
    exact overwriteAll_slices size fits slices covering

/-- Two blocks out of order that overlap, and between them one of another piece. -/
example :
    (assemble .debug 5 [⟨.piece, [0, 0, 0, 5, 0, 0, 0, 2, 3, 4], by decide⟩,
      ⟨.piece, [0, 0, 0, 6, 0, 0, 0, 0, 9], by decide⟩,
      ⟨.piece, [0, 0, 0, 5, 0, 0, 0, 0, 1, 2, 3], by decide⟩] [0, 0, 0, 0]).2 = [1, 2, 3, 4] := by
  decide +kernel

end PieceAssembly
