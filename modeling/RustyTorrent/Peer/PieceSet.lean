import Mathlib.Data.Nat.Count
import Mathlib.Data.Set.Card
import RustyTorrent.Library.PointUpdates
import RustyTorrent.Peer.PieceBitfield

/- The bitfield as a set of piece indices. A call changes the set at its own index, where the
   bitfield has a bit for it, and nowhere else. -/
namespace PieceSet
open RustExec PointUpdates PieceBitfield

variable {σ ε : Type} {p : Profile}

inductive PieceCall where
  | set (index : Nat)
  | clear (index : Nat)
  deriving DecidableEq, Repr

namespace PieceCall

def index : PieceCall → Nat
  | set index => index
  | clear index => index

def mark : PieceCall → Bool
  | set _ => true
  | clear _ => false

def run (p : Profile) (self : Bitfield) : PieceCall → Exec σ ε Bitfield
  | set index => self.setPiece p index
  | clear index => self.clearPiece p index

def write (call : PieceCall) : Nat × Bool := (call.index, call.mark)

end PieceCall

def runCalls (p : Profile) : List PieceCall → Bitfield → Exec σ ε Bitfield
  | [], self => return self
  | call :: calls, self => do
      let next ← call.run p self
      runCalls p calls next

/-- The bitfield has a bit for the piece. -/
def Stored (self : Bitfield) (piece : Nat) : Prop :=
  piece < self.numPieces ∧ piece / 8 < self.data.length

instance (self : Bitfield) (piece : Nat) : Decidable (Stored self piece) :=
  inferInstanceAs (Decidable (_ ∧ _))

def applied (self : Bitfield) (call : PieceCall) : Bitfield :=
  if call.index < self.numPieces then
    { self with
      data := if call.mark then insertPiece self.data call.index
        else removePiece self.data call.index }
  else self

theorem returns_run {self out : Bitfield} {call : PieceCall} {s s' : σ} :
    Returns (call.run p self : Exec σ ε Bitfield) s out s' ↔
      out = applied self call ∧ s' = s := by
  cases call with
  | set index => exact returns_setPiece
  | clear index => exact returns_clearPiece

theorem safe_run (self : Bitfield) (call : PieceCall) (s : σ) :
    Safe (call.run p self : Exec σ ε Bitfield) s := by
  cases call with
  | set index => exact safe_setPiece self index s
  | clear index => exact safe_clearPiece self index s

@[simp] theorem applied_numPieces (self : Bitfield) (call : PieceCall) :
    (applied self call).numPieces = self.numPieces := by
  unfold applied
  split <;> rfl

@[simp] theorem applied_length (self : Bitfield) (call : PieceCall) :
    (applied self call).data.length = self.data.length := by
  unfold applied
  split
  · cases call.mark <;> simp
  · rfl

theorem applied_stored {self : Bitfield} {call : PieceCall} {piece : Nat} :
    Stored (applied self call) piece ↔ Stored self piece := by
  simp [Stored]

theorem bits_stored {self : Bitfield} {call : PieceCall} (stored : Stored self call.index) :
    bitOf (applied self call).data = Function.update (bitOf self.data) call.index call.mark := by
  funext piece
  have same : (call.index == piece) = decide (piece = call.index) := by
    rw [Bool.eq_iff_iff, beq_iff_eq, decide_eq_true_iff, eq_comm]
  rw [applied, if_pos stored.1, Function.update_apply]
  dsimp only
  cases call.mark with
  | true =>
    rw [if_pos rfl, bitOf_insertPiece stored.2, same]
    by_cases here : piece = call.index <;> simp [here]
  | false =>
    rw [if_neg (by simp), bitOf_removePiece stored.2, same]
    by_cases here : piece = call.index <;> simp [here]

theorem applied_unstored {self : Bitfield} {call : PieceCall}
    (unstored : ¬ Stored self call.index) : (applied self call).data = self.data := by
  unfold applied
  split
  · rename_i known
    have past : self.data.length ≤ call.index / 8 := not_lt.mp fun inside =>
      unstored ⟨known, inside⟩
    cases call.mark <;> simp [insertPiece, removePiece, List.modify_eq_self past]
  · rfl

theorem bits_applied (self : Bitfield) (call : PieceCall) :
    bitOf (applied self call).data =
      if Stored self call.index then Function.update (bitOf self.data) call.index call.mark
      else bitOf self.data := by
  by_cases stored : Stored self call.index
  · rw [if_pos stored, bits_stored stored]
  · rw [if_neg stored, applied_unstored stored]

def writes (self : Bitfield) (calls : List PieceCall) : List (Nat × Bool) :=
  (calls.filter fun call => Stored self call.index).map PieceCall.write

def appliedAll (self : Bitfield) (calls : List PieceCall) : Bitfield := calls.foldl applied self

theorem returns_runCalls {self out : Bitfield} {calls : List PieceCall} {s s' : σ} :
    Returns (runCalls p calls self : Exec σ ε Bitfield) s out s' ↔
      out = appliedAll self calls ∧ s' = s := by
  induction calls generalizing self with
  | nil =>
    rw [runCalls, returns_pure, eq_comm, eq_comm (a := s)]
    rfl
  | cons call calls ih =>
    rw [runCalls, returns_bind_step (returns_run.mpr ⟨rfl, rfl⟩), ih]
    rfl

theorem safe_runCalls (self : Bitfield) (calls : List PieceCall) (s : σ) :
    Safe (runCalls p calls self : Exec σ ε Bitfield) s := by
  induction calls generalizing self with
  | nil => exact safe_pure _ _
  | cons call calls ih =>
    exact safe_bind_step (returns_run.mpr ⟨rfl, rfl⟩) (safe_run self call s) (ih _)

theorem appliedAll_shape (self : Bitfield) (calls : List PieceCall) :
    (appliedAll self calls).numPieces = self.numPieces ∧
      (appliedAll self calls).data.length = self.data.length ∧
      bitOf (appliedAll self calls).data = writeAll (writes self calls) (bitOf self.data) := by
  induction calls generalizing self with
  | nil => exact ⟨rfl, rfl, rfl⟩
  | cons call calls ih =>
    obtain ⟨numPieces, length, bits⟩ := ih (applied self call)
    refine ⟨numPieces.trans (by simp), length.trans (by simp), ?_⟩
    have later : writes (applied self call) calls = writes self calls := by
      simp only [writes, applied_stored]
    change bitOf (appliedAll (applied self call) calls).data = _
    rw [bits, later, bits_applied]
    by_cases stored : Stored self call.index
    · simp [writes, stored, writeAll, PieceCall.write]
    · simp [writes, stored]

def lastMark (calls : List PieceCall) (piece : Nat) : Option Bool :=
  (calls.filter fun call => call.index = piece).getLast?.map PieceCall.mark

theorem lastWrite_writes (self : Bitfield) (calls : List PieceCall) (piece : Nat) :
    lastWrite (writes self calls) piece =
      if Stored self piece then lastMark calls piece else none := by
  have marks (list : List PieceCall) :
      (list.map PieceCall.write).getLast?.map Prod.snd = list.getLast?.map PieceCall.mark := by
    rw [List.getLast?_map, Option.map_map]
    rfl
  have picked : (writes self calls).filter (fun write => write.1 = piece) =
      (calls.filter fun call => call.index = piece ∧ Stored self call.index).map
        PieceCall.write := by
    simp only [writes, List.filter_map, List.filter_filter, Bool.decide_and]
    rfl
  rw [lastWrite, picked, marks]
  by_cases stored : Stored self piece
  · rw [if_pos stored, lastMark]
    congr 2
    apply List.filter_congr
    rintro call -
    by_cases same : call.index = piece
    · simp [same, stored]
    · simp [same]
  · rw [if_neg stored, List.filter_eq_nil_iff.mpr]
    · rfl
    · rintro call - both
      obtain ⟨rfl, inside⟩ := of_decide_eq_true both
      exact stored inside

/-- What has_piece answers, as a predicate. -/
def Has (self : Bitfield) (piece : Nat) : Prop :=
  piece < self.numPieces ∧ bitOf self.data piece = true

instance (self : Bitfield) (piece : Nat) : Decidable (Has self piece) :=
  inferInstanceAs (Decidable (_ ∧ _))

theorem hasPiece_returns (self : Bitfield) (piece : Nat) (s : σ) :
    Returns (self.hasPiece p piece : Exec σ ε Bool) s (decide (Has self piece)) s := by
  refine returns_hasPiece.mpr ⟨?_, rfl⟩
  rw [Bool.eq_iff_iff, decide_eq_true_iff, Bool.and_eq_true, decide_eq_true_iff]
  rfl

theorem hasPiece_iff {self : Bitfield} {piece : Nat} {s : σ} :
    Returns (self.hasPiece p piece : Exec σ ε Bool) s true s ↔ Has self piece := by
  rw [returns_hasPiece, Has]
  simp

theorem countLoop_counts (self : Bitfield) {i remaining : Nat} (fits : i + remaining < 2 ^ 64)
    (s : σ) :
    Safe (self.countLoop p i remaining (Nat.count (Has self) i) : Exec σ ε Nat) s ∧
      Returns (self.countLoop p i remaining (Nat.count (Has self) i) : Exec σ ε Nat) s
        (Nat.count (Has self) (i + remaining)) s := by
  induction remaining generalizing i with
  | zero => exact ⟨safe_pure _ _, returns_value _ _⟩
  | succ remaining ih =>
    have below : Nat.count (Has self) i ≤ i := Nat.count_le _
    have room : Nat.count (Has self) i + 1 < 2 ^ 64 := by omega
    obtain ⟨safe, run⟩ := ih (i := i + 1) (by omega)
    have here := @hasPiece_returns σ ε p self i s
    rw [Nat.add_right_comm i 1, Nat.count_succ] at run
    rw [Nat.count_succ] at safe
    unfold Bitfield.countLoop
    by_cases has : Has self i
    · rw [if_pos has] at run safe
      rw [decide_eq_true has] at here
      refine ⟨safe_bind_step here (safe_hasPiece self i s) (safe_usizeAdd_bind room safe), ?_⟩
      rw [returns_bind_step here, if_pos rfl, returns_usizeAdd_bind room]
      exact run
    · rw [if_neg has] at run safe
      rw [decide_eq_false has] at here
      refine ⟨safe_bind_step here (safe_hasPiece self i s) safe, ?_⟩
      rw [returns_bind_step here]
      exact run

theorem count_eq_ncard (self : Bitfield) :
    Nat.count (Has self) self.numPieces = { piece | Has self piece }.ncard := by
  have known : { piece | Has self piece } =
      ((Finset.range self.numPieces).filter (Has self) : Set Nat) := by
    ext piece
    simp only [Set.mem_ofPred_eq, Finset.coe_filter, Finset.mem_range]
    exact ⟨fun has => ⟨has.1, has⟩, And.right⟩
  rw [known, Set.ncard_coe_finset, Nat.count_eq_card_filter_range]

theorem data_ext {one other : Bytes} (length : one.length = other.length)
    (bits : bitOf one = bitOf other) : one = other := by
  apply List.ext_getElem length
  intro i inOne inOther
  rw [← UInt8.toNat_inj]
  apply Nat.eq_of_testBit_eq
  intro bit
  by_cases inside : bit < 8
  · have same := congrFun bits (i * 8 + (7 - bit))
    have byte : (i * 8 + (7 - bit)) / 8 = i := by omega
    have place : 7 - (i * 8 + (7 - bit)) % 8 = bit := by omega
    rw [bitOf, bitOf, byte, place, List.getElem?_eq_getElem inOne,
      List.getElem?_eq_getElem inOther] at same
    exact same
  · have past (b : UInt8) : b.toNat.testBit bit = false :=
      Nat.testBit_lt_two_pow (b.toNat_lt.trans_le (Nat.pow_le_pow_right (by omega) (by omega)))
    rw [past, past]

theorem applied_comm (self : Bitfield) {one other : PieceCall} (differ : one.index ≠ other.index) :
    applied (applied self one) other = applied (applied self other) one := by
  have data : (applied (applied self one) other).data =
      (applied (applied self other) one).data := by
    apply data_ext (by simp)
    simp only [bits_applied, applied_stored]
    by_cases first : Stored self one.index
    · by_cases second : Stored self other.index
      · simp only [first, second, ↓reduceIte]
        exact Function.update_comm differ _ _ _
      · simp only [first, second, ↓reduceIte]
    · simp only [first, ↓reduceIte]
  have numPieces : (applied (applied self one) other).numPieces =
      (applied (applied self other) one).numPieces := by simp
  cases h : applied (applied self one) other
  cases h' : applied (applied self other) one
  rw [h, h'] at data numPieces
  simp only at data numPieces
  rw [data, numPieces]

/-- The bitfield `out` stands for the set that the calls make of the pieces of `self`. -/
structure ActsAsSet (p : Profile) (self : Bitfield) (calls : List PieceCall) (out : Bitfield) :
    Prop where
  length : out.data.length = self.data.length
  numPieces : out.numPieces = self.numPieces
  answers : ∀ piece, Safe (out.hasPiece p piece : Exec Unit Empty Bool) ()
  stored : ∀ piece, piece < self.numPieces → piece / 8 < self.data.length →
    Returns (out.hasPiece p piece : Exec Unit Empty Bool) ()
      ((lastMark calls piece).getD (bitOf self.data piece)) ()
  absent : ∀ piece, ¬ (piece < self.numPieces ∧ piece / 8 < self.data.length) →
    Returns (out.hasPiece p piece : Exec Unit Empty Bool) () false ()
  spare : ∀ piece ≥ self.numPieces, bitOf out.data piece = bitOf self.data piece
  counted : Safe (out.count p : Exec Unit Empty Nat) () ∧
    Returns (out.count p : Exec Unit Empty Nat) ()
      { piece | Returns (out.hasPiece p piece : Exec Unit Empty Bool) () true () }.ncard ()

theorem appliedAll_bit (self : Bitfield) (calls : List PieceCall) (piece : Nat) :
    bitOf (appliedAll self calls).data piece =
      (if Stored self piece then lastMark calls piece else none).getD (bitOf self.data piece) := by
  obtain ⟨-, -, bits⟩ := appliedAll_shape self calls
  rw [bits, writeAll_apply, lastWrite_writes]

theorem bitOf_past {data : Bytes} {piece : Nat} (past : data.length ≤ piece / 8) :
    bitOf data piece = false := by
  rw [bitOf, List.getElem?_eq_none past, Option.any_none]

theorem acts_as_set (p : Profile) {self : Bitfield} (usize : self.numPieces < 2 ^ 64)
    (calls : List PieceCall) : ActsAsSet p self calls (appliedAll self calls) := by
  obtain ⟨numPieces, length, -⟩ := appliedAll_shape self calls
  have bit := appliedAll_bit self calls
  constructor
  case length => exact length
  case numPieces => exact numPieces
  case answers => exact fun piece => safe_hasPiece _ piece ()
  case stored =>
    intro piece known inside
    refine returns_hasPiece.mpr ⟨?_, rfl⟩
    have here : Stored self piece := ⟨known, inside⟩
    rw [numPieces, bit, if_pos here]
    simp [known]
  case absent =>
    intro piece outside
    have unstored : ¬ Stored self piece := outside
    refine returns_hasPiece.mpr ⟨?_, rfl⟩
    rw [numPieces, bit, if_neg unstored]
    by_cases known : piece < self.numPieces
    · have past : self.data.length ≤ piece / 8 := not_lt.mp fun inside => outside ⟨known, inside⟩
      simp [bitOf_past past]
    · simp [known]
  case spare =>
    intro piece past
    rw [bit, if_neg fun stored => absurd stored.1 (by omega)]
    rfl
  case counted =>
    have loop := @countLoop_counts Unit Empty p (appliedAll self calls) 0
      (appliedAll self calls).numPieces (by omega) ()
    rw [Nat.count_zero, Nat.zero_add, count_eq_ncard] at loop
    simp only [hasPiece_iff]
    exact loop

/-- Every bitfield is the one that from_bytes builds of its fields, and new builds one without a
    piece. From any of them on, every run of calls acts on a set of pieces, under both profiles. -/
theorem bitfield_implements_set (p : Profile) {self : Bitfield} (usize : self.numPieces < 2 ^ 64)
    (calls : List PieceCall) :
    self = Bitfield.fromBytes self.data self.numPieces ∧
      (∀ empty, Returns (Bitfield.new p self.numPieces : Exec Unit Empty Bitfield) () empty () →
        empty.numPieces = self.numPieces ∧
          ∀ piece, Returns (empty.hasPiece p piece : Exec Unit Empty Bool) () false ()) ∧
      Safe (runCalls p calls self : Exec Unit Empty Bitfield) () ∧
      (∃ out, Returns (runCalls p calls self : Exec Unit Empty Bitfield) () out () ∧
        ActsAsSet p self calls out) ∧
      ∀ one other : PieceCall, one.index ≠ other.index →
        ∃ out, Returns (runCalls p [one, other] self : Exec Unit Empty Bitfield) () out () ∧
          Returns (runCalls p [other, one] self : Exec Unit Empty Bitfield) () out () := by
  refine ⟨rfl, ?_, safe_runCalls self calls (), ⟨_, returns_runCalls.mpr ⟨rfl, rfl⟩,
    acts_as_set p usize calls⟩, ?_⟩
  · intro empty built
    obtain ⟨rfl, -, -⟩ := returns_new_wrapped.mp built
    refine ⟨rfl, fun piece => returns_hasPiece.mpr ⟨?_, rfl⟩⟩
    rw [bitOf_replicate_zero, Bool.and_false]
  · intro one other differ
    refine ⟨appliedAll self [one, other], returns_runCalls.mpr ⟨rfl, rfl⟩, ?_⟩
    exact returns_runCalls.mpr ⟨applied_comm self differ, rfl⟩

theorem bitfield_implements_set_new :
    Returns (Bitfield.new .debug 12 : Exec Unit Empty Bitfield) () ⟨[0, 0], 12⟩ () ∧
      ∃ out, Returns (runCalls .debug [.set 3, .set 9, .clear 3, .set 100] ⟨[0, 0], 12⟩ :
          Exec Unit Empty Bitfield) () out () ∧
        ActsAsSet .debug ⟨[0, 0], 12⟩ [.set 3, .set 9, .clear 3, .set 100] out :=
  ⟨by decide, (bitfield_implements_set .debug (by decide) _).2.2.2.1⟩

end PieceSet
