import RustyTorrent.Bencode.BencodeDecoder
import RustyTorrent.Library.TraceCosts

/- How much the decoder does on a text of some length, whether it accepts the text or not. Every
   call of a parse function and every step of the cursor makes a check. -/
namespace DecoderWork
open RustExec OrderedMaps BencodeValue BencodeDecoder TraceCosts

def cursor (data : Bytes) : Tariff Decoder where
  inside d := d.data = data ∧ d.pos ≤ data.length
  progress := Decoder.pos
  rate := 8

variable {p : Profile} {data : Bytes} {d : Decoder}

theorem paid_peek (here : (cursor data).inside d) : Paid (cursor data) peek d 0 0 :=
  paid_readState_bind (paid_okOr here)

theorem returns_peek_iff {byte : UInt8} {d' : Decoder} :
    Returns peek d byte d' ↔ d.data[d.pos]? = some byte ∧ d' = d := by
  rw [peek, returns_readState_bind, returns_okOr]

theorem paid_pass {α : Type} {rest : Exec Decoder DecodeError α} {owed most : Int}
    (small : data.length < 2 ^ 63) (here : (cursor data).inside d) (more : d.pos < data.length)
    (early : 1 ≤ most)
    (next : ∀ d', (cursor data).inside d' → Paid (cursor data) rest d' (owed + 7) (most + 7)) :
    Paid (cursor data) (do
      let pos ← usizeAdd p d.pos 1
      writeState { d with pos }
      rest) d owed most := by
  apply paid_bind (paid_unsigned here) early
  intro pos d₁ added _
  obtain ⟨rfl, same⟩ := (returns_usizeAdd (by omega)).mp added
  rw [same]
  have inside : (cursor data).inside { d with pos := d.pos + 1 } := ⟨here.1, more⟩
  have pays : Paid (cursor data) (writeState { d with pos := d.pos + 1 } :
      Exec Decoder DecodeError Unit) d (-8) (-8) := by
    apply paid_writeState inside
    simp only [cursor]
    omega
  apply paid_bind pays (by omega)
  intro u d₂ wrote inside
  exact paid_mono (next d₂ inside) (by omega) (by omega)

theorem paid_advance (small : data.length < 2 ^ 63) (here : (cursor data).inside d) :
    Paid (cursor data) (advance p) d (-7) 1 := by
  apply paid_bind (paid_peek here) (by decide)
  intro byte d₁ run inside
  obtain ⟨found, -⟩ := returns_peek_iff.mp run
  obtain ⟨-, rfl⟩ := returns_peek_iff.mp run
  have more : d₁.pos < data.length := here.1 ▸ (List.getElem?_eq_some_iff.mp found).1
  apply paid_readState_bind
  refine paid_pass small inside more (by decide) ?_
  intro d₂ inside
  exact paid_pure inside (by decide) (by decide)

theorem paid_expect {c : UInt8} (small : data.length < 2 ^ 63) (here : (cursor data).inside d) :
    Paid (cursor data) (expect p c) d (-7) 1 := by
  apply paid_bind (paid_advance small here) (by decide)
  intro byte d₁ _ inside
  split
  · apply paid_readState_bind
    apply paid_bind (paid_unsigned inside) (by decide)
    intro before d₂ _ inside
    exact paid_fail inside (by decide)
  · exact paid_pure inside (by decide) (by decide)

theorem paid_scanUntil {stop : UInt8} {fuel : Nat} (small : data.length < 2 ^ 63)
    (here : (cursor data).inside d) : Paid (cursor data) (scanUntil p stop fuel) d 0 1 := by
  induction fuel generalizing d with
  | zero => exact paid_exhaust here (by decide)
  | succ fuel ih =>
    apply paid_readState_bind
    split
    · rename_i more
      apply paid_bind (paid_index here) (by decide)
      intro byte d₁ read inside
      obtain ⟨-, rfl⟩ := returns_index.mp read
      split
      · refine paid_pass small inside (here.1 ▸ more) (by decide) ?_
        intro d₂ inside
        exact paid_mono (ih inside) (by decide) (by decide)
      · exact paid_pure inside (by decide) (by decide)
    · exact paid_pure here (by decide) (by decide)

theorem paid_parseInteger (small : data.length < 2 ^ 63) (here : (cursor data).inside d) :
    Paid (cursor data) (parseInteger p) d (-12) 2 := by
  apply paid_readState_bind
  apply paid_bind (paid_enter here) (by decide)
  intro _ d₁ _ inside
  apply paid_bind (paid_expect small inside) (by decide)
  intro _ d₂ _ inside
  apply paid_readState_bind
  apply paid_bind (paid_scanUntil small inside) (by decide)
  intro _ d₃ _ inside
  apply paid_readState_bind
  apply paid_bind (paid_slice inside) (by decide)
  intro raw d₄ _ inside
  apply paid_bind (paid_okOr inside) (by decide)
  intro numStr d₅ _ inside
  apply paid_bind (paid_okOr inside) (by decide)
  intro num d₆ _ inside
  apply paid_bind (paid_expect small inside) (by decide)
  intro _ d₇ _ inside
  exact paid_pure inside (by decide) (by decide)

/-- The cursor never goes back: where the sum of place and length wraps, the slice ends the run. -/
theorem paid_takeBytes {length : Nat} (here : (cursor data).inside d) :
    Paid (cursor data) (takeBytes p length) d 4 4 := by
  apply paid_readState_bind
  apply paid_bind (paid_unsigned here) (by decide)
  intro bound d₁ summed inside
  split
  · exact paid_fail inside (by decide)
  · apply paid_bind (paid_unsigned inside) (by decide)
    intro stop d₂ reached inside
    apply paid_bind (paid_slice inside) (by decide)
    intro bytes d₃ sliced inside
    obtain ⟨⟨forth, within⟩, -, same⟩ := returns_slice.mp sliced
    apply paid_bind (paid_unsigned inside) (by decide)
    intro pos d₄ added _
    obtain rfl : stop = pos := Outcome.ok.inj (reached.1.symm.trans added.1)
    have stays : d₄ = d := (added.2.symm.trans same).trans (reached.2.symm.trans summed.2.symm)
    have moved : (cursor data).inside { d with pos := stop } := ⟨here.1, here.1 ▸ within⟩
    have pays : Paid (cursor data) (writeState { d with pos := stop } :
        Exec Decoder DecodeError Unit) d₄ 0 0 := by
      apply paid_writeState moved
      simp only [cursor, stays]
      omega
    apply paid_bind pays (by decide)
    intro _ d₅ _ inside
    exact paid_pure inside (by decide) (by decide)

theorem paid_parseBytes (small : data.length < 2 ^ 63) (here : (cursor data).inside d) :
    Paid (cursor data) (parseBytes p) d (-1) 3 := by
  apply paid_readState_bind
  apply paid_bind (paid_enter here) (by decide)
  intro _ d₁ _ inside
  apply paid_bind (paid_scanUntil small inside) (by decide)
  intro _ d₂ _ inside
  apply paid_readState_bind
  apply paid_bind (paid_slice inside) (by decide)
  intro raw d₃ _ inside
  apply paid_bind (paid_okOr inside) (by decide)
  intro lenStr d₄ _ inside
  apply paid_bind (paid_okOr inside) (by decide)
  intro length d₅ _ inside
  apply paid_bind (paid_expect small inside) (by decide)
  intro _ d₆ _ inside
  exact paid_mono (paid_takeBytes inside) (by decide) (by decide)

structure PaidFor (p : Profile) (data : Bytes) (fuel : Nat) : Prop where
  value : ∀ d, (cursor data).inside d → Paid (cursor data) (parseValueFuel p fuel) d 0 4
  list : ∀ d, (cursor data).inside d → Paid (cursor data) (parseListFuel p fuel) d (-13) 2
  dict : ∀ d, (cursor data).inside d → Paid (cursor data) (parseDictFuel p fuel) d (-13) 2
  items : ∀ d acc, (cursor data).inside d → Paid (cursor data) (parseItems p fuel acc) d 0 4
  entries : ∀ d map, (cursor data).inside d → Paid (cursor data) (parseEntries p fuel map) d 0 4

section Turns
variable {fuel : Nat} (small : data.length < 2 ^ 63) (paid : PaidFor p data fuel)
  (here : (cursor data).inside d)
include small paid here

theorem paid_value : Paid (cursor data) (parseValueFuel p (fuel + 1)) d 0 4 := by
  rw [parseValueFuel]
  apply paid_readState_bind
  apply paid_bind (paid_enter here) (by decide)
  intro _ d₁ _ inside
  apply paid_bind (paid_peek inside) (by decide)
  intro byte d₂ _ inside
  split
  · exact paid_mono (paid_parseInteger small inside) (by decide) (by decide)
  split
  · exact paid_mono (paid.list d₂ inside) (by decide) (by decide)
  split
  · exact paid_mono (paid.dict d₂ inside) (by decide) (by decide)
  split
  · exact paid_mono (paid_parseBytes small inside) (by decide) (by decide)
  · exact paid_fail inside (by decide)

theorem paid_list : Paid (cursor data) (parseListFuel p (fuel + 1)) d (-13) 2 := by
  rw [parseListFuel]
  apply paid_readState_bind
  apply paid_bind (paid_enter here) (by decide)
  intro _ d₁ _ inside
  apply paid_bind (paid_expect small inside) (by decide)
  intro _ d₂ _ inside
  apply paid_bind (paid.items d₂ [] inside) (by decide)
  intro items d₃ _ inside
  apply paid_bind (paid_expect small inside) (by decide)
  intro _ d₄ _ inside
  exact paid_pure inside (by decide) (by decide)

theorem paid_dict : Paid (cursor data) (parseDictFuel p (fuel + 1)) d (-13) 2 := by
  rw [parseDictFuel]
  apply paid_readState_bind
  apply paid_bind (paid_enter here) (by decide)
  intro _ d₁ _ inside
  apply paid_bind (paid_expect small inside) (by decide)
  intro _ d₂ _ inside
  apply paid_bind (paid.entries d₂ _ inside) (by decide)
  intro map d₃ _ inside
  apply paid_bind (paid_expect small inside) (by decide)
  intro _ d₄ _ inside
  exact paid_pure inside (by decide) (by decide)

end Turns

theorem paid_items {fuel : Nat} {acc : List Value} (paid : PaidFor p data fuel)
    (here : (cursor data).inside d) : Paid (cursor data) (parseItems p (fuel + 1) acc) d 0 4 := by
  rw [parseItems]
  apply paid_bind (paid_peek here) (by decide)
  intro byte d₁ _ inside
  split
  · apply paid_bind (paid.value d₁ inside) (by decide)
    intro item d₂ _ inside
    exact paid_mono (paid.items d₂ _ inside) (by decide) (by decide)
  · exact paid_pure inside (by decide) (by decide)

theorem paid_entries {fuel : Nat} {map : OrderedMap Bytes Value} (paid : PaidFor p data fuel)
    (here : (cursor data).inside d) :
    Paid (cursor data) (parseEntries p (fuel + 1) map) d 0 4 := by
  rw [parseEntries]
  apply paid_bind (paid_peek here) (by decide)
  intro byte d₁ _ inside
  split
  · apply paid_readState_bind
    apply paid_bind (paid.value d₁ inside) (by decide)
    intro keyVal d₂ _ inside
    split
    · apply paid_bind (paid.value d₂ inside) (by decide)
      intro value d₃ _ inside
      exact paid_mono (paid.entries d₃ _ inside) (by decide) (by decide)
    · exact paid_fail inside (by decide)
  · exact paid_pure inside (by decide) (by decide)

theorem paid_for (p : Profile) {data : Bytes} (small : data.length < 2 ^ 63) (fuel : Nat) :
    PaidFor p data fuel := by
  induction fuel with
  | zero =>
    constructor
    all_goals
      intros
      exact paid_exhaust (by assumption) (by decide)
  | succ fuel ih =>
    constructor
    · exact fun d here => paid_value small ih here
    · exact fun d here => paid_list small ih here
    · exact fun d here => paid_dict small ih here
    · exact fun d acc here => paid_items ih here
    · exact fun d map here => paid_entries ih here

theorem paid_parseValue (p : Profile) (data : ByteSeq) :
    Paid (cursor data.bytes) (parseValue p) (Decoder.new data.bytes) 0 4 :=
  paid_readState_bind ((paid_for p data.fits _).value _ ⟨rfl, Nat.zero_le _⟩)

theorem trace_of_entry {α : Type} {x : Exec Decoder DecodeError Value} {d : Decoder}
    {f : Value × Decoder → Exec Unit DecodeError α} (still : ∀ found, (f found ()).trace = []) :
    ((within d x >>= f) ()).trace = (x d).trace := by
  change (Exec.bind (within d x) f ()).trace = _
  unfold Exec.bind within
  rcases x d with ⟨o, d', events⟩
  cases o with
  | ok v => simp only [Outcome.map, still, List.append_nil]
  | _ => rfl

theorem decode_trace (p : Profile) (data : ByteSeq) :
    (decode p data ()).trace = (parseValue p (Decoder.new data.bytes)).trace := by
  apply trace_of_entry
  intro found
  obtain ⟨value, decoder⟩ := found
  by_cases trailing : decoder.pos ≠ data.bytes.length
  · simp only [if_pos trailing]
    rfl
  · simp only [if_neg trailing]
    rfl

theorem decodePartial_trace (p : Profile) (data : ByteSeq) :
    (decodePartial p data ()).trace = (parseValue p (Decoder.new data.bytes)).trace :=
  trace_of_entry fun _ => rfl

theorem parseValue_work (p : Profile) (data : ByteSeq) :
    (parseValue p (Decoder.new data.bytes)).trace.length ≤ 8 * data.bytes.length + 4 := by
  have paid := paid_parseValue p data
  have ended := paid.ended
  have inside := paid.inside.2
  simp only [cursor, Decoder.new] at ended inside ⊢
  omega

/-- On every text the decoder makes no more checks than eight for each byte and four, and for a
    value no more than eight for each byte of it. -/
theorem work_linear (p : Profile) (data : ByteSeq) :
    (decode p data ()).trace.length ≤ 8 * data.bytes.length + 4 ∧
    (decodePartial p data ()).trace.length ≤ 8 * data.bytes.length + 4 ∧
    ∀ v n, Returns (decodePartial p data) () (v, n) () →
      (decodePartial p data ()).trace.length ≤ 8 * n := by
  rw [decode_trace, decodePartial_trace]
  refine ⟨parseValue_work p data, parseValue_work p data, ?_⟩
  intro v n run
  obtain ⟨⟨value, d⟩, _, first, last⟩ := returns_bind.mp run
  obtain ⟨parsed, -⟩ := returns_within.mp first
  obtain ⟨same, -⟩ := returns_pure.mp last
  cases same
  have paid := (paid_parseValue p data).returned _ parsed.1
  rw [parsed.2] at paid
  simp only [cursor, Decoder.new] at paid ⊢
  omega

end DecoderWork
