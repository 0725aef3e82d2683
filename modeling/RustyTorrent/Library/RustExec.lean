import Mathlib.Data.List.Basic
import Mathlib.Data.List.Lex
import Mathlib.Order.Defs.LinearOrder
import Mathlib.Algebra.Order.Ring.Int

/- Runs of safe Rust code: a fallible computation on a mutable state, with panics,
   unsigned arithmetic under both build profiles, and a trace of the checks passed on
   the way. Stack depth and allocation failure are external. -/
namespace RustExec

abbrev Bytes := List UInt8

instance byteOrder : LinearOrder UInt8 where
  le_refl := UInt8.le_refl
  le_trans _ _ _ := UInt8.le_trans
  le_antisymm _ _ := UInt8.le_antisymm
  le_total := UInt8.le_total
  lt_iff_le_not_ge _ _ := by grind
  toDecidableLE := inferInstance
  toDecidableEq := inferInstance
  toDecidableLT := inferInstance

/-- Contents of a byte slice or byte vector. Rust bounds the size of every object by
    isize::MAX, on a 64-bit target. -/
@[ext] structure ByteSeq where
  bytes : Bytes
  fits : bytes.length < 2 ^ 63
  deriving DecidableEq, Repr

def ByteSeq.take (data : ByteSeq) (n : Nat) : ByteSeq :=
  ⟨data.bytes.take n, by
    have := data.fits
    simp only [List.length_take]
    omega⟩

def ByteSeq.drop (data : ByteSeq) (n : Nat) : ByteSeq :=
  ⟨data.bytes.drop n, by
    have := data.fits
    simp only [List.length_drop]
    omega⟩

/-- The two build profiles differ in integer overflow only: debug panics, release wraps. -/
inductive Profile where
  | debug
  | release
  deriving DecidableEq, Repr

inductive Fault where
  | overflow
  | bounds
  deriving DecidableEq, Repr

/-- pending: a future that waits for input. outOfFuel: a loop bound of the model, not a
    result of the program. -/
inductive Outcome (ε α : Type) where
  | ok (value : α)
  | err (error : ε)
  | panic (fault : Fault)
  | pending
  | outOfFuel
  deriving DecidableEq, Repr

def Outcome.map {ε α β : Type} (f : α → β) : Outcome ε α → Outcome ε β
  | .ok a => .ok (f a)
  | .err e => .err e
  | .panic p => .panic p
  | .pending => .pending
  | .outOfFuel => .outOfFuel

def Outcome.mapErr {ε ε' α : Type} (g : ε → ε') : Outcome ε α → Outcome ε' α
  | .ok a => .ok a
  | .err e => .err (g e)
  | .panic p => .panic p
  | .pending => .pending
  | .outOfFuel => .outOfFuel

/-- A check that a run makes: a cursor on entry to a function, the exact result of an
    unsigned operation, or the bounds of a slice. -/
inductive Event where
  | enter (pos len : Nat)
  | arith (bits : Nat) (exact : Int)
  | slice (start stop len : Nat)
  deriving DecidableEq, Repr

def Event.Safe : Event → Prop
  | .enter pos len => pos ≤ len
  | .arith bits exact => 0 ≤ exact ∧ exact < 2 ^ bits
  | .slice start stop len => start ≤ stop ∧ stop ≤ len

instance (ev : Event) : Decidable ev.Safe := by
  cases ev <;> simp only [Event.Safe] <;> infer_instance

structure Run (σ ε α : Type) where
  outcome : Outcome ε α
  state : σ
  trace : List Event
  deriving DecidableEq, Repr

/-- A function with a `&mut σ` argument. The state is kept on an error. -/
def Exec (σ ε α : Type) : Type := σ → Run σ ε α

variable {σ τ ε ε' α β : Type}

namespace Exec

def pure (a : α) : Exec σ ε α := fun s => ⟨.ok a, s, []⟩

def bind (x : Exec σ ε α) (f : α → Exec σ ε β) : Exec σ ε β := fun s =>
  match x s with
  | ⟨.ok a, s', t⟩ => ⟨(f a s').outcome, (f a s').state, t ++ (f a s').trace⟩
  | ⟨.err e, s', t⟩ => ⟨.err e, s', t⟩
  | ⟨.panic p, s', t⟩ => ⟨.panic p, s', t⟩
  | ⟨.pending, s', t⟩ => ⟨.pending, s', t⟩
  | ⟨.outOfFuel, s', t⟩ => ⟨.outOfFuel, s', t⟩

instance : Monad (Exec σ ε) where
  pure := Exec.pure
  bind := Exec.bind

theorem bind_bind {γ : Type} (x : Exec σ ε α) (f : α → Exec σ ε β) (g : β → Exec σ ε γ) :
    bind (bind x f) g = bind x fun a => bind (f a) g := by
  funext s
  simp only [bind]
  rcases x s with ⟨o, s', t⟩
  cases o with
  | ok a =>
    simp only
    rcases f a s' with ⟨o, s'', t'⟩
    cases o <;> simp
  | _ => rfl

theorem bind_pure_self (x : Exec σ ε α) : bind x pure = x := by
  funext s
  simp only [bind]
  rcases x s with ⟨o, s', t⟩
  cases o <;> simp [pure]

instance : LawfulMonad (Exec σ ε) :=
  LawfulMonad.mk' (Exec σ ε) bind_pure_self (fun _ _ => rfl) bind_bind

end Exec

def readState : Exec σ ε σ := fun s => ⟨.ok s, s, []⟩

def writeState (s : σ) : Exec σ ε Unit := fun _ => ⟨.ok (), s, []⟩

def fail (e : ε) : Exec σ ε α := fun s => ⟨.err e, s, []⟩

def panicWith (p : Fault) : Exec σ ε α := fun s => ⟨.panic p, s, []⟩

def exhaust : Exec σ ε α := fun s => ⟨.outOfFuel, s, []⟩

def enter (pos len : Nat) : Exec σ ε Unit := fun s => ⟨.ok (), s, [.enter pos len]⟩

def unsigned (p : Profile) (bits : Nat) (exact : Int) : Exec σ ε Nat := fun s =>
  ⟨if 0 ≤ exact ∧ exact < 2 ^ bits then .ok exact.toNat
    else match p with
      | .debug => .panic .overflow
      | .release => .ok (exact % 2 ^ bits).toNat,
    s, [.arith bits exact]⟩

def usizeAdd (p : Profile) (a b : Nat) : Exec σ ε Nat := unsigned p 64 (a + b)

def usizeSub (p : Profile) (a b : Nat) : Exec σ ε Nat := unsigned p 64 (a - b)

def index (data : List β) (i : Nat) : Exec σ ε β :=
  match data[i]? with
  | some b => Exec.pure b
  | none => panicWith .bounds

def slice (data : List β) (start stop : Nat) : Exec σ ε (List β) := fun s =>
  ⟨if start ≤ stop ∧ stop ≤ data.length then .ok ((data.take stop).drop start)
    else .panic .bounds,
    s, [.slice start stop data.length]⟩

def okOr (o : Option α) (e : ε) : Exec σ ε α :=
  match o with
  | some a => Exec.pure a
  | none => fail e

def ofExcept (r : Except ε α) : Exec σ ε α :=
  match r with
  | .ok a => Exec.pure a
  | .error e => fail e

/-- Run a computation on a state of its own, which only a success hands back. -/
def within (t : τ) (x : Exec τ ε α) : Exec σ ε (α × τ) := fun s =>
  ⟨(x t).outcome.map fun a => (a, (x t).state), s, (x t).trace⟩

/-- Run a computation on a part of the state. -/
def onField (get : σ → τ) (set : σ → τ → σ) (x : Exec τ ε α) : Exec σ ε α := fun s =>
  ⟨(x (get s)).outcome, set s (x (get s)).state, (x (get s)).trace⟩

def mapErr (g : ε → ε') (x : Exec σ ε α) : Exec σ ε' α := fun s =>
  ⟨(x s).outcome.mapErr g, (x s).state, (x s).trace⟩

@[simp] theorem readState_bind_unused (x : Exec σ ε α) : (readState >>= fun _ => x) = x := rfl

/-- The run from `s` succeeds with `a` and leaves the state `s'`. -/
def Returns (x : Exec σ ε α) (s : σ) (a : α) (s' : σ) : Prop :=
  (x s).outcome = .ok a ∧ (x s).state = s'

def Fails (x : Exec σ ε α) (s : σ) (e : ε) : Prop := (x s).outcome = .err e

def Panics (x : Exec σ ε α) (s : σ) : Prop := ∃ p, (x s).outcome = .panic p

/-- The run ends with a value or an error, and every check on the way held. -/
def Safe (x : Exec σ ε α) (s : σ) : Prop :=
  (∀ ev ∈ (x s).trace, ev.Safe) ∧
    ((∃ a, (x s).outcome = .ok a) ∨ ∃ e, (x s).outcome = .err e)

instance [DecidableEq ε] [DecidableEq α] [DecidableEq σ] (x : Exec σ ε α) (s : σ) (a : α)
    (s' : σ) : Decidable (Returns x s a s') :=
  inferInstanceAs (Decidable (_ ∧ _))

theorem returns_unique {x : Exec σ ε α} {s s' s'' : σ} {a b : α}
    (one : Returns x s a s') (other : Returns x s b s'') : a = b ∧ s' = s'' := by
  have values := one.1.symm.trans other.1
  exact ⟨by simpa using values, one.2.symm.trans other.2⟩

@[simp] theorem returns_pure {a b : α} {s s' : σ} :
    Returns (Pure.pure a : Exec σ ε α) s b s' ↔ a = b ∧ s = s' := by
  change (Outcome.ok a = .ok b ∧ s = s') ↔ _
  simp

theorem returns_value (a : α) (s : σ) : Returns (Pure.pure a : Exec σ ε α) s a s := ⟨rfl, rfl⟩

theorem returns_bind {x : Exec σ ε α} {f : α → Exec σ ε β} {s s'' : σ} {b : β} :
    Returns (x >>= f) s b s'' ↔ ∃ a s', Returns x s a s' ∧ Returns (f a) s' b s'' := by
  change (Exec.bind x f s).outcome = .ok b ∧ (Exec.bind x f s).state = s'' ↔ _
  unfold Exec.bind Returns
  rcases h : x s with ⟨o, s', t⟩
  cases o <;> simp

theorem returns_map {f : α → β} {x : Exec σ ε α} {s s' : σ} {b : β} :
    Returns (f <$> x) s b s' ↔ ∃ a, Returns x s a s' ∧ f a = b := by
  rw [map_eq_pure_bind, returns_bind]
  constructor
  · intro parts
    obtain ⟨a, t, first, same⟩ := parts
    obtain ⟨rfl, rfl⟩ := returns_pure.mp same
    exact ⟨a, first, rfl⟩
  · intro parts
    obtain ⟨a, first, rfl⟩ := parts
    exact ⟨a, s', first, returns_value _ _⟩

theorem returns_bind_step {x : Exec σ ε α} {f : α → Exec σ ε β} {s s' s'' : σ} {a : α} {b : β}
    (first : Returns x s a s') : Returns (x >>= f) s b s'' ↔ Returns (f a) s' b s'' := by
  rw [returns_bind]
  constructor
  · intro parts
    obtain ⟨a', t, other, next⟩ := parts
    obtain ⟨rfl, rfl⟩ := returns_unique other first
    exact next
  · intro next
    exact ⟨a, s', first, next⟩

/-- From `s`, one computation ends as the other does from `t`. -/
def Leads (x : Exec σ ε α) (s : σ) (y : Exec σ ε α) (t : σ) : Prop :=
  (x s).outcome = (y t).outcome ∧ (x s).state = (y t).state

theorem leads_refl (x : Exec σ ε α) (s : σ) : Leads x s x s := ⟨rfl, rfl⟩

theorem leads_trans {x y z : Exec σ ε α} {s t u : σ} (first : Leads x s y t)
    (second : Leads y t z u) : Leads x s z u :=
  ⟨first.1.trans second.1, first.2.trans second.2⟩

theorem leads_bind {x : Exec σ ε α} {f : α → Exec σ ε β} {s s' : σ} {a : α}
    (first : Returns x s a s') : Leads (x >>= f) s (f a) s' := by
  change (Exec.bind x f s).outcome = _ ∧ (Exec.bind x f s).state = _
  obtain ⟨value, state⟩ := first
  unfold Exec.bind
  rcases h : x s with ⟨o, s'', t⟩
  simp only [h] at value state
  subst value state
  exact ⟨rfl, rfl⟩

theorem leads_fail_bind {x : Exec σ ε α} {f : α → Exec σ ε β} {s t : σ} {e : ε}
    (first : Leads x s (fail e) t) : Leads (x >>= f) s (fail e) t := by
  change (Exec.bind x f s).outcome = _ ∧ (Exec.bind x f s).state = _
  obtain ⟨error, state⟩ := first
  unfold Exec.bind
  rcases h : x s with ⟨o, s', events⟩
  rw [h] at error state
  cases o with
  | err e' => exact ⟨by simpa [fail] using error, state⟩
  | _ => simp [fail] at error

theorem panics_bind {x : Exec σ ε α} {f : α → Exec σ ε β} {s : σ} :
    Panics (x >>= f) s ↔ Panics x s ∨ ∃ a s', Returns x s a s' ∧ Panics (f a) s' := by
  change (∃ fault, (Exec.bind x f s).outcome = .panic fault) ↔ _
  unfold Exec.bind Returns Panics
  rcases x s with ⟨o, s', t⟩
  cases o <;> simp

theorem panics_bind_first {x : Exec σ ε α} {f : α → Exec σ ε β} {s : σ}
    (first : Panics x s) : Panics (x >>= f) s := panics_bind.mpr (Or.inl first)

theorem panics_bind_after {x : Exec σ ε α} {f : α → Exec σ ε β} {s s' : σ} {a : α}
    (first : Returns x s a s') (next : Panics (f a) s') : Panics (x >>= f) s :=
  panics_bind.mpr (Or.inr ⟨a, s', first, next⟩)

theorem state_bind {x : Exec σ ε α} {f : α → Exec σ ε β} {s : σ} {Q : σ → Prop}
    (first : Q (x s).state) (next : ∀ a s', Returns x s a s' → Q (f a s').state) :
    Q ((x >>= f) s).state := by
  change Q (Exec.bind x f s).state
  unfold Returns at next
  unfold Exec.bind
  rcases h : x s with ⟨o, s', t⟩
  rw [h] at first next
  cases o with
  | ok a => exact next a s' ⟨rfl, rfl⟩
  | err e => exact first
  | panic p => exact first
  | pending => exact first
  | outOfFuel => exact first

/-- The run stops to wait for input, in this state. -/
def Waits (x : Exec σ ε α) (s s' : σ) : Prop := (x s).outcome = .pending ∧ (x s).state = s'

theorem waits_bind_first {x : Exec σ ε α} {f : α → Exec σ ε β} {s s' : σ}
    (first : Waits x s s') : Waits (x >>= f) s s' := by
  change (Exec.bind x f s).outcome = .pending ∧ (Exec.bind x f s).state = s'
  obtain ⟨outcome, state⟩ := first
  unfold Exec.bind
  rcases h : x s with ⟨o, t, events⟩
  simp only [h] at outcome state
  subst outcome state
  exact ⟨rfl, rfl⟩

theorem waits_bind {x : Exec σ ε α} {f : α → Exec σ ε β} {s s'' : σ}
    (waits : Waits (x >>= f) s s'') :
    Waits x s s'' ∨ ∃ a s', Returns x s a s' ∧ Waits (f a) s' s'' := by
  change (Exec.bind x f s).outcome = .pending ∧ (Exec.bind x f s).state = s'' at waits
  unfold Exec.bind at waits
  unfold Waits Returns
  rcases h : x s with ⟨o, s', t⟩
  rw [h] at waits
  cases o with
  | ok a => exact Or.inr ⟨a, s', ⟨rfl, rfl⟩, waits⟩
  | pending => exact Or.inl ⟨rfl, waits.2⟩
  | _ => simp at waits

theorem waits_of_leads {x y : Exec σ ε α} {s t s' : σ} (leads : Leads x s y t)
    (waits : Waits y t s') : Waits x s s' :=
  ⟨leads.1.trans waits.1, leads.2.trans waits.2⟩

theorem waits_not_returns {x : Exec σ ε α} {s s' t : σ} {a : α} (waits : Waits x s s') :
    ¬ Returns x s a t := by
  intro both
  obtain ⟨ok, -⟩ := both
  exact absurd (waits.1.symm.trans ok) (by simp)

theorem pure_not_waits {a : α} {s s' : σ} : ¬ Waits (Pure.pure a : Exec σ ε α) s s' := by
  intro waits
  cases waits.1

theorem fail_not_waits {e : ε} {s s' : σ} : ¬ Waits (fail e : Exec σ ε α) s s' := by
  intro waits
  cases waits.1

theorem returns_of_leads {x y : Exec σ ε α} {s t s' : σ} {a : α} (leads : Leads x s y t) :
    Returns x s a s' ↔ Returns y t a s' := by
  rw [Returns, Returns, leads.1, leads.2]

theorem fails_of_leads {x : Exec σ ε α} {s t : σ} {e : ε} (leads : Leads x s (fail e) t) :
    Fails x s e ∧ (x s).state = t := leads

theorem safe_fails {x : Exec σ ε α} {s : σ} (safe : Safe x s)
    (nothing : ∀ a s', ¬ Returns x s a s') : ∃ e, Fails x s e := by
  rcases safe.2 with ⟨a, ok⟩ | err
  · exact absurd ⟨ok, rfl⟩ (nothing a _)
  · exact err

theorem panic_not_safe {x : Exec σ ε α} {s : σ} (h : Panics x s) : ¬ Safe x s := by
  rintro ⟨_, ⟨a, ok⟩ | ⟨e, err⟩⟩ <;> obtain ⟨p, panic⟩ := h <;> simp_all

theorem panics_not_returns {x : Exec σ ε α} {s s' : σ} {a : α} (panic : Panics x s) :
    ¬ Returns x s a s' := by
  intro both
  obtain ⟨value, -⟩ := both
  obtain ⟨p, fault⟩ := panic
  rw [value] at fault
  cases fault

theorem safe_pure (a : α) (s : σ) : Safe (Pure.pure a : Exec σ ε α) s := by
  change Safe (Exec.pure a) s
  simp [Safe, Exec.pure]

theorem safe_fail (e : ε) (s : σ) : Safe (fail e : Exec σ ε α) s := by
  simp [Safe, fail]

theorem safe_bind {x : Exec σ ε α} {f : α → Exec σ ε β} {s : σ} (first : Safe x s)
    (next : ∀ a s', Returns x s a s' → Safe (f a) s') : Safe (x >>= f) s := by
  change Safe (Exec.bind x f) s
  obtain ⟨events, settled⟩ := first
  unfold Safe Exec.bind
  unfold Returns Safe at next
  rcases h : x s with ⟨o, s', t⟩
  simp only [h] at events settled next
  cases o with
  | ok a =>
    obtain ⟨later, settles⟩ := next a s' ⟨rfl, rfl⟩
    refine ⟨?_, settles⟩
    intro ev member
    rcases List.mem_append.mp member with early | late
    · exact events ev early
    · exact later ev late
  | err e => exact ⟨events, Or.inr ⟨e, rfl⟩⟩
  | panic p => simp at settled
  | pending => simp at settled
  | outOfFuel => simp at settled

theorem safe_bind_step {x : Exec σ ε α} {f : α → Exec σ ε β} {s s' : σ} {a : α}
    (first : Returns x s a s') (safe : Safe x s) (next : Safe (f a) s') : Safe (x >>= f) s := by
  apply safe_bind safe
  intro a' t other
  obtain ⟨rfl, rfl⟩ := returns_unique other first
  exact next

theorem safe_bind_after {x : Exec σ ε α} {f : α → Exec σ ε β} {s s' : σ} {a : α}
    (first : Returns x s a s') (safe : Safe (x >>= f) s) : Safe (f a) s' := by
  obtain ⟨outcome, -⟩ := leads_bind (f := f) first
  obtain ⟨value, state⟩ := first
  have events : ((x >>= f) s).trace = (x s).trace ++ (f a s').trace := by
    change (Exec.bind x f s).trace = _
    unfold Exec.bind
    rcases h : x s with ⟨o, s'', t⟩
    simp only [h] at value state
    subst value state
    rfl
  unfold Safe at safe
  rw [outcome, events] at safe
  exact ⟨fun ev member => safe.1 ev (List.mem_append_right _ member), safe.2⟩

theorem safe_of_bind {x : Exec σ ε α} {f : α → Exec σ ε β} {s : σ} (safe : Safe (x >>= f) s) :
    Safe x s := by
  change Safe (Exec.bind x f) s at safe
  obtain ⟨events, settled⟩ := safe
  unfold Exec.bind at events settled
  unfold Safe
  rcases h : x s with ⟨o, s', t⟩
  rw [h] at events settled
  cases o with
  | ok a => exact ⟨fun ev member => events ev (List.mem_append_left _ member), Or.inl ⟨a, rfl⟩⟩
  | err e => exact ⟨events, Or.inr ⟨e, rfl⟩⟩
  | panic p => simp at settled
  | pending => simp at settled
  | outOfFuel => simp at settled

theorem safe_bind_first {x : Exec σ ε α} {f : α → Exec σ ε β} {s : σ} (safe : Safe (x >>= f) s) :
    ∀ ev ∈ (x s).trace, ev.Safe :=
  (safe_of_bind safe).1

@[simp] theorem returns_readState {s t s' : σ} :
    Returns (readState : Exec σ ε σ) s t s' ↔ t = s ∧ s' = s := by
  simp [Returns, readState, eq_comm]

theorem returns_current (s : σ) : Returns (readState : Exec σ ε σ) s s s := ⟨rfl, rfl⟩

@[simp] theorem returns_writeState {s t s' : σ} {u : Unit} :
    Returns (writeState t : Exec σ ε Unit) s u s' ↔ s' = t := by
  simp [Returns, writeState, eq_comm]

@[simp] theorem returns_fail {e : ε} {s s' : σ} {a : α} :
    ¬ Returns (fail e : Exec σ ε α) s a s' := by
  simp [Returns, fail]

@[simp] theorem returns_panicWith {p : Fault} {s s' : σ} {a : α} :
    ¬ Returns (panicWith p : Exec σ ε α) s a s' := by
  simp [Returns, panicWith]

@[simp] theorem returns_exhaust {s s' : σ} {a : α} :
    ¬ Returns (exhaust : Exec σ ε α) s a s' := by
  simp [Returns, exhaust]

@[simp] theorem returns_enter {pos len : Nat} {s s' : σ} {u : Unit} :
    Returns (enter pos len : Exec σ ε Unit) s u s' ↔ s' = s := by
  simp [Returns, enter, eq_comm]

@[simp] theorem returns_okOr {o : Option α} {e : ε} {s s' : σ} {a : α} :
    Returns (okOr o e : Exec σ ε α) s a s' ↔ o = some a ∧ s' = s := by
  cases o <;> simp [okOr, Returns, Exec.pure, fail, eq_comm]

@[simp] theorem returns_ofExcept {r : Except ε α} {s s' : σ} {a : α} :
    Returns (ofExcept r : Exec σ ε α) s a s' ↔ r = .ok a ∧ s' = s := by
  cases r <;> simp [ofExcept, Returns, Exec.pure, fail, eq_comm]

@[simp] theorem returns_index {data : List β} {i : Nat} {s s' : σ} {b : β} :
    Returns (index data i : Exec σ ε β) s b s' ↔ data[i]? = some b ∧ s' = s := by
  unfold index
  cases data[i]? <;> simp [Returns, Exec.pure, panicWith, eq_comm]

@[simp] theorem returns_slice {data : List β} {start stop : Nat} {s s' : σ} {out : List β} :
    Returns (slice data start stop : Exec σ ε (List β)) s out s' ↔
      (start ≤ stop ∧ stop ≤ data.length) ∧ out = (data.take stop).drop start ∧ s' = s := by
  unfold slice Returns
  by_cases bounds : start ≤ stop ∧ stop ≤ data.length <;> simp [bounds, eq_comm]

section Stepping
variable {f : α → Exec σ ε β} {s s' : σ} {b : β}

/- One rule for each primitive that starts a block: symbolic execution by simp. -/

@[simp] theorem returns_pure_bind {a : α} :
    Returns (Pure.pure a >>= f) s b s' ↔ Returns (f a) s b s' := by
  simp

@[simp] theorem returns_readState_bind {f : σ → Exec σ ε β} :
    Returns (readState >>= f) s b s' ↔ Returns (f s) s b s' := by
  simp [returns_bind]

@[simp] theorem returns_writeState_bind {f : Unit → Exec σ ε β} {t : σ} :
    Returns (writeState t >>= f) s b s' ↔ Returns (f ()) t b s' := by
  simp [returns_bind, Unique.exists_iff]

@[simp] theorem returns_enter_bind {f : Unit → Exec σ ε β} {pos len : Nat} :
    Returns (enter pos len >>= f) s b s' ↔ Returns (f ()) s b s' := by
  simp [returns_bind, Unique.exists_iff]

@[simp] theorem returns_okOr_bind {o : Option α} {e : ε} :
    Returns (okOr o e >>= f) s b s' ↔ ∃ a, o = some a ∧ Returns (f a) s b s' := by
  simp [returns_bind, and_assoc]

@[simp] theorem returns_index_bind {data : List α} {i : Nat} :
    Returns (index data i >>= f) s b s' ↔ ∃ a, data[i]? = some a ∧ Returns (f a) s b s' := by
  simp [returns_bind, and_assoc]

@[simp] theorem returns_slice_bind {f : List α → Exec σ ε β} {data : List α} {start stop : Nat} :
    Returns (slice data start stop >>= f) s b s' ↔
      (start ≤ stop ∧ stop ≤ data.length) ∧ Returns (f ((data.take stop).drop start)) s b s' := by
  simp [returns_bind, and_assoc]

end Stepping

theorem returns_unsigned_of_fits {p : Profile} {bits : Nat} {exact : Int} {s s' : σ} {n : Nat}
    (fits : 0 ≤ exact ∧ exact < 2 ^ bits) :
    Returns (unsigned p bits exact : Exec σ ε Nat) s n s' ↔ n = exact.toNat ∧ s' = s := by
  simp [Returns, unsigned, fits, eq_comm]

theorem returns_unsigned_nat_bind {p : Profile} {bits n : Nat} {f : Nat → Exec σ ε β} {s s' : σ}
    {b : β} (fits : n < 2 ^ bits) :
    Returns (unsigned p bits (n : Int) >>= f) s b s' ↔ Returns (f n) s b s' := by
  have exact_fits : 0 ≤ (n : Int) ∧ (n : Int) < 2 ^ bits := ⟨by omega, by exact_mod_cast fits⟩
  exact returns_bind_step ((returns_unsigned_of_fits exact_fits).mpr ⟨by simp, rfl⟩)

theorem returns_unsigned_nat {p : Profile} {bits n r : Nat} {s s' : σ} :
    Returns (unsigned p bits (n : Int) : Exec σ ε Nat) s r s' ↔
      s' = s ∧ r = n % 2 ^ bits ∧ (p = .debug → n < 2 ^ bits) := by
  by_cases fits : n < 2 ^ bits
  · have inside : 0 ≤ (n : Int) ∧ (n : Int) < 2 ^ bits := ⟨by omega, by exact_mod_cast fits⟩
    rw [returns_unsigned_of_fits inside, Int.toNat_natCast, Nat.mod_eq_of_lt fits]
    simp [fits, and_comm]
  · have outside : ¬ (0 ≤ (n : Int) ∧ (n : Int) < 2 ^ bits) := by
      intro inside
      exact fits (by exact_mod_cast inside.2)
    have wrapped : ((n : Int) % 2 ^ bits).toNat = n % 2 ^ bits := by
      exact_mod_cast Int.toNat_natCast _
    simp only [Returns, unsigned, if_neg outside]
    cases p with
    | debug => simp [fits]
    | release => simp [wrapped, eq_comm, and_comm]

theorem panics_unsigned {bits n : Nat} {s : σ} (beyond : 2 ^ bits ≤ n) :
    Panics (unsigned .debug bits (n : Int) : Exec σ ε Nat) s := by
  have outside : ¬ (0 ≤ (n : Int) ∧ (n : Int) < 2 ^ bits) := by
    intro inside
    have less : n < 2 ^ bits := by exact_mod_cast inside.2
    omega
  exact ⟨.overflow, by simp only [unsigned, outside, ↓reduceIte]⟩

theorem returns_usizeAdd {p : Profile} {a b : Nat} {s s' : σ} {n : Nat} (fits : a + b < 2 ^ 64) :
    Returns (usizeAdd p a b : Exec σ ε Nat) s n s' ↔ n = a + b ∧ s' = s := by
  unfold usizeAdd
  rw [returns_unsigned_of_fits (by omega)]
  have : ((a : Int) + b).toNat = a + b := by omega
  rw [this]

theorem returns_usizeSub {p : Profile} {a b : Nat} {s s' : σ} {n : Nat} (le : b ≤ a)
    (fits : a < 2 ^ 64) :
    Returns (usizeSub p a b : Exec σ ε Nat) s n s' ↔ n = a - b ∧ s' = s := by
  unfold usizeSub
  rw [returns_unsigned_of_fits (by omega)]
  have : ((a : Int) - b).toNat = a - b := by omega
  rw [this]

theorem returns_usizeAdd_bind {p : Profile} {m n : Nat} {f : Nat → Exec σ ε β} {s s' : σ} {b : β}
    (fits : m + n < 2 ^ 64) :
    Returns (usizeAdd p m n >>= f) s b s' ↔ Returns (f (m + n)) s b s' := by
  simp [returns_bind, returns_usizeAdd fits]

theorem unsigned_not_waits {p : Profile} {bits : Nat} {exact : Int} {s s' : σ} :
    ¬ Waits (unsigned p bits exact : Exec σ ε Nat) s s' := by
  intro both
  obtain ⟨outcome, -⟩ := both
  unfold unsigned at outcome
  split_ifs at outcome
  cases p <;> cases outcome

theorem usizeAdd_overflow {p : Profile} {a b : Nat} {s : σ} (ha : a < 2 ^ 64) (hb : b < 2 ^ 64)
    (exceeds : 2 ^ 64 ≤ a + b) :
    Panics (usizeAdd p a b : Exec σ ε Nat) s ∨
      Returns (usizeAdd p a b : Exec σ ε Nat) s (a + b - 2 ^ 64) s := by
  have no : ¬ (0 ≤ ((a : Int) + b) ∧ ((a : Int) + b) < 2 ^ 64) := by omega
  cases p with
  | debug => exact Or.inl ⟨.overflow, by simp only [usizeAdd, unsigned, if_neg no]⟩
  | release =>
    refine Or.inr ⟨?_, rfl⟩
    have wrapped : (((a : Int) + b) % 2 ^ 64).toNat = a + b - 2 ^ 64 := by omega
    simp only [usizeAdd, unsigned, if_neg no, wrapped]

theorem returns_usizeAdd_cases {p : Profile} {a b n : Nat} {s s' : σ} (ha : a < 2 ^ 64)
    (hb : b < 2 ^ 64) (run : Returns (usizeAdd p a b : Exec σ ε Nat) s n s') :
    s' = s ∧ (n = a + b ∧ a + b < 2 ^ 64 ∨ n < a ∧ 2 ^ 64 ≤ a + b) := by
  by_cases sum : a + b < 2 ^ 64
  · obtain ⟨rfl, rfl⟩ := (returns_usizeAdd sum).mp run
    exact ⟨rfl, Or.inl ⟨rfl, sum⟩⟩
  · rcases @usizeAdd_overflow σ ε p a b s ha hb (by omega) with ⟨f, panic⟩ | wrapped
    · exact absurd (panic.symm.trans run.1) (by simp)
    · obtain ⟨value, state⟩ := returns_unique run wrapped
      exact ⟨state, Or.inr (by omega)⟩

@[simp] theorem returns_within {t t' : τ} {x : Exec τ ε α} {s s' : σ} {a : α} :
    Returns (within t x : Exec σ ε (α × τ)) s (a, t') s' ↔ Returns x t a t' ∧ s' = s := by
  simp only [Returns, within]
  cases (x t).outcome <;> simp [Outcome.map, and_assoc, eq_comm]

theorem returns_onField {get : σ → τ} {set : σ → τ → σ} {x : Exec τ ε α} {s s' : σ} {a : α} :
    Returns (onField get set x) s a s' ↔ ∃ t, Returns x (get s) a t ∧ s' = set s t := by
  simp [Returns, onField, eq_comm, and_assoc]

@[simp] theorem returns_mapErr {g : ε → ε'} {x : Exec σ ε α} {s s' : σ} {a : α} :
    Returns (mapErr g x) s a s' ↔ Returns x s a s' := by
  simp only [Returns, mapErr]
  cases (x s).outcome <;> simp [Outcome.mapErr]

theorem leads_mapErr {g : ε → ε'} {x y : Exec σ ε α} {s t : σ} (leads : Leads x s y t) :
    Leads (mapErr g x) s (mapErr g y) t := by
  simp only [Leads, mapErr, leads.1, leads.2, and_self]

theorem waits_mapErr {g : ε → ε'} {x : Exec σ ε α} {s s' : σ} (waits : Waits x s s') :
    Waits (mapErr g x) s s' := by
  simp only [Waits, mapErr, waits.1, waits.2, Outcome.mapErr, and_self]

theorem safe_within {t : τ} {x : Exec τ ε α} {s : σ} :
    Safe (within t x : Exec σ ε (α × τ)) s ↔ Safe x t := by
  simp only [Safe, within]
  cases (x t).outcome <;> simp [Outcome.map]

theorem panics_within {t : τ} {x : Exec τ ε α} {s : σ} (panic : Panics x t) :
    Panics (within t x : Exec σ ε (α × τ)) s := by
  obtain ⟨f, panic⟩ := panic
  exact ⟨f, by simp only [within, panic, Outcome.map]⟩

theorem safe_readState (s : σ) : Safe (readState : Exec σ ε σ) s := by
  simp [Safe, readState]

theorem safe_readState_bind {f : σ → Exec σ ε β} {s : σ} (next : Safe (f s) s) :
    Safe (readState >>= f) s := by
  apply safe_bind (safe_readState s)
  intro t s' read
  obtain ⟨rfl, rfl⟩ := returns_readState.mp read
  exact next

theorem safe_writeState (s t : σ) : Safe (writeState t : Exec σ ε Unit) s := by
  simp [Safe, writeState]

theorem panics_readState_bind {f : σ → Exec σ ε β} {s : σ} (next : Panics (f s) s) :
    Panics (readState >>= f) s :=
  panics_bind_after (returns_current _) next

theorem panics_enter_bind {pos len : Nat} {f : Unit → Exec σ ε β} {s : σ}
    (next : Panics (f ()) s) : Panics (enter pos len >>= f) s :=
  panics_bind_after (returns_enter.mpr rfl) next

theorem panics_okOr_bind {o : Option α} {e : ε} {f : α → Exec σ ε β} {s : σ} {a : α}
    (some : o = some a) (next : Panics (f a) s) : Panics (okOr o e >>= f) s :=
  panics_bind_after (returns_okOr.mpr ⟨some, rfl⟩) next

theorem safe_enter {pos len : Nat} (s : σ) (le : pos ≤ len) :
    Safe (enter pos len : Exec σ ε Unit) s := by
  simp [Safe, enter, Event.Safe, le]

theorem safe_enter_bind {pos len : Nat} {f : Unit → Exec σ ε β} {s : σ} (le : pos ≤ len)
    (next : Safe (f ()) s) : Safe (enter pos len >>= f) s := by
  apply safe_bind (safe_enter s le)
  intro u s' entered
  obtain rfl := returns_enter.mp entered
  exact next

theorem safe_okOr (o : Option α) (e : ε) (s : σ) : Safe (okOr o e : Exec σ ε α) s := by
  cases o <;> simp [okOr, Safe, Exec.pure, fail]

theorem safe_index {data : List β} {i : Nat} (s : σ) (lt : i < data.length) :
    Safe (index data i : Exec σ ε β) s := by
  simp [index, lt, Safe, Exec.pure]

theorem safe_slice {data : List β} {start stop : Nat} (s : σ) (order : start ≤ stop)
    (inside : stop ≤ data.length) : Safe (slice data start stop : Exec σ ε (List β)) s := by
  simp [slice, order, inside, Safe, Event.Safe]

theorem safe_unsigned {p : Profile} {bits : Nat} {exact : Int} (s : σ)
    (fits : 0 ≤ exact ∧ exact < 2 ^ bits) :
    Safe (unsigned p bits exact : Exec σ ε Nat) s := by
  simp [unsigned, fits, Safe, Event.Safe]

theorem safe_unsigned_nat_bind_iff {p : Profile} {bits n : Nat} {f : Nat → Exec σ ε β} {s : σ} :
    Safe (unsigned p bits (n : Int) >>= f) s ↔ n < 2 ^ bits ∧ Safe (f n) s := by
  have value (fits : n < 2 ^ bits) : Returns (unsigned p bits (n : Int) : Exec σ ε Nat) s n s :=
    (returns_unsigned_of_fits ⟨by omega, by exact_mod_cast fits⟩).mpr ⟨by simp, rfl⟩
  constructor
  · intro safe
    have event := safe_bind_first safe (.arith bits n) (by simp [unsigned])
    have fits : n < 2 ^ bits := by exact_mod_cast event.2
    exact ⟨fits, safe_bind_after (value fits) safe⟩
  · intro both
    obtain ⟨fits, next⟩ := both
    exact safe_bind_step (value fits) (safe_unsigned s ⟨by omega, by exact_mod_cast fits⟩) next

theorem safe_usizeAdd {p : Profile} {a b : Nat} (s : σ) (fits : a + b < 2 ^ 64) :
    Safe (usizeAdd p a b : Exec σ ε Nat) s :=
  safe_unsigned s (by omega)

theorem safe_usizeAdd_bind {p : Profile} {m n : Nat} {f : Nat → Exec σ ε β} {s : σ}
    (fits : m + n < 2 ^ 64) (next : Safe (f (m + n)) s) : Safe (usizeAdd p m n >>= f) s := by
  apply safe_bind (safe_usizeAdd s fits)
  intro sum s' add
  obtain ⟨rfl, rfl⟩ := (returns_usizeAdd fits).mp add
  exact next

theorem safe_usizeSub {p : Profile} {a b : Nat} (s : σ) (le : b ≤ a) (fits : a < 2 ^ 64) :
    Safe (usizeSub p a b : Exec σ ε Nat) s :=
  safe_unsigned s (by omega)

end RustExec
