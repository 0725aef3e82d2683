import RustyTorrent.Library.RustExec

/- Runs that end without a value: the rules for `Fails`, one for each operation of `RustExec`,
   and those that an error and a panic share. -/
namespace ErrorRuns
open RustExec
variable {σ τ ε ε' α β : Type}

theorem fails_unique {x : Exec σ ε α} {s : σ} {e e' : ε} (one : Fails x s e)
    (other : Fails x s e') : e = e' := by
  have same := one.symm.trans other
  simpa using same

theorem fails_not_returns {x : Exec σ ε α} {s s' : σ} {a : α} {e : ε} (failed : Fails x s e) :
    ¬ Returns x s a s' := by
  intro run
  cases failed.symm.trans run.1

theorem fails_bind {x : Exec σ ε α} {f : α → Exec σ ε β} {s : σ} {e : ε} :
    Fails (x >>= f) s e ↔ Fails x s e ∨ ∃ a s', Returns x s a s' ∧ Fails (f a) s' e := by
  change (Exec.bind x f s).outcome = .err e ↔ _
  unfold Exec.bind Returns Fails
  rcases x s with ⟨o, s', t⟩
  cases o <;> simp

theorem fails_bind_step {x : Exec σ ε α} {f : α → Exec σ ε β} {s s' : σ} {a : α} {e : ε}
    (first : Returns x s a s') : Fails (x >>= f) s e ↔ Fails (f a) s' e := by
  rw [Fails, Fails, (leads_bind first).1]

theorem fails_bind_pure {x : Exec σ ε α} {f : α → β} {s : σ} {e : ε} :
    Fails (x >>= fun a => Pure.pure (f a)) s e ↔ Fails x s e := by
  rw [fails_bind, or_iff_left]
  intro later
  obtain ⟨a, s', -, failed⟩ := later
  exact fails_not_returns failed (returns_value _ _)

theorem fails_bind_first {x : Exec σ ε α} {f : α → Exec σ ε β} {s : σ} {e : ε}
    (first : Fails x s e) : Fails (x >>= f) s e := fails_bind.mpr (Or.inl first)

@[simp] theorem fails_pure {a : α} {s : σ} {e : ε} :
    ¬ Fails (Pure.pure a : Exec σ ε α) s e := fails_not_returns.mt (not_not.mpr ⟨rfl, rfl⟩)

@[simp] theorem fails_fail {s : σ} {e e' : ε} : Fails (fail e : Exec σ ε α) s e' ↔ e = e' := by
  simp [Fails, fail]

@[simp] theorem fails_exhaust {s : σ} {e : ε} : ¬ Fails (exhaust : Exec σ ε α) s e := by
  simp [Fails, exhaust]

@[simp] theorem fails_readState_bind {f : σ → Exec σ ε β} {s : σ} {e : ε} :
    Fails (readState >>= f) s e ↔ Fails (f s) s e := fails_bind_step ⟨rfl, rfl⟩

@[simp] theorem fails_writeState_bind {f : Unit → Exec σ ε β} {s t : σ} {e : ε} :
    Fails (writeState t >>= f) s e ↔ Fails (f ()) t e := fails_bind_step ⟨rfl, rfl⟩

@[simp] theorem fails_writeState {s t : σ} {e : ε} :
    ¬ Fails (writeState t : Exec σ ε Unit) s e := by
  simp [Fails, writeState]

@[simp] theorem fails_enter_bind {f : Unit → Exec σ ε β} {pos len : Nat} {s : σ} {e : ε} :
    Fails (enter pos len >>= f) s e ↔ Fails (f ()) s e := fails_bind_step ⟨rfl, rfl⟩

@[simp] theorem fails_okOr {o : Option α} {s : σ} {e e' : ε} :
    Fails (okOr o e : Exec σ ε α) s e' ↔ o = none ∧ e = e' := by
  cases o <;> simp [okOr, Fails, fail, Exec.pure]

@[simp] theorem fails_slice {data : List β} {start stop : Nat} {s : σ} {e : ε} :
    ¬ Fails (slice data start stop : Exec σ ε (List β)) s e := by
  unfold slice Fails
  split <;> simp

@[simp] theorem fails_unsigned {p : Profile} {bits : Nat} {exact : Int} {s : σ} {e : ε} :
    ¬ Fails (unsigned p bits exact : Exec σ ε Nat) s e := by
  unfold unsigned Fails
  cases p <;> split <;> simp

@[simp] theorem fails_usizeAdd {p : Profile} {a b : Nat} {s : σ} {e : ε} :
    ¬ Fails (usizeAdd p a b : Exec σ ε Nat) s e := fails_unsigned

@[simp] theorem fails_usizeSub {p : Profile} {a b : Nat} {s : σ} {e : ε} :
    ¬ Fails (usizeSub p a b : Exec σ ε Nat) s e := fails_unsigned

@[simp] theorem fails_within {t : τ} {x : Exec τ ε α} {s : σ} {e : ε} :
    Fails (within t x : Exec σ ε (α × τ)) s e ↔ Fails x t e := by
  simp only [Fails, within]
  cases (x t).outcome <;> simp [Outcome.map]

/-- How a run can end that gives no value. -/
inductive Halt (ε : Type) where
  | error (e : ε)
  | panic

def Halts (x : Exec σ ε α) (s : σ) : Halt ε → Prop
  | .error e => Fails x s e
  | .panic => Panics x s

theorem halts_bind {x : Exec σ ε α} {f : α → Exec σ ε β} {s : σ} {h : Halt ε} :
    Halts (x >>= f) s h ↔ Halts x s h ∨ ∃ a s', Returns x s a s' ∧ Halts (f a) s' h := by
  cases h with
  | error e => exact fails_bind
  | panic => exact panics_bind

theorem halts_bind_first {x : Exec σ ε α} {f : α → Exec σ ε β} {s : σ} {h : Halt ε}
    (first : Halts x s h) : Halts (x >>= f) s h := halts_bind.mpr (Or.inl first)

theorem halts_bind_step {x : Exec σ ε α} {f : α → Exec σ ε β} {s s' : σ} {a : α} {h : Halt ε}
    (first : Returns x s a s') : Halts (x >>= f) s h ↔ Halts (f a) s' h := by
  have outcomes := (leads_bind (f := f) first).1
  cases h with
  | error e => exact fails_bind_step first
  | panic => simp only [Halts, Panics, outcomes]

@[simp] theorem halts_readState_bind {f : σ → Exec σ ε β} {s : σ} {h : Halt ε} :
    Halts (readState >>= f) s h ↔ Halts (f s) s h := halts_bind_step ⟨rfl, rfl⟩

@[simp] theorem halts_enter_bind {f : Unit → Exec σ ε β} {pos len : Nat} {s : σ} {h : Halt ε} :
    Halts (enter pos len >>= f) s h ↔ Halts (f ()) s h := halts_bind_step ⟨rfl, rfl⟩

end ErrorRuns
