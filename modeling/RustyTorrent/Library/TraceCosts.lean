import RustyTorrent.Library.RustExec

/- The number of checks that a run makes, against the progress that it makes. Every unit of
   progress pays for a fixed number of them; what it does not pay is owed. -/
namespace TraceCosts
open RustExec

variable {σ τ ε ε' α β : Type}

/-- `inside` holds of every state on the way. -/
structure Tariff (σ : Type) where
  inside : σ → Prop
  progress : σ → Nat
  rate : Nat

/-- The run owes at most `owed` checks if it returns, and `most` however it ends. -/
structure Paid (t : Tariff σ) (x : Exec σ ε α) (s : σ) (owed most : Int) : Prop where
  inside : t.inside (x s).state
  returned : ∀ a, (x s).outcome = .ok a → ((x s).trace.length : Int) + t.rate * t.progress s ≤
    t.rate * t.progress (x s).state + owed
  ended : ((x s).trace.length : Int) + t.rate * t.progress s ≤
    t.rate * t.progress (x s).state + most

variable {t : Tariff σ} {s : σ} {owed most : Int}

theorem paid_mono {x : Exec σ ε α} {owed' most' : Int} (paid : Paid t x s owed most)
    (less : owed ≤ owed') (less' : most ≤ most') : Paid t x s owed' most' := by
  refine ⟨paid.inside, ?_, ?_⟩
  · intro a outcome
    have returned := paid.returned a outcome
    omega
  · have ended := paid.ended
    omega

theorem paid_still {x : Exec σ ε α} (inside : t.inside s) (state : (x s).state = s)
    (returned : (∃ a, (x s).outcome = .ok a) → ((x s).trace.length : Int) ≤ owed)
    (ended : ((x s).trace.length : Int) ≤ most) : Paid t x s owed most := by
  refine ⟨state.symm ▸ inside, ?_, ?_⟩
  · intro a outcome
    have bound := returned ⟨a, outcome⟩
    rw [state]
    omega
  · rw [state]
    omega

theorem paid_pure {a : α} (inside : t.inside s) (owes : 0 ≤ owed) (ends : 0 ≤ most) :
    Paid t (pure a : Exec σ ε α) s owed most :=
  paid_still inside rfl (fun _ => owes) ends

theorem paid_fail {e : ε} (inside : t.inside s) (ends : 0 ≤ most) :
    Paid t (fail e : Exec σ ε α) s owed most :=
  paid_still inside rfl (by simp [fail]) ends

theorem paid_exhaust (inside : t.inside s) (ends : 0 ≤ most) :
    Paid t (exhaust : Exec σ ε α) s owed most :=
  paid_still inside rfl (by simp [exhaust]) ends

theorem paid_enter {pos len : Nat} (inside : t.inside s) :
    Paid t (enter pos len : Exec σ ε Unit) s 1 1 :=
  paid_still inside rfl (fun _ => le_rfl) le_rfl

theorem paid_unsigned {p : Profile} {bits : Nat} {exact : Int} (inside : t.inside s) :
    Paid t (unsigned p bits exact : Exec σ ε Nat) s 1 1 :=
  paid_still inside rfl (fun _ => le_rfl) le_rfl

theorem paid_slice {data : List β} {start stop : Nat} (inside : t.inside s) :
    Paid t (slice data start stop : Exec σ ε (List β)) s 1 1 :=
  paid_still inside rfl (fun _ => le_rfl) le_rfl

theorem paid_index {data : List β} {i : Nat} (inside : t.inside s) :
    Paid t (index data i : Exec σ ε β) s 0 0 := by
  unfold index
  split
  · exact paid_pure inside le_rfl le_rfl
  · exact paid_still inside rfl (fun _ => le_rfl) le_rfl

theorem paid_okOr {o : Option α} {e : ε} (inside : t.inside s) :
    Paid t (okOr o e : Exec σ ε α) s 0 0 := by
  unfold okOr
  split
  · exact paid_pure inside le_rfl le_rfl
  · exact paid_fail inside le_rfl

theorem paid_writeState {s' : σ} (inside : t.inside s')
    (pays : t.rate * (t.progress s : Int) ≤ t.rate * t.progress s' + owed) :
    Paid t (writeState s' : Exec σ ε Unit) s owed owed :=
  ⟨inside, fun _ _ => by simpa [writeState] using pays, by simpa [writeState] using pays⟩

theorem paid_readState_bind {f : σ → Exec σ ε α} (next : Paid t (f s) s owed most) :
    Paid t (readState >>= f) s owed most := by
  have whole : (readState >>= f) s = f s s := rfl
  exact ⟨whole ▸ next.inside, whole ▸ next.returned, whole ▸ next.ended⟩

theorem paid_bind {x : Exec σ ε α} {f : α → Exec σ ε β} {owed₁ most₁ : Int}
    (first : Paid t x s owed₁ most₁) (early : most₁ ≤ most)
    (next : ∀ a s', Returns x s a s' → t.inside s' →
      Paid t (f a) s' (owed - owed₁) (most - owed₁)) :
    Paid t (x >>= f) s owed most := by
  change Paid t (Exec.bind x f) s owed most
  rcases run : x s with ⟨o, s', events⟩
  have inside := first.inside
  have returned := first.returned
  have ended := first.ended
  rw [run] at inside returned ended
  cases o with
  | ok a =>
    have later := next a s' ⟨by rw [run], by rw [run]⟩ inside
    have paid := returned a rfl
    simp only at paid
    constructor
    · simp only [Exec.bind, run]
      exact later.inside
    · intro b outcome
      simp only [Exec.bind, run, List.length_append, Nat.cast_add] at outcome ⊢
      have rest := later.returned b outcome
      omega
    · simp only [Exec.bind, run, List.length_append, Nat.cast_add]
      have rest := later.ended
      omega
  | _ =>
    simp only at ended
    constructor
    · simp only [Exec.bind, run]
      exact inside
    · intro b outcome
      simp only [Exec.bind, run, reduceCtorEq] at outcome
    · simp only [Exec.bind, run]
      omega

end TraceCosts
