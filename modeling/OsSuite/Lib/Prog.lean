import Mathlib

/-!
# Prog — sequential kernel code as a state-passing program

A call can end in three ways: it RETURNS, the calling process EXITS
inside it (control never comes back to the caller), or the machine
PANICS. `Prog` threads a state through such calls and collects a list of
OBSERVATIONS — facts about the states the run went through that a
statement may want to speak about (`tell`). An observation never changes
what the program does.

The second half is the proof method: `wp A x Q s` reads "if every
observation of the run of `x` from `s` satisfies `A`, the run ends in
`Q`". All rules are equivalences, so `simp only [wp_rules]` turns a
straight-line program into a plain proposition; `wp.mono` applies the
specification of a callee.
-/

namespace OsSuite

/-- How a call ends, with the observations made on the way. -/
inductive Out (σ ε α : Type) where
  | ret (a : α) (s : σ) (w : List ε)
  | exit (s : σ) (w : List ε)
  | panic (msg : String) (w : List ε)

/-- Observations made before the call come first. -/
def Out.after {σ ε α : Type} (w : List ε) : Out σ ε α → Out σ ε α
  | .ret a s w' => .ret a s (w ++ w')
  | .exit s w' => .exit s (w ++ w')
  | .panic m w' => .panic m (w ++ w')

@[simp] theorem Out.after_nil {σ ε α : Type} (o : Out σ ε α) : o.after [] = o := by
  cases o <;> rfl

/-- Code over a state `σ` with observations `ε` and a result `α`. -/
def Prog (σ ε α : Type) : Type := σ → Out σ ε α

namespace Prog

variable {σ τ ε α β : Type}

protected def pure (a : α) : Prog σ ε α := fun s => .ret a s []

protected def bind (x : Prog σ ε α) (f : α → Prog σ ε β) : Prog σ ε β := fun s =>
  match x s with
  | .ret a s' w => (f a s').after w
  | .exit s' w => .exit s' w
  | .panic m w => .panic m w

instance : Monad (Prog σ ε) where
  pure := Prog.pure
  bind := Prog.bind

/-- Read the state. -/
def get : Prog σ ε σ := fun s => .ret s s []

/-- Change the state. -/
def modify (f : σ → σ) : Prog σ ε Unit := fun s => .ret () (f s) []

/-- The machine stops with a message. -/
def panic (msg : String) : Prog σ ε α := fun _ => .panic msg []

/-- The calling process is gone; `f` is what its exit does to the state. -/
def exit (f : σ → σ) : Prog σ ε α := fun s => .exit (f s) []

/-- Record an observation. -/
def tell (e : ε) : Prog σ ε Unit := fun s => .ret () s [e]

/-- Run code that only sees a part `τ` of the state. -/
def zoom (g : σ → τ) (p : τ → σ → σ) (x : Prog τ ε α) : Prog σ ε α := fun s =>
  match x (g s) with
  | .ret a t w => .ret a (p t s) w
  | .exit t w => .exit (p t s) w
  | .panic m w => .panic m w

/-- `body 0; ...; body (n-1)`. -/
def upTo (body : Nat → Prog σ ε Unit) : Nat → Prog σ ε Unit
  | 0 => pure ()
  | n + 1 => do upTo body n; body n

/-- A callee that returns, and what comes after it. -/
theorem bind_ret {x : Prog σ ε α} {f : α → Prog σ ε β} {s s' : σ} {a : α} {w : List ε}
    (h : x s = .ret a s' w) : (x >>= f) s = (f a s').after w := by
  simp only [bind, Prog.bind, h]

/-- A callee that does not return. -/
theorem bind_exit {x : Prog σ ε α} {f : α → Prog σ ε β} {s s' : σ} {w : List ε}
    (h : x s = .exit s' w) : (x >>= f) s = .exit s' w := by
  simp only [bind, Prog.bind, h]

theorem bind_panic {x : Prog σ ε α} {f : α → Prog σ ε β} {s : σ} {m : String} {w : List ε}
    (h : x s = .panic m w) : (x >>= f) s = .panic m w := by
  simp only [bind, Prog.bind, h]

/-- Where a sequence exits. -/
theorem bind_eq_exit {x : Prog σ ε α} {f : α → Prog σ ε β} {s s' : σ} {w : List ε}
    (h : (x >>= f) s = .exit s' w) : x s = .exit s' w ∨
      ∃ a s₁ w₁ w₂, x s = .ret a s₁ w₁ ∧ f a s₁ = .exit s' w₂ ∧ w = w₁ ++ w₂ := by
  cases hx : x s with
  | ret a s₁ w₁ =>
      rw [bind_ret hx] at h
      cases hf : f a s₁ with
      | exit s₂ w₂ =>
          rw [hf] at h
          cases h
          exact .inr ⟨a, s₁, w₁, w₂, rfl, hf, rfl⟩
      | ret b s₂ w₂ => rw [hf] at h; cases h
      | panic m w₂ => rw [hf] at h; cases h
  | exit s₁ w₁ =>
      rw [bind_exit hx] at h
      cases h
      exact .inl rfl
  | panic m w₁ =>
      rw [bind_panic hx] at h
      cases h

/-- A sequence that exits, with other code behind the callee. -/
theorem bind_exit_congr {γ : Type} {x : Prog σ ε α} {f : α → Prog σ ε β} {g : α → Prog σ ε γ}
    {s s' : σ} {w : List ε} (h : (x >>= f) s = .exit s' w)
    (hfg : ∀ a s₁ w', f a s₁ = .exit s' w' → g a s₁ = .exit s' w') : (x >>= g) s = .exit s' w := by
  rcases bind_eq_exit h with hx | ⟨a, s₁, w₁, w₂, hx, hf, rfl⟩
  · exact bind_exit hx
  · rw [bind_ret hx, hfg a s₁ w₂ hf]
    rfl

/-- Code that first looks at the state. -/
theorem get_bind (f : σ → Prog σ ε β) (s : σ) : (Prog.get >>= f) s = f s s := by
  rw [bind_ret (show Prog.get s = .ret s s [] from rfl), Out.after_nil]

end Prog

/-! ## Weakest preconditions -/

/-- What is asked of each of the three endings. -/
structure Post (σ α : Type) where
  ret : α → σ → Prop
  exit : σ → Prop
  panic : String → Prop

variable {σ τ ε α β : Type}

/-- An ending meets `Q`, provided its observations satisfy `A`. -/
def Out.Sat (A : ε → Prop) (Q : Post σ α) : Out σ ε α → Prop
  | .ret a s w => (∀ e ∈ w, A e) → Q.ret a s
  | .exit s w => (∀ e ∈ w, A e) → Q.exit s
  | .panic m w => (∀ e ∈ w, A e) → Q.panic m

/-- **Weakest precondition**: the run of `x` from `s` ends in `Q` if its
observations satisfy `A`. -/
def wp (A : ε → Prop) (x : Prog σ ε α) (Q : Post σ α) (s : σ) : Prop :=
  (x s).Sat A Q

theorem Out.Sat.mono {A : ε → Prop} {Q Q' : Post σ α} {o : Out σ ε α} (h : o.Sat A Q)
    (hr : ∀ a s, Q.ret a s → Q'.ret a s) (he : ∀ s, Q.exit s → Q'.exit s)
    (hp : ∀ m, Q.panic m → Q'.panic m) : o.Sat A Q' := by
  cases o with
  | ret a s w => exact fun hw => hr a s (h hw)
  | exit s w => exact fun hw => he s (h hw)
  | panic m w => exact fun hw => hp m (h hw)

/-- Earlier observations are a further assumption. -/
theorem Out.sat_after {A : ε → Prop} {Q : Post σ α} {w : List ε} {o : Out σ ε α} :
    (o.after w).Sat A Q ↔ ((∀ e ∈ w, A e) → o.Sat A Q) := by
  cases o <;> simp only [Out.after, Out.Sat, List.mem_append] <;>
    exact ⟨fun h hw hw' => h fun e he => he.elim (hw e) (hw' e),
      fun h hw => h (fun e he => hw e (.inl he)) fun e he => hw e (.inr he)⟩

/-- The specification of a callee, weakened to what the caller needs. -/
theorem wp.mono {A : ε → Prop} {x : Prog σ ε α} {Q Q' : Post σ α} {s : σ}
    (h : wp A x Q s) (hr : ∀ a s', Q.ret a s' → Q'.ret a s')
    (he : ∀ s', Q.exit s' → Q'.exit s') (hp : ∀ m, Q.panic m → Q'.panic m) :
    wp A x Q' s :=
  Out.Sat.mono h hr he hp

/-- The same for the result alone. -/
theorem wp.weaken {A : ε → Prop} {x : Prog σ ε α} {Q Q' : α → σ → Prop} {E : σ → Prop}
    {P : String → Prop} {s : σ} (h : wp A x ⟨Q, E, P⟩ s) (hq : ∀ a s', Q a s' → Q' a s') :
    wp A x ⟨Q', E, P⟩ s :=
  h.mono hq (fun _ h => h) fun _ h => h

/-- A specification that keeps the run itself. -/
theorem wp.of_run {A : ε → Prop} {x : Prog σ ε α} {Q : Post σ α} {s : σ}
    (hr : ∀ a s' w, x s = .ret a s' w → Q.ret a s') (he : ∀ s' w, x s = .exit s' w → Q.exit s')
    (hp : ∀ m w, x s = .panic m w → Q.panic m) : wp A x Q s := by
  unfold wp
  cases hx : x s with
  | ret a s w => exact fun _ => hr a s w hx
  | exit s w => exact fun _ => he s w hx
  | panic m w => exact fun _ => hp m w hx

/-- What holds of every ending holds of this one. -/
theorem wp.of_forall {A : ε → Prop} {x : Prog σ ε α} {Q : Post σ α} {s : σ}
    (hr : ∀ a s', Q.ret a s') (he : ∀ s', Q.exit s') (hp : ∀ m, Q.panic m) : wp A x Q s :=
  .of_run (fun a s' _ _ => hr a s') (fun s' _ _ => he s') fun m _ _ => hp m

/-- The run ends with the panic `m`. -/
def Out.panics (m : String) : Out σ ε α → Bool
  | .panic m' _ => m' == m
  | _ => false

theorem Out.of_panics {m : String} {x : Out σ ε α} (h : x.panics m = true) : ∃ w, x = .panic m w := by
  cases x with
  | panic m' w => exact ⟨w, by rw [eq_of_beq h]⟩
  | ret a s w => cases h
  | exit s w => cases h

/-- The run returns `a`. -/
def Out.returns [DecidableEq α] (a : α) : Out σ ε α → Bool
  | .ret a' _ _ => a' == a
  | _ => false

theorem Out.of_returns [DecidableEq α] {a : α} {x : Out σ ε α} (h : x.returns a = true) :
    ∃ s w, x = .ret a s w := by
  cases x with
  | ret a' s w => exact ⟨s, w, by rw [eq_of_beq h]⟩
  | exit s w => cases h
  | panic m w => cases h

/-- A run that returns, and passes the test `f`. -/
def Out.passes (f : α → σ → List ε → Bool) : Out σ ε α → Bool
  | .ret a s w => f a s w
  | _ => false

theorem Out.of_passes {f : α → σ → List ε → Bool} {x : Out σ ε α} (h : x.passes f = true) :
    ∃ a s w, x = .ret a s w ∧ f a s w = true := by
  cases x with
  | ret a s w => exact ⟨a, s, w, rfl, h⟩
  | exit s w => cases h
  | panic m w => cases h

/-- A run that neither exits nor panics returns. -/
theorem wp.exists_ret {x : Prog σ ε α} {Q : α → σ → Prop} {s : σ}
    (h : wp (fun _ => True) x ⟨Q, fun _ => False, fun _ => False⟩ s) :
    ∃ a s' w, x s = .ret a s' w ∧ Q a s' := by
  unfold wp at h
  cases hx : x s with
  | ret a s' w => rw [hx] at h; exact ⟨a, s', w, rfl, h fun _ _ => trivial⟩
  | exit s' w => rw [hx] at h; exact (h fun _ _ => trivial).elim
  | panic m w => rw [hx] at h; exact (h fun _ _ => trivial).elim

/-- Two specifications of one call hold together. -/
theorem wp.and {A : ε → Prop} {x : Prog σ ε α} {Q Q' : Post σ α} {s : σ}
    (h : wp A x Q s) (h' : wp A x Q' s) :
    wp A x ⟨fun a s => Q.ret a s ∧ Q'.ret a s, fun s => Q.exit s ∧ Q'.exit s,
      fun m => Q.panic m ∧ Q'.panic m⟩ s := by
  unfold wp at *
  cases hx : x s with
  | ret a s w => rw [hx] at h h'; exact fun hw => ⟨h hw, h' hw⟩
  | exit s w => rw [hx] at h h'; exact fun hw => ⟨h hw, h' hw⟩
  | panic m w => rw [hx] at h h'; exact fun hw => ⟨h hw, h' hw⟩

/-- What a specification says of a run that returned. -/
theorem wp.of_ret {A : ε → Prop} {x : Prog σ ε α} {Q : Post σ α} {s s' : σ} {a : α}
    {w : List ε} (h : wp A x Q s) (hx : x s = .ret a s' w) (hw : ∀ e ∈ w, A e) :
    Q.ret a s' := by
  unfold wp at h
  rw [hx] at h
  exact h hw

/-- What a specification says of a run in which the process exited. -/
theorem wp.of_exit {A : ε → Prop} {x : Prog σ ε α} {Q : Post σ α} {s s' : σ}
    {w : List ε} (h : wp A x Q s) (hx : x s = .exit s' w) (hw : ∀ e ∈ w, A e) :
    Q.exit s' := by
  unfold wp at h
  rw [hx] at h
  exact h hw

/-! ### The rules -/

variable {A : ε → Prop} {Q : Post σ α} {s : σ}

@[simp] theorem wp_pure {a : α} : wp A (pure a : Prog σ ε α) Q s ↔ Q.ret a s := by
  simp [wp, Out.Sat, pure, Prog.pure]

@[simp] theorem wp_bind {R : Post σ β} {x : Prog σ ε α} {f : α → Prog σ ε β} :
    wp A (x >>= f) R s ↔ wp A x ⟨fun a s' => wp A (f a) R s', R.exit, R.panic⟩ s := by
  unfold wp
  simp only [bind, Prog.bind]
  cases x s with
  | ret a s' w => exact Out.sat_after
  | exit s' w => exact Iff.rfl
  | panic m w => exact Iff.rfl

/-- A callee and what comes after it. -/
theorem wp.bind {R : Post σ β} {x : Prog σ ε α} {f : α → Prog σ ε β} {Q : α → σ → Prop}
    (h : wp A x ⟨Q, R.exit, R.panic⟩ s) (hf : ∀ a s', Q a s' → wp A (f a) R s') :
    wp A (x >>= f) R s :=
  wp_bind.mpr (h.mono hf (fun _ h => h) fun _ h => h)

@[simp] theorem wp_get {R : Post σ σ} : wp A (Prog.get : Prog σ ε σ) R s ↔ R.ret s s := by
  simp [wp, Out.Sat, Prog.get]

@[simp] theorem wp_modify {R : Post σ Unit} {f : σ → σ} :
    wp A (Prog.modify f : Prog σ ε Unit) R s ↔ R.ret () (f s) := by
  simp [wp, Out.Sat, Prog.modify]

theorem wp.ret {Q : α → σ → Prop} {E : σ → Prop} {P : String → Prop} {a : α} (h : Q a s) :
    wp A (pure a : Prog σ ε α) ⟨Q, E, P⟩ s := wp_pure.mpr h

theorem wp_get_bind {R : Post σ β} {f : σ → Prog σ ε β} :
    wp A (Prog.get >>= f) R s ↔ wp A (f s) R s := wp_bind.trans wp_get

theorem wp_modify_bind {R : Post σ β} {g : σ → σ} {f : Unit → Prog σ ε β} :
    wp A (Prog.modify g >>= f) R s ↔ wp A (f ()) R (g s) := wp_bind.trans wp_modify

@[simp] theorem wp_panic {m : String} :
    wp A (Prog.panic m : Prog σ ε α) Q s ↔ Q.panic m := by
  simp [wp, Out.Sat, Prog.panic]

@[simp] theorem wp_exit {f : σ → σ} :
    wp A (Prog.exit f : Prog σ ε α) Q s ↔ Q.exit (f s) := by
  simp [wp, Out.Sat, Prog.exit]

@[simp] theorem wp_tell {R : Post σ Unit} {e : ε} :
    wp A (Prog.tell e : Prog σ ε Unit) R s ↔ (A e → R.ret () s) := by
  simp [wp, Out.Sat, Prog.tell]

@[simp] theorem wp_zoom {g : σ → τ} {p : τ → σ → σ} {x : Prog τ ε α} :
    wp A (Prog.zoom g p x) Q s ↔
      wp A x ⟨fun a t => Q.ret a (p t s), fun t => Q.exit (p t s), Q.panic⟩ (g s) := by
  unfold wp Prog.zoom
  cases x (g s) <;> exact Iff.rfl

theorem wp_ite {c : Prop} [Decidable c] {x y : Prog σ ε α} :
    wp A (if c then x else y) Q s ↔ (c → wp A x Q s) ∧ (¬ c → wp A y Q s) := by
  by_cases h : c <;> simp [h]

/-- **The loop rule** for `upTo`: an invariant that each round carries
from `i` to `i + 1`. -/
theorem wp_upTo {body : Nat → Prog σ ε Unit} (I : Nat → σ → Prop) {E : σ → Prop}
    {P : String → Prop} {n : Nat} (h0 : I 0 s)
    (hstep : ∀ i s, i < n → I i s → wp A (body i) ⟨fun _ s' => I (i + 1) s', E, P⟩ s) :
    wp A (Prog.upTo body n) ⟨fun _ s' => I n s', E, P⟩ s := by
  induction n with
  | zero => exact wp_pure.mpr h0
  | succ n ih =>
      simp only [Prog.upTo, wp_bind]
      refine (ih fun i s hi => hstep i s (by omega)).mono (fun _ s' hs' => ?_)
        (fun _ h => h) (fun _ h => h)
      exact hstep n s' (by omega) hs'

-- from here on a program is run by the rules only, never by unfolding
attribute [irreducible] wp

end OsSuite
