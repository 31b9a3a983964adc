import OsSuite.Lib.Trace

/-!
# Sure — what a run guarantees of its observations

`wp A` takes the observations of a run as assumptions. `sure G` is the
other direction: the run ends in `R`, and EVERYTHING observed on the way
satisfies `G`, also before an exit or a panic. The rules are equivalences
again.
-/

namespace OsSuite

variable {σ τ ε α β : Type}

/-- An ending that meets `R`, with observations in `G`. -/
def Out.Sure (G : ε → Prop) (R : Post σ α) : Out σ ε α → Prop
  | .ret a s w => R.ret a s ∧ ∀ e ∈ w, G e
  | .exit s w => R.exit s ∧ ∀ e ∈ w, G e
  | .panic m w => R.panic m ∧ ∀ e ∈ w, G e

/-- The run of `x` from `s` ends in `R`, and all its observations are in
`G`. -/
def sure (G : ε → Prop) (x : Prog σ ε α) (R : Post σ α) (s : σ) : Prop := (x s).Sure G R

variable {G : ε → Prop} {R R' : Post σ α} {s : σ}

theorem sure.mono {x : Prog σ ε α} (h : sure G x R s) (hr : ∀ a s', R.ret a s' → R'.ret a s')
    (he : ∀ s', R.exit s' → R'.exit s') (hp : ∀ m, R.panic m → R'.panic m) : sure G x R' s := by
  unfold sure at *
  cases hx : x s with
  | ret a s' w => rw [hx] at h; exact ⟨hr a s' h.1, h.2⟩
  | exit s' w => rw [hx] at h; exact ⟨he s' h.1, h.2⟩
  | panic m w => rw [hx] at h; exact ⟨hp m h.1, h.2⟩

/-- A weaker guarantee. -/
theorem sure.weaken {G' : ε → Prop} {x : Prog σ ε α} (h : sure G x R s) (hG : ∀ e, G e → G' e) :
    sure G' x R s := by
  unfold sure at *
  cases hx : x s with
  | ret a s' w => rw [hx] at h; exact ⟨h.1, fun e he => hG e (h.2 e he)⟩
  | exit s' w => rw [hx] at h; exact ⟨h.1, fun e he => hG e (h.2 e he)⟩
  | panic m w => rw [hx] at h; exact ⟨h.1, fun e he => hG e (h.2 e he)⟩

/-- What is guaranteed of a run that returned. -/
theorem sure.of_ret {x : Prog σ ε α} {a : α} {s' : σ} {w : List ε} (h : sure G x R s)
    (hx : x s = .ret a s' w) : R.ret a s' ∧ ∀ e ∈ w, G e := by
  unfold sure at h
  rw [hx] at h
  exact h

/-- A run that is known. -/
theorem sure_of_ret {x : Prog σ ε α} {a : α} {s' : σ} {w : List ε} (hx : x s = .ret a s' w) :
    sure G x R s ↔ R.ret a s' ∧ ∀ e ∈ w, G e := by
  unfold sure
  rw [hx]
  rfl

theorem sure_of_panic {x : Prog σ ε α} {m : String} {w : List ε} (hx : x s = .panic m w) :
    sure G x R s ↔ R.panic m ∧ ∀ e ∈ w, G e := by
  unfold sure
  rw [hx]
  rfl

theorem sure_congr {x y : Prog σ ε α} (h : x s = y s) : sure G x R s ↔ sure G y R s := by
  unfold sure
  rw [h]

/-- What is guaranteed of everything observed. -/
theorem sure.events {x : Prog σ ε α} (h : sure G x R s) : ∀ e ∈ (x s).events, G e := by
  unfold sure at h
  cases hx : x s <;> rw [hx] at h <;> exact h.2

/-- What is guaranteed of a run in which the process exited. -/
theorem sure.of_exit {x : Prog σ ε α} {s' : σ} {w : List ε} (h : sure G x R s)
    (hx : x s = .exit s' w) : R.exit s' := by
  unfold sure at h
  rw [hx] at h
  exact h.1

/-- A run that neither exits nor panics returns. -/
theorem sure.exists_ret {x : Prog σ ε α} {Q : α → σ → Prop}
    (h : sure G x ⟨Q, fun _ => False, fun _ => False⟩ s) : ∃ a s' w, x s = .ret a s' w ∧ Q a s' := by
  unfold sure at h
  cases hx : x s with
  | ret a s' w => rw [hx] at h; exact ⟨a, s', w, rfl, h.1⟩
  | exit s' w => rw [hx] at h; exact h.1.elim
  | panic m w => rw [hx] at h; exact h.1.elim

/-- What is known of the run itself is known of its end. -/
theorem sure.with_run {x : Prog σ ε α} {Q : α → σ → Prop} {E : σ → Prop} {P : String → Prop}
    (h : sure G x ⟨Q, E, P⟩ s) : sure G x ⟨fun a s' => Q a s' ∧ ∃ w, x s = .ret a s' w, E, P⟩ s := by
  unfold sure at *
  cases hx : x s with
  | ret a s' w => rw [hx] at h; exact ⟨⟨h.1, w, rfl⟩, h.2⟩
  | exit s' w => rw [hx] at h; exact h
  | panic m w => rw [hx] at h; exact h

theorem Out.sure_after {w : List ε} {o : Out σ ε α} :
    (o.after w).Sure G R ↔ (∀ e ∈ w, G e) ∧ o.Sure G R := by
  cases o <;> simp only [Out.after, Out.Sure, List.forall_mem_append] <;> exact and_left_comm

/-! ## The rules -/

@[simp] theorem sure_pure {a : α} : sure G (pure a : Prog σ ε α) R s ↔ R.ret a s := by
  simp [sure, Out.Sure, pure, Prog.pure]

@[simp] theorem sure_bind {R : Post σ β} {x : Prog σ ε α} {f : α → Prog σ ε β} :
    sure G (x >>= f) R s ↔ sure G x ⟨fun a s' => sure G (f a) R s', R.exit, R.panic⟩ s := by
  unfold sure
  simp only [bind, Prog.bind]
  cases x s with
  | ret a s' w => exact Out.sure_after.trans and_comm
  | exit s' w => exact Iff.rfl
  | panic m w => exact Iff.rfl

/-- A callee and what comes after it. -/
theorem sure.bind {R : Post σ β} {x : Prog σ ε α} {f : α → Prog σ ε β} {Q : α → σ → Prop}
    (h : sure G x ⟨Q, R.exit, R.panic⟩ s) (hf : ∀ a s', Q a s' → sure G (f a) R s') :
    sure G (x >>= f) R s :=
  sure_bind.mpr (h.mono hf (fun _ h => h) fun _ h => h)

/-- A callee that always returns. -/
theorem sure.andThen {R : Post σ β} {x : Prog σ ε α} {f : α → Prog σ ε β} {Q : α → σ → Prop}
    (h : sure G x ⟨Q, fun _ => False, fun _ => False⟩ s)
    (hf : ∀ a s', Q a s' → sure G (f a) R s') : sure G (x >>= f) R s :=
  sure_bind.mpr (h.mono hf (fun _ h => h.elim) fun _ h => h.elim)

/-- What comes after a callee that returned. -/
theorem sure.after {R : Post σ β} {x : Prog σ ε α} {f : α → Prog σ ε β} {a : α} {s' : σ}
    {w : List ε} (h : sure G (x >>= f) R s) (hx : x s = .ret a s' w) : sure G (f a) R s' :=
  ((sure_bind.mp h).of_ret hx).1

@[simp] theorem sure_get {R : Post σ σ} : sure G (Prog.get : Prog σ ε σ) R s ↔ R.ret s s := by
  simp [sure, Out.Sure, Prog.get]

@[simp] theorem sure_modify {R : Post σ Unit} {f : σ → σ} :
    sure G (Prog.modify f : Prog σ ε Unit) R s ↔ R.ret () (f s) := by
  simp [sure, Out.Sure, Prog.modify]

theorem sure_get_bind {R : Post σ β} {f : σ → Prog σ ε β} :
    sure G (Prog.get >>= f) R s ↔ sure G (f s) R s := sure_bind.trans sure_get

theorem sure_modify_bind {R : Post σ β} {g : σ → σ} {f : Unit → Prog σ ε β} :
    sure G (Prog.modify g >>= f) R s ↔ sure G (f ()) R (g s) := sure_bind.trans sure_modify

@[simp] theorem sure_panic {m : String} :
    sure G (Prog.panic m : Prog σ ε α) R s ↔ R.panic m := by
  simp [sure, Out.Sure, Prog.panic]

@[simp] theorem sure_exit {f : σ → σ} :
    sure G (Prog.exit f : Prog σ ε α) R s ↔ R.exit (f s) := by
  simp [sure, Out.Sure, Prog.exit]

@[simp] theorem sure_tell {R : Post σ Unit} {e : ε} :
    sure G (Prog.tell e : Prog σ ε Unit) R s ↔ R.ret () s ∧ G e := by
  simp [sure, Out.Sure, Prog.tell]

@[simp] theorem sure_zoom {g : σ → τ} {p : τ → σ → σ} {x : Prog τ ε α} :
    sure G (Prog.zoom g p x) R s ↔
      sure G x ⟨fun a t => R.ret a (p t s), fun t => R.exit (p t s), R.panic⟩ (g s) := by
  unfold sure Prog.zoom
  cases x (g s) <;> exact Iff.rfl

/-- **The loop rule** for `upTo`: an invariant that each round carries
from `i` to `i + 1`. -/
theorem sure_upTo {body : Nat → Prog σ ε Unit} (I : Nat → σ → Prop) {E : σ → Prop}
    {P : String → Prop} {n : Nat} (h0 : I 0 s)
    (hstep : ∀ i s, i < n → I i s → sure G (body i) ⟨fun _ s' => I (i + 1) s', E, P⟩ s) :
    sure G (Prog.upTo body n) ⟨fun _ s' => I n s', E, P⟩ s := by
  induction n with
  | zero => exact sure_pure.mpr h0
  | succ n ih =>
      simp only [Prog.upTo, sure_bind]
      refine (ih fun i s hi => hstep i s (by omega)).mono (fun _ s' hs' => ?_)
        (fun _ h => h) (fun _ h => h)
      exact hstep n s' (by omega) hs'

-- from here on a program is run by the rules only, never by unfolding
attribute [irreducible] sure

end OsSuite
