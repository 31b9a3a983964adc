import OsSuite.Lib.Prog

/-!
# Trace — what a run relates

`wp` forgets the observations of a run once they have served as
assumptions. Here they stay: `ends x Q E P s` speaks of the observations
of the run of `x` from `s` together with the state it ends in.

`Respects R x` says that every run of `x` relates its start, its
observations and its end by `R`. If `R` composes, so do programs:
`Respects.bind` and the lemmas beside it reduce a whole program to the
few places where `R` has something to say.
-/

namespace OsSuite

variable {σ τ ε α β : Type}

/-- The observations of a run, however it ended. -/
def Out.events : Out σ ε α → List ε
  | .ret _ _ w => w
  | .exit _ w => w
  | .panic _ w => w

@[simp] theorem Out.events_after {w : List ε} {o : Out σ ε α} :
    (o.after w).events = w ++ o.events := by
  cases o <;> rfl

def Out.Ends (Q : α → σ → List ε → Prop) (E : σ → List ε → Prop)
    (P : String → List ε → Prop) : Out σ ε α → Prop
  | .ret a s w => Q a s w
  | .exit s w => E s w
  | .panic m w => P m w

/-- The run of `x` from `s` returns in `Q`, exits in `E` or panics with
a message and observations `P`. -/
def ends (x : Prog σ ε α) (Q : α → σ → List ε → Prop) (E : σ → List ε → Prop)
    (P : String → List ε → Prop) (s : σ) : Prop :=
  (x s).Ends Q E P

section
variable {Q Q' : α → σ → List ε → Prop} {E E' : σ → List ε → Prop} {P P' : String → List ε → Prop}
  {s : σ}

theorem ends.mono {x : Prog σ ε α} (h : ends x Q E P s) (hQ : ∀ a s w, Q a s w → Q' a s w)
    (hE : ∀ s w, E s w → E' s w) (hP : ∀ m w, P m w → P' m w) : ends x Q' E' P' s := by
  unfold ends at *
  cases hx : x s with
  | ret a s' w => rw [hx] at h; exact hQ _ _ _ h
  | exit s' w => rw [hx] at h; exact hE _ _ h
  | panic m w => rw [hx] at h; exact hP _ _ h

theorem Out.ends_after {w : List ε} {o : Out σ ε α} :
    (o.after w).Ends Q E P ↔ o.Ends (fun a s w' => Q a s (w ++ w')) (fun s w' => E s (w ++ w'))
      fun m w' => P m (w ++ w') := by
  cases o <;> exact Iff.rfl

@[simp] theorem ends_pure {a : α} : ends (pure a : Prog σ ε α) Q E P s ↔ Q a s [] := Iff.rfl

@[simp] theorem ends_bind {x : Prog σ ε α} {f : α → Prog σ ε β} {Q : β → σ → List ε → Prop} :
    ends (x >>= f) Q E P s ↔
      ends x (fun a s' w => ends (f a) (fun b s'' w' => Q b s'' (w ++ w'))
        (fun s'' w' => E s'' (w ++ w')) (fun m w' => P m (w ++ w')) s') E P s := by
  unfold ends
  simp only [bind, Prog.bind]
  cases x s with
  | ret a s' w => exact Out.ends_after
  | exit s' w => exact Iff.rfl
  | panic m w => exact Iff.rfl

@[simp] theorem ends_get {Q : σ → σ → List ε → Prop} :
    ends (Prog.get : Prog σ ε σ) Q E P s ↔ Q s s [] := Iff.rfl

@[simp] theorem ends_modify {f : σ → σ} {Q : Unit → σ → List ε → Prop} :
    ends (Prog.modify f : Prog σ ε Unit) Q E P s ↔ Q () (f s) [] := Iff.rfl

@[simp] theorem ends_tell {e : ε} {Q : Unit → σ → List ε → Prop} :
    ends (Prog.tell e : Prog σ ε Unit) Q E P s ↔ Q () s [e] := Iff.rfl

@[simp] theorem ends_panic {m : String} : ends (Prog.panic m : Prog σ ε α) Q E P s ↔ P m [] :=
  Iff.rfl

@[simp] theorem ends_exit {f : σ → σ} : ends (Prog.exit f : Prog σ ε α) Q E P s ↔ E (f s) [] :=
  Iff.rfl

@[simp] theorem ends_zoom {g : σ → τ} {p : τ → σ → σ} {x : Prog τ ε α} :
    ends (Prog.zoom g p x) Q E P s ↔
      ends x (fun a t w => Q a (p t s) w) (fun t w => E (p t s) w) P (g s) := by
  unfold ends Prog.zoom
  cases x (g s) <;> exact Iff.rfl

/-- Two facts about one run. -/
theorem ends.and {x : Prog σ ε α} (h : ends x Q E P s) (h' : ends x Q' E' P' s) :
    ends x (fun a s w => Q a s w ∧ Q' a s w) (fun s w => E s w ∧ E' s w)
      (fun m w => P m w ∧ P' m w) s := by
  unfold ends at *
  cases hx : x s with
  | ret a s' w => rw [hx] at h h'; exact ⟨h, h'⟩
  | exit s' w => rw [hx] at h h'; exact ⟨h, h'⟩
  | panic m w => rw [hx] at h h'; exact ⟨h, h'⟩

theorem ends_of_forall {x : Prog σ ε α} (hQ : ∀ a s w, Q a s w) (hE : ∀ s w, E s w)
    (hP : ∀ m w, P m w) : ends x Q E P s := by
  unfold ends
  cases x s with
  | ret a s' w => exact hQ _ _ _
  | exit s' w => exact hE _ _
  | panic m w => exact hP _ _

/-- A specification, with the observations it assumes something of. -/
theorem wp.ends {A : ε → Prop} {x : Prog σ ε α} {R : Post σ α} (h : wp A x R s) :
    ends x (fun a s' w => (∀ e ∈ w, A e) → R.ret a s') (fun s' w => (∀ e ∈ w, A e) → R.exit s')
      (fun m w => (∀ e ∈ w, A e) → R.panic m) s := by
  unfold wp at h
  unfold OsSuite.ends
  cases hx : x s <;> rw [hx] at h <;> exact h

theorem ends_of_eq {x : Prog σ ε α} {a : α} {s' : σ} {w : List ε} (hx : x s = .ret a s' w) :
    ends x Q E P s ↔ Q a s' w := by
  unfold ends
  rw [hx]
  rfl

theorem ends_congr {x y : Prog σ ε α} {t : σ} (h : x s = y t) :
    ends x Q E P s ↔ ends y Q E P t := by
  unfold ends
  rw [h]

/-- What is known of a run, with the run itself. -/
theorem ends.run {x : Prog σ ε α} (h : ends x Q E P s) :
    ends x (fun a s' w => Q a s' w ∧ x s = .ret a s' w) E P s := by
  unfold ends at *
  cases hx : x s with
  | ret a s' w => rw [hx] at h; exact ⟨h, rfl⟩
  | exit s' w => rw [hx] at h; exact h
  | panic m w => rw [hx] at h; exact h

/-- What is known of a run that returned. -/
theorem ends.of_ret {x : Prog σ ε α} {a : α} {s' : σ} {w : List ε} (h : ends x Q E P s)
    (hx : x s = .ret a s' w) : Q a s' w := by
  unfold ends at h
  rw [hx] at h
  exact h

/-- What is known of a run in which the process exited. -/
theorem ends.of_exit {x : Prog σ ε α} {s' : σ} {w : List ε} (h : ends x Q E P s)
    (hx : x s = .exit s' w) : E s' w := by
  unfold ends at h
  rw [hx] at h
  exact h

/-- **The run succeeds exactly when `C`**: it then returns a result that
is `ok`, and otherwise another one or none. -/
def decides (x : Prog σ ε α) (ok : α → Prop) (C : Prop) (R : α → σ → Prop) (s : σ) : Prop :=
  ends x (fun a s' _ => (ok a ∧ C ∧ R a s') ∨ (¬ ok a ∧ ¬ C)) (fun _ _ => ¬ C) (fun _ _ => ¬ C) s

theorem decides.run {x : Prog σ ε α} {ok : α → Prop} {C : Prop} {R : α → σ → Prop}
    (h : decides x ok C R s) (hC : C) : ∃ a s' w, x s = .ret a s' w ∧ ok a ∧ R a s' := by
  unfold decides ends at h
  cases hx : x s with
  | ret a s' w =>
      rw [hx] at h
      rcases h with ⟨hok, -, hR⟩ | ⟨-, hno⟩
      · exact ⟨a, s', w, rfl, hok, hR⟩
      · exact absurd hC hno
  | exit s' w =>
      rw [hx] at h
      exact absurd hC h
  | panic m w =>
      rw [hx] at h
      exact absurd hC h

theorem decides.of_ret {x : Prog σ ε α} {ok : α → Prop} {C : Prop} {R : α → σ → Prop} {a : α}
    {s' : σ} {w : List ε} (h : decides x ok C R s) (hx : x s = .ret a s' w) (hok : ok a) :
    C ∧ R a s' := by
  rcases ends.of_ret h hx with ⟨-, hC, hR⟩ | ⟨hno, -⟩
  · exact ⟨hC, hR⟩
  · exact absurd hok hno

/-- A run that does not succeed, where it should not. -/
theorem decides.never {x : Prog σ ε α} {ok : α → Prop} {C : Prop} {R : α → σ → Prop} (hC : ¬ C)
    (h : ends x (fun a _ _ => ¬ ok a) (fun _ _ => True) (fun _ _ => True) s) :
    decides x ok C R s :=
  h.mono (fun _ _ _ hno => .inr ⟨hno, hC⟩) (fun _ _ _ => hC) fun _ _ _ => hC

theorem decides.mono {x : Prog σ ε α} {ok : α → Prop} {C C' : Prop} {R R' : α → σ → Prop}
    (h : decides x ok C R s) (hC : C ↔ C') (hR : ∀ a s', ok a → C → R a s' → R' a s') :
    decides x ok C' R' s := by
  refine ends.mono h (fun a s' w hr => ?_) (fun _ _ hn hc => hn (hC.mpr hc))
    fun _ _ hn hc => hn (hC.mpr hc)
  rcases hr with ⟨hok, hc, hr⟩ | ⟨hok, hn⟩
  · exact .inl ⟨hok, hC.mp hc, hR a s' hok hc hr⟩
  · exact .inr ⟨hok, fun hc => hn (hC.mpr hc)⟩

/-- **One run after another**: the second decides, if the first succeeds
whenever it is needed. -/
theorem decides.bind {x : Prog σ ε α} {f : α → Prog σ ε β} {ok : α → Prop} {C : Prop}
    {R : α → σ → Prop} {ok' : β → Prop} {C' : Prop} {R' : β → σ → Prop} (hx : decides x ok C R s)
    (hC : C' → C)
    (hf : ∀ a s' w, x s = .ret a s' w → ok a → C → R a s' → decides (f a) ok' C' R' s')
    (hno : ∀ a s', ¬ ok a →
      ends (f a) (fun b _ _ => ¬ ok' b) (fun _ _ => True) (fun _ _ => True) s') :
    decides (x >>= f) ok' C' R' s := by
  unfold decides at hx ⊢
  rw [ends_bind]
  refine ends.mono (hx.run) ?_ (fun _ _ hn hc => hn (hC hc)) fun _ _ hn hc => hn (hC hc)
  rintro a s' w ⟨⟨hok, hc, hr⟩ | ⟨hok, hn⟩, hrun⟩
  · exact hf a s' w hrun hok hc hr
  · exact decides.never (fun hc => hn (hC hc)) (hno a s' hok)

/-- What is known of the observations alone. -/
theorem ends.events {x : Prog σ ε α} {G : List ε → Prop} (h : ends x Q E P s)
    (hQ : ∀ a s w, Q a s w → G w) (hE : ∀ s w, E s w → G w) (hP : ∀ m w, P m w → G w) :
    G (x s).events := by
  unfold ends at h
  cases hx : x s with
  | ret a s' w => rw [hx] at h; exact hQ _ _ _ h
  | exit s' w => rw [hx] at h; exact hE _ _ h
  | panic m w => rw [hx] at h; exact hP _ _ h

end

/-! ## Relations that compose -/

/-- What is asked of a run: a relation between its start, its
observations and its end when it returns or exits, and between its start
the message and its observations when it panics. -/
structure Link (σ ε : Type) where
  ret : σ → List ε → σ → Prop
  exit : σ → List ε → σ → Prop
  panic : σ → String → List ε → Prop

/-- A run that returned and what comes after it make one run. -/
structure Composes (R : Link σ ε) : Prop where
  refl : ∀ s, R.ret s [] s
  trans : ∀ {s s' s'' w w'}, R.ret s w s' → R.ret s' w' s'' → R.ret s (w ++ w') s''
  exit : ∀ {s s' s'' w w'}, R.ret s w s' → R.exit s' w' s'' → R.exit s (w ++ w') s''
  panic : ∀ {s s' m w w'}, R.ret s w s' → R.panic s' m w' → R.panic s m (w ++ w')

/-- Both links at once. -/
def Link.and (R R' : Link σ ε) : Link σ ε where
  ret s w s' := R.ret s w s' ∧ R'.ret s w s'
  exit s w s' := R.exit s w s' ∧ R'.exit s w s'
  panic s m w := R.panic s m w ∧ R'.panic s m w

theorem Composes.and {R R' : Link σ ε} (h : Composes R) (h' : Composes R') :
    Composes (R.and R') where
  refl s := ⟨h.refl s, h'.refl s⟩
  trans h₁ h₂ := ⟨h.trans h₁.1 h₂.1, h'.trans h₁.2 h₂.2⟩
  exit h₁ h₂ := ⟨h.exit h₁.1 h₂.1, h'.exit h₁.2 h₂.2⟩
  panic h₁ h₂ := ⟨h.panic h₁.1 h₂.1, h'.panic h₁.2 h₂.2⟩

/-- Every run of `x` meets `R`. -/
def Respects (R : Link σ ε) (x : Prog σ ε α) : Prop :=
  ∀ s, ends x (fun _ s' w => R.ret s w s') (fun s' w => R.exit s w s') (fun m w => R.panic s m w) s

section
variable {R : Link σ ε}

theorem Respects.pure (hR : Composes R) (a : α) : Respects R (pure a : Prog σ ε α) :=
  fun s => hR.refl s

/-- What was run before comes first. -/
theorem Composes.ends_after (hR : Composes R) {s s' : σ} {w : List ε} (h : R.ret s w s')
    {x : Prog σ ε α}
    (hx : ends x (fun _ t w' => R.ret s' w' t) (fun t w' => R.exit s' w' t)
      (fun m w' => R.panic s' m w') s') :
    ends x (fun _ t w' => R.ret s (w ++ w') t) (fun t w' => R.exit s (w ++ w') t)
      (fun m w' => R.panic s m (w ++ w')) s' :=
  hx.mono (fun _ _ _ h' => hR.trans h h') (fun _ _ h' => hR.exit h h')
    fun _ _ h' => hR.panic h h'

theorem Respects.bind (hR : Composes R) {x : Prog σ ε α} {f : α → Prog σ ε β}
    (hx : Respects R x) (hf : ∀ a, Respects R (f a)) : Respects R (x >>= f) := by
  intro s
  rw [ends_bind]
  exact (hx s).mono (fun a s' w h => hR.ends_after h (hf a s')) (fun _ _ h => h) fun _ _ h => h

theorem Respects.get (hR : Composes R) : Respects R (Prog.get : Prog σ ε σ) :=
  fun s => hR.refl s

theorem Respects.panic {m : String} (h : ∀ s, R.panic s m []) :
    Respects R (Prog.panic m : Prog σ ε α) := h

theorem Respects.exit {f : σ → σ} (h : ∀ s, R.exit s [] (f s)) :
    Respects R (Prog.exit f : Prog σ ε α) := h

theorem Respects.modify {f : σ → σ} (h : ∀ s, R.ret s [] (f s)) :
    Respects R (Prog.modify f : Prog σ ε Unit) := h

theorem Respects.tell {e : ε} (h : ∀ s, R.ret s [e] s) :
    Respects R (Prog.tell e : Prog σ ε Unit) := h

theorem Respects.ite {c : Prop} [Decidable c] {x y : Prog σ ε α} (hx : Respects R x)
    (hy : Respects R y) : Respects R (if c then x else y) := by
  split
  · exact hx
  · exact hy

theorem Respects.upTo (hR : Composes R) {body : Nat → Prog σ ε Unit}
    (h : ∀ i, Respects R (body i)) (n : Nat) : Respects R (Prog.upTo body n) := by
  induction n with
  | zero => exact .pure hR _
  | succ n ih => exact .bind hR ih fun _ => h n

end

/-! ## Invariants -/

/-- As long as all observations satisfy `A`: code that is entered in `I`
returns in `I` or exits in `J`, and what is observed of it satisfies `G`. -/
def keeps (A G : ε → Prop) (I J : σ → Prop) : Link σ ε where
  ret s w s' := (∀ e ∈ w, A e) → I s → I s' ∧ ∀ e ∈ w, G e
  exit s w s' := (∀ e ∈ w, A e) → I s → J s' ∧ ∀ e ∈ w, G e
  panic s _ w := (∀ e ∈ w, A e) → I s → ∀ e ∈ w, G e

theorem keeps_composes (A G : ε → Prop) (I J : σ → Prop) : Composes (keeps A G I J) where
  refl _ _ h := ⟨h, fun _ he => nomatch he⟩
  trans h h' hA hI := by
    obtain ⟨hI', hG⟩ := h (fun e he => hA e (List.mem_append_left _ he)) hI
    obtain ⟨hI'', hG'⟩ := h' (fun e he => hA e (List.mem_append_right _ he)) hI'
    exact ⟨hI'', fun e he => (List.mem_append.mp he).elim (hG e) (hG' e)⟩
  exit h h' hA hI := by
    obtain ⟨hI', hG⟩ := h (fun e he => hA e (List.mem_append_left _ he)) hI
    obtain ⟨hJ, hG'⟩ := h' (fun e he => hA e (List.mem_append_right _ he)) hI'
    exact ⟨hJ, fun e he => (List.mem_append.mp he).elim (hG e) (hG' e)⟩
  panic h h' hA hI := by
    obtain ⟨hI', hG⟩ := h (fun e he => hA e (List.mem_append_left _ he)) hI
    have hG' := h' (fun e he => hA e (List.mem_append_right _ he)) hI'
    exact fun e he => (List.mem_append.mp he).elim (hG e) (hG' e)

/-! ## The first observation -/

/-- If anything is observed, the first observation satisfies `P`. -/
def heads (P : ε → Prop) : Link σ ε where
  ret _ w _ := ∀ e ∈ w.head?, P e
  exit _ w _ := ∀ e ∈ w.head?, P e
  panic _ _ w := ∀ e ∈ w.head?, P e

theorem head_append {P : ε → Prop} {w w' : List ε} (h : ∀ e ∈ w.head?, P e)
    (h' : ∀ e ∈ w'.head?, P e) : ∀ e ∈ (w ++ w').head?, P e := by
  cases w with
  | nil => exact h'
  | cons e w => exact h

theorem heads_composes (P : ε → Prop) : Composes (heads P : Link σ ε) where
  refl _ := nofun
  trans := head_append
  exit := head_append
  panic := head_append

/-- Code that starts with an observation. -/
theorem heads_tell_bind {P : ε → Prop} {e : ε} (he : P e) {f : Unit → Prog σ ε α} :
    Respects (heads P) (Prog.tell e >>= f) := fun s => by
  have hhead : ∀ w : List ε, ∀ e' ∈ ([e] ++ w).head?, P e' := fun w e' he' => by
    cases he'
    exact he
  rw [ends_bind, ends_tell]
  exact ends_of_forall (fun _ _ w => hhead w) (fun _ w => hhead w) fun _ w => hhead w

theorem Respects.head {P : ε → Prop} {x : Prog σ ε α} (h : Respects (heads P) x) {s : σ} :
    ∀ e ∈ (x s).events.head?, P e :=
  (h s).events (fun _ _ _ h => h) (fun _ _ h => h) fun _ _ h => h

/-- Nothing is observed of the run. -/
def silent (x : Prog σ ε α) (s : σ) : Prop := (x s).events = []

theorem silent.of_eq {x y : Prog σ ε α} {s t : σ} (h : silent x s) (hrun : x s = y t) :
    silent y t := by
  unfold silent at *
  rwa [hrun] at h

/-- What is observed of a callee comes first. -/
theorem events_bind {x : Prog σ ε α} {f : α → Prog σ ε β} {s : σ} :
    ∃ w, ((x >>= f) s).events = (x s).events ++ w := by
  cases hx : x s with
  | ret a s' w =>
      rw [Prog.bind_ret hx, Out.events_after]
      exact ⟨_, rfl⟩
  | exit s' w =>
      rw [Prog.bind_exit hx]
      exact ⟨[], (List.append_nil _).symm⟩
  | panic m w =>
      rw [Prog.bind_panic hx]
      exact ⟨[], (List.append_nil _).symm⟩

theorem silent.bind_left {x : Prog σ ε α} {f : α → Prog σ ε β} {s : σ} (h : silent (x >>= f) s) :
    silent x s := by
  obtain ⟨w, hw⟩ := events_bind (x := x) (f := f) (s := s)
  exact (List.append_eq_nil_iff.mp (hw.symm.trans h)).1

/-- After a callee that is known. -/
theorem silent.bind_right {x : Prog σ ε α} {f : α → Prog σ ε β} {s s' : σ} {a : α}
    (h : silent (x >>= f) s) (hx : x s = .ret a s' []) : silent (f a) s' := by
  unfold silent at *
  rwa [Prog.bind_ret hx, Out.after_nil] at h

theorem not_silent_tell_bind {e : ε} {f : Unit → Prog σ ε β} {s : σ} :
    ¬ silent (Prog.tell e >>= f) s := fun h => nomatch h.bind_left

/-- Something is observed before an exit or a panic. -/
def stopsLoud : Link σ ε where
  ret _ _ _ := True
  exit _ w _ := w ≠ []
  panic _ _ w := w ≠ []

theorem stopsLoud_composes : Composes (stopsLoud : Link σ ε) where
  refl _ := trivial
  trans _ _ := trivial
  exit _ h := fun hw => h (List.append_eq_nil_iff.mp hw).2
  panic _ h := fun hw => h (List.append_eq_nil_iff.mp hw).2

/-- A first observation, in `P`. -/
theorem Respects.first {P : ε → Prop} {x : Prog σ ε α} (h : Respects (heads P) x) {s : σ}
    (hs : ¬ silent x s) : ∃ e w, (x s).events = e :: w ∧ P e := by
  cases hw : (x s).events with
  | nil => exact absurd hw hs
  | cons e w => exact ⟨e, w, rfl, h.head e (by rw [hw]; rfl)⟩

theorem stopsLoud_tell_bind {e : ε} {f : Unit → Prog σ ε α} :
    Respects stopsLoud (Prog.tell e >>= f) := fun s => by
  rw [ends_bind, ends_tell]
  exact ends_of_forall (fun _ _ _ => trivial) (fun _ _ => List.cons_ne_nil _ _)
    fun _ _ => List.cons_ne_nil _ _

/-- A loud end is reached, or something was observed before. -/
theorem not_silent_bind {x : Prog σ ε α} {f : α → Prog σ ε β} (hx : Respects stopsLoud x)
    (hf : ∀ a s, ¬ silent (f a) s) (s : σ) : ¬ silent (x >>= f) s := fun h => by
  have hnil : (x s).events = [] := h.bind_left
  have hends := hx s
  unfold ends at hends
  cases hrun : x s with
  | ret a s' w =>
      rw [hrun] at hnil
      cases (hnil : w = [])
      exact hf a s' (h.bind_right hrun)
  | exit s' w => rw [hrun] at hnil hends; exact hends hnil
  | panic m w => rw [hrun] at hnil hends; exact hends hnil

-- from here on a program is run by the rules only, never by unfolding
attribute [irreducible] ends

end OsSuite
