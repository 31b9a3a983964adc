import OsSuite.Lib.Trace

/-!
# Watch — a run under the eyes of a watcher

A watcher reads the observations of a run one by one and keeps a state of
its own; an observation can raise an ALARM in the state the watcher is
then in. `Caught` says that the run of a program raises one. `calm` is a
calculus for runs that do not: a weakest precondition in which the
watcher's state is a ghost variable that only `tell` moves.

With a watcher that never raises an alarm, `calm` just follows its state.
-/

namespace OsSuite

variable {σ ε ε' γ α β : Type}

structure Watcher (γ ε : Type) where
  next : γ → ε → γ
  alarm : γ → ε → Prop

namespace Watcher

/-- The state of the watcher after some observations. -/
def after (W : Watcher γ ε) (g : γ) (w : List ε) : γ := w.foldl W.next g

/-- One of the observations raises the alarm. -/
def Alarms (W : Watcher γ ε) : γ → List ε → Prop
  | _, [] => False
  | g, e :: w => W.alarm g e ∨ W.Alarms (W.next g e) w

/-- Read other observations, after a translation. -/
def comap (W : Watcher γ ε) (f : ε' → ε) : Watcher γ ε' where
  next g e := W.next g (f e)
  alarm g e := W.alarm g (f e)

variable {W : Watcher γ ε} {g : γ} {s : σ}

@[simp] theorem after_nil : W.after g [] = g := rfl

@[simp] theorem after_cons (e : ε) (w : List ε) :
    W.after g (e :: w) = W.after (W.next g e) w := rfl

@[simp] theorem after_append (w w' : List ε) :
    W.after g (w ++ w') = W.after (W.after g w) w' := List.foldl_append

@[simp] theorem alarms_nil : ¬ W.Alarms g [] := id

@[simp] theorem alarms_cons (e : ε) (w : List ε) :
    W.Alarms g (e :: w) ↔ W.alarm g e ∨ W.Alarms (W.next g e) w := Iff.rfl

@[simp] theorem alarms_append (w w' : List ε) :
    W.Alarms g (w ++ w') ↔ W.Alarms g w ∨ W.Alarms (W.after g w) w' := by
  induction w generalizing g with
  | nil => simp
  | cons e w ih => simp [ih, or_assoc]

@[simp] theorem after_map (f : ε' → ε) (w : List ε') :
    W.after g (w.map f) = (W.comap f).after g w := by
  induction w generalizing g with
  | nil => rfl
  | cons e w ih => exact ih

@[simp] theorem alarms_map (f : ε' → ε) (w : List ε') :
    W.Alarms g (w.map f) ↔ (W.comap f).Alarms g w := by
  induction w generalizing g with
  | nil => exact Iff.rfl
  | cons e w ih => exact or_congr Iff.rfl ih

theorem Alarms.mono {W' : Watcher γ ε} (hnext : W'.next = W.next)
    (halarm : ∀ g e, W'.alarm g e → W.alarm g e) {w : List ε} (h : W'.Alarms g w) :
    W.Alarms g w := by
  induction w generalizing g with
  | nil => exact h
  | cons e w ih => exact h.imp (halarm g e) fun h => ih (hnext ▸ h)

/-! ## Runs that raise no alarm -/

/-- The run of `x` raises no alarm; it returns in `Q`, exits in `E` or
panics. -/
def calm (W : Watcher γ ε) (x : Prog σ ε α) (Q : α → σ → γ → Prop) (E : σ → γ → Prop) (g : γ)
    (s : σ) : Prop :=
  ends x (fun a s' w => ¬ W.Alarms g w ∧ Q a s' (W.after g w))
    (fun s' w => ¬ W.Alarms g w ∧ E s' (W.after g w)) (fun _ w => ¬ W.Alarms g w) s

section
variable {Q Q' : α → σ → γ → Prop} {E E' : σ → γ → Prop}

theorem calm.mono {x : Prog σ ε α} (h : W.calm x Q E g s) (hQ : ∀ a s g, Q a s g → Q' a s g)
    (hE : ∀ s g, E s g → E' s g) : W.calm x Q' E' g s :=
  ends.mono h (fun _ _ _ h => ⟨h.1, hQ _ _ _ h.2⟩) (fun _ _ h => ⟨h.1, hE _ _ h.2⟩) fun _ _ h => h

/-- A watcher that raises fewer alarms. -/
theorem calm.of_watcher {W' : Watcher γ ε} {x : Prog σ ε α} (h : W.calm x Q E g s)
    (hnext : W'.next = W.next) (halarm : ∀ g e, W'.alarm g e → W.alarm g e) :
    W'.calm x Q E g s := by
  have hafter : ∀ w, W'.after g w = W.after g w := fun w => by unfold after; rw [hnext]
  refine ends.mono h (fun a s' w h => ?_) (fun s' w h => ?_) fun m w h => ?_
  · exact ⟨fun hw => h.1 (hw.mono hnext halarm), hafter w ▸ h.2⟩
  · exact ⟨fun hw => h.1 (hw.mono hnext halarm), hafter w ▸ h.2⟩
  · exact fun hw => h (hw.mono hnext halarm)

@[simp] theorem calm_pure {a : α} : W.calm (pure a : Prog σ ε α) Q E g s ↔ Q a s g := by
  simp [calm]

/-- Nothing was observed before the alarm of a run that raises none. -/
theorem not_alarms_of_ends {x : Prog σ ε α} {w : List ε} {Q : α → σ → List ε → Prop}
    {E : σ → List ε → Prop} {P : String → List ε → Prop} (h : ends x Q E P s)
    (hQ : ∀ a s w', Q a s w' → ¬ W.Alarms g (w ++ w')) (hE : ∀ s w', E s w' → ¬ W.Alarms g (w ++ w'))
    (hP : ∀ m w', P m w' → ¬ W.Alarms g (w ++ w')) : ¬ W.Alarms g w := fun hw =>
  h.events hQ hE hP ((alarms_append w _).mpr (.inl hw))

@[simp] theorem calm_bind {x : Prog σ ε α} {f : α → Prog σ ε β} {Q : β → σ → γ → Prop} :
    W.calm (x >>= f) Q E g s ↔ W.calm x (fun a s' g' => W.calm (f a) Q E g' s') E g s := by
  unfold calm
  rw [ends_bind]
  constructor
  · refine fun h => h.mono (fun a s' w h => ⟨?_, ?_⟩) (fun _ _ h => h) fun _ _ h => h
    · exact not_alarms_of_ends h (fun _ _ _ h => h.1) (fun _ _ h => h.1) fun _ _ h => h
    · refine h.mono (fun b s'' w' h' => ?_) (fun s'' w' h' => ?_) fun m w' h' => ?_ <;>
        simp only [alarms_append, after_append, not_or] at h'
      · exact ⟨h'.1.2, h'.2⟩
      · exact ⟨h'.1.2, h'.2⟩
      · exact h'.2
  · refine fun h => h.mono (fun a s' w h => ?_) (fun _ _ h => h) fun _ _ h => h
    refine h.2.mono (fun b s'' w' h' => ?_) (fun s'' w' h' => ?_) fun m w' h' => ?_ <;>
      simp only [alarms_append, after_append, not_or]
    · exact ⟨⟨h.1, h'.1⟩, h'.2⟩
    · exact ⟨⟨h.1, h'.1⟩, h'.2⟩
    · exact ⟨h.1, h'⟩

@[simp] theorem calm_get {Q : σ → σ → γ → Prop} :
    W.calm (Prog.get : Prog σ ε σ) Q E g s ↔ Q s s g := by simp [calm]

@[simp] theorem calm_modify {f : σ → σ} {Q : Unit → σ → γ → Prop} :
    W.calm (Prog.modify f : Prog σ ε Unit) Q E g s ↔ Q () (f s) g := by simp [calm]

@[simp] theorem calm_tell {e : ε} {Q : Unit → σ → γ → Prop} :
    W.calm (Prog.tell e : Prog σ ε Unit) Q E g s ↔ ¬ W.alarm g e ∧ Q () s (W.next g e) := by
  simp [calm]

@[simp] theorem calm_panic {m : String} : W.calm (Prog.panic m : Prog σ ε α) Q E g s := by
  simp [calm]

@[simp] theorem calm_exit {f : σ → σ} : W.calm (Prog.exit f : Prog σ ε α) Q E g s ↔ E (f s) g := by
  simp [calm]

/-- A callee and what comes after it. -/
theorem calm.bind {x : Prog σ ε α} {f : α → Prog σ ε β} {Q : α → σ → γ → Prop}
    {Q' : β → σ → γ → Prop} (h : W.calm x Q E g s)
    (hf : ∀ a s' g', Q a s' g' → W.calm (f a) Q' E g' s') : W.calm (x >>= f) Q' E g s :=
  calm_bind.mpr (h.mono hf fun _ _ h => h)

theorem calm_upTo {body : Nat → Prog σ ε Unit} {I : σ → γ → Prop}
    (h : ∀ i s g, I s g → W.calm (body i) (fun _ => I) E g s) (n : Nat) (hI : I s g) :
    W.calm (Prog.upTo body n) (fun _ => I) E g s := by
  induction n with
  | zero => exact calm_pure.mpr hI
  | succ n ih => exact ih.bind fun _ s' g' h' => h n s' g' h'

theorem calm.of_ret {x : Prog σ ε α} {a : α} {s' : σ} {w : List ε} (h : W.calm x Q E g s)
    (hx : x s = .ret a s' w) : Q a s' (W.after g w) := (ends.of_ret h hx).2

theorem calm_of_ret {x : Prog σ ε α} {a : α} {s' : σ} {w : List ε} (hx : x s = .ret a s' w)
    (hw : ¬ W.Alarms g w) (hQ : Q a s' (W.after g w)) : W.calm x Q E g s := by
  unfold calm ends
  rw [hx]
  exact ⟨hw, hQ⟩

theorem calm.of_exit {x : Prog σ ε α} {s' : σ} {w : List ε} (h : W.calm x Q E g s)
    (hx : x s = .exit s' w) : E s' (W.after g w) := (ends.of_exit h hx).2

end

/-! ## Runs that raise an alarm -/

/-- The run of `x` from `s` raises the alarm. -/
def Caught (W : Watcher γ ε) (x : Prog σ ε α) (g : γ) (s : σ) : Prop := W.Alarms g (x s).events

theorem calm.not_caught {x : Prog σ ε α} {Q : α → σ → γ → Prop} {E : σ → γ → Prop}
    (h : W.calm x Q E g s) : ¬ W.Caught x g s :=
  ends.events h (fun _ _ _ h => h.1) (fun _ _ h => h.1) fun _ _ h => h

@[simp] theorem not_caught_pure {a : α} : ¬ W.Caught (pure a : Prog σ ε α) g s := id

@[simp] theorem not_caught_get : ¬ W.Caught (Prog.get : Prog σ ε σ) g s := id

@[simp] theorem not_caught_panic {m : String} : ¬ W.Caught (Prog.panic m : Prog σ ε α) g s := id

@[simp] theorem not_caught_exit {f : σ → σ} : ¬ W.Caught (Prog.exit f : Prog σ ε α) g s := id

@[simp] theorem caught_tell {e : ε} :
    W.Caught (Prog.tell e : Prog σ ε Unit) g s ↔ W.alarm g e := by
  simp [Caught, Prog.tell, Out.events]

theorem caught_of_ret {x : Prog σ ε α} {a : α} {s' : σ} {w : List ε} (hx : x s = .ret a s' w) :
    W.Caught x g s ↔ W.Alarms g w := by
  unfold Caught
  rw [hx]
  rfl

/-- The alarm is raised by the callee, or by what comes after it. -/
theorem caught_bind {x : Prog σ ε α} {f : α → Prog σ ε β} : W.Caught (x >>= f) g s ↔
    W.Caught x g s ∨ ∃ a s' w, x s = .ret a s' w ∧ W.Caught (f a) (W.after g w) s' := by
  unfold Caught
  simp only [bind, Prog.bind]
  cases hx : x s with
  | ret a s' w =>
      rw [Out.events_after, alarms_append]
      refine or_congr Iff.rfl ⟨fun h => ⟨a, s', w, rfl, h⟩, ?_⟩
      rintro ⟨a', s'', w', hr, h⟩
      cases hr
      exact h
  | exit s' w => simp [Out.events]
  | panic m w => simp [Out.events]

/-- The same for a callee whose run is known. -/
theorem caught_bind_ret {x : Prog σ ε α} {f : α → Prog σ ε β} {a : α} {s' : σ} {w : List ε}
    (hx : x s = .ret a s' w) : W.Caught (x >>= f) g s ↔
      W.Alarms g w ∨ W.Caught (f a) (W.after g w) s' := by
  rw [caught_bind, caught_of_ret hx]
  refine or_congr Iff.rfl ⟨?_, fun h => ⟨a, s', w, hx, h⟩⟩
  rintro ⟨a', s'', w', hx', h⟩
  rw [hx] at hx'
  cases hx'
  exact h

theorem caught_tell_bind {e : ε} {f : Unit → Prog σ ε β} : W.Caught (Prog.tell e >>= f) g s ↔
    W.alarm g e ∨ W.Caught (f ()) (W.next g e) s := by
  rw [caught_bind_ret (show Prog.tell e s = .ret () s [e] from rfl)]
  simp

end Watcher

/-! ## Translated observations -/

/-- The same code, with other observations. -/
def Prog.relabel (f : ε → ε') (x : Prog σ ε α) : Prog σ ε' α := fun s =>
  match x s with
  | .ret a s' w => .ret a s' (w.map f)
  | .exit s' w => .exit s' (w.map f)
  | .panic m w => .panic m (w.map f)

theorem Prog.relabel_bind {f : ε → ε'} {x : Prog σ ε α} {k : α → Prog σ ε β} :
    (x >>= k).relabel f = x.relabel f >>= fun a => (k a).relabel f := by
  funext s
  simp only [bind, Prog.bind, Prog.relabel]
  cases x s with
  | ret a s' w => cases hk : k a s' <;> simp [Out.after, hk]
  | exit s' w => rfl
  | panic m w => rfl

@[simp] theorem ends_relabel {f : ε → ε'} {x : Prog σ ε α} {Q : α → σ → List ε' → Prop}
    {E : σ → List ε' → Prop} {P : String → List ε' → Prop} {s : σ} :
    ends (x.relabel f) Q E P s ↔ ends x (fun a s' w => Q a s' (w.map f)) (fun s' w => E s' (w.map f))
      (fun m w => P m (w.map f)) s := by
  unfold ends Prog.relabel
  cases x s <;> exact Iff.rfl

theorem heads_relabel {f : ε → ε'} {P : ε' → Prop} {x : Prog σ ε α}
    (h : Respects (heads fun e => P (f e)) x) : Respects (heads P) (x.relabel f) := fun s => by
  have hmap : ∀ w : List ε, (∀ e ∈ w.head?, P (f e)) → ∀ e ∈ (w.map f).head?, P e :=
    fun w hw e he => by
      cases w with
      | nil => cases he
      | cons e' w =>
          cases he
          exact hw e' rfl
  rw [ends_relabel]
  exact (h s).mono (fun _ _ w => hmap w) (fun _ w => hmap w) fun _ w => hmap w

theorem events_relabel {f : ε → ε'} {x : Prog σ ε α} {s : σ} :
    ((x.relabel f) s).events = (x s).events.map f := by
  unfold Prog.relabel
  cases x s <;> rfl

theorem silent_relabel {f : ε → ε'} {x : Prog σ ε α} {s : σ} :
    silent (x.relabel f) s ↔ silent x s := by
  unfold silent
  rw [events_relabel, List.map_eq_nil_iff]

namespace Watcher

variable {W : Watcher γ ε} {g : γ} {s : σ} {f : ε' → ε} {x : Prog σ ε' α}

theorem calm_relabel {Q : α → σ → γ → Prop} {E : σ → γ → Prop} :
    W.calm (x.relabel f) Q E g s ↔ (W.comap f).calm x Q E g s := by
  unfold calm
  simp only [ends_relabel, after_map, alarms_map]

theorem caught_relabel : W.Caught (x.relabel f) g s ↔ (W.comap f).Caught x g s := by
  unfold Caught Prog.relabel
  cases x s <;> exact alarms_map _ _

end Watcher

end OsSuite
