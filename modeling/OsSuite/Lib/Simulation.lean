import OsSuite.Lib.Trace

/-!
# Simulation — an abstract machine that follows what is observed

An abstract machine reads the observations of a run one by one; a step
it cannot take (`none`) is a mismatch. `simulates` is the link that says:
related states stay related, and the machine never gets stuck. Runs may
be restricted to those whose observations the machine `Admits`.
-/

namespace OsSuite

variable {σ γ ε : Type}

/-- The machine reads a list of observations. -/
def replay (step : γ → ε → Option γ) : List ε → γ → Option γ
  | [], g => some g
  | e :: w, g => (step g e).bind (replay step w)

/-- Every observation is acceptable in the state the machine is then in. -/
def Admits (step : γ → ε → Option γ) (ok : γ → ε → Prop) : List ε → γ → Prop
  | [], _ => True
  | e :: w, g => ok g e ∧ ∀ g', step g e = some g' → Admits step ok w g'

instance Admits.decidable {step : γ → ε → Option γ} {ok : γ → ε → Prop}
    [∀ g e, Decidable (ok g e)] : ∀ w g, Decidable (Admits step ok w g)
  | [], _ => isTrue trivial
  | e :: w, g =>
      match h : step g e with
      | none => decidable_of_iff (ok g e) ⟨fun ho => ⟨ho, fun g' hg => by simp [h] at hg⟩, And.left⟩
      | some g' =>
          have : Decidable (Admits step ok w g') := Admits.decidable w g'
          decidable_of_iff (ok g e ∧ Admits step ok w g')
            ⟨fun ho => ⟨ho.1, fun g'' hg => by rw [h] at hg; cases hg; exact ho.2⟩,
              fun ho => ⟨ho.1, ho.2 g' h⟩⟩

section
variable {step : γ → ε → Option γ} {ok : γ → ε → Prop}

@[simp] theorem replay_nil (g : γ) : replay step [] g = some g := rfl

theorem replay_append (w w' : List ε) (g : γ) :
    replay step (w ++ w') g = (replay step w g).bind (replay step w') := by
  induction w generalizing g with
  | nil => rfl
  | cons e w ih =>
      simp only [List.cons_append, replay]
      cases step g e with
      | none => rfl
      | some g' => exact ih g'

theorem admits_append {w w' : List ε} {g : γ} (h : Admits step ok (w ++ w') g) :
    Admits step ok w g ∧ ∀ g', replay step w g = some g' → Admits step ok w' g' := by
  induction w generalizing g with
  | nil => exact ⟨trivial, fun g' hg => by cases hg; exact h⟩
  | cons e w ih =>
      obtain ⟨he, hrest⟩ := h
      refine ⟨⟨he, fun g' hg => (ih (hrest g' hg)).1⟩, fun g' hg => ?_⟩
      obtain ⟨g₁, h₁, h₂⟩ := Option.bind_eq_some_iff.mp hg
      exact (ih (hrest g₁ h₁)).2 g' h₂

end

/-- What every step of the machine asks of its observation holds of all
that it has read. -/
theorem replay_forall {step : γ → ε → Option γ} {G : ε → Prop}
    (hG : ∀ g e g', step g e = some g' → G e) {w : List ε} {g g' : γ}
    (h : replay step w g = some g') : ∀ e ∈ w, G e := by
  induction w generalizing g with
  | nil => exact fun _ he => nomatch he
  | cons e w ih =>
      obtain ⟨g₁, h₁, h₂⟩ := Option.bind_eq_some_iff.mp h
      intro e' he'
      rcases List.mem_cons.mp he' with rfl | he'
      · exact hG _ _ _ h₁
      · exact ih h₂ e' he'

/-- As long as the observations satisfy `A` and the machine admits them:
from related states, the machine follows the run; a run that exits ends
in `J`. -/
def simulates (step : γ → ε → Option γ) (ok : γ → ε → Prop) (A : ε → Prop)
    (Rel : σ → γ → Prop) (J : σ → Prop) : Link σ ε where
  ret s w s' := (∀ e ∈ w, A e) → ∀ g, Rel s g → Admits step ok w g →
    ∃ g', replay step w g = some g' ∧ Rel s' g'
  exit s w s' := (∀ e ∈ w, A e) → ∀ g, Rel s g → Admits step ok w g →
    ∃ g', replay step w g = some g' ∧ J s'
  panic s _ w := (∀ e ∈ w, A e) → ∀ g, Rel s g → Admits step ok w g →
    ∃ g', replay step w g = some g'

theorem simulates_composes (step : γ → ε → Option γ) (ok : γ → ε → Prop) (A : ε → Prop)
    (Rel : σ → γ → Prop) (J : σ → Prop) : Composes (simulates step ok A Rel J) where
  refl _ _ g hg _ := ⟨g, rfl, hg⟩
  trans h h' hA g hg had := by
    obtain ⟨had₁, had₂⟩ := admits_append had
    obtain ⟨g₁, h₁, hg₁⟩ := h (fun e he => hA e (List.mem_append_left _ he)) g hg had₁
    obtain ⟨g₂, h₂, hg₂⟩ :=
      h' (fun e he => hA e (List.mem_append_right _ he)) g₁ hg₁ (had₂ g₁ h₁)
    exact ⟨g₂, by rw [replay_append, h₁]; exact h₂, hg₂⟩
  exit h h' hA g hg had := by
    obtain ⟨had₁, had₂⟩ := admits_append had
    obtain ⟨g₁, h₁, hg₁⟩ := h (fun e he => hA e (List.mem_append_left _ he)) g hg had₁
    obtain ⟨g₂, h₂, hJ⟩ := h' (fun e he => hA e (List.mem_append_right _ he)) g₁ hg₁ (had₂ g₁ h₁)
    exact ⟨g₂, by rw [replay_append, h₁]; exact h₂, hJ⟩
  panic h h' hA g hg had := by
    obtain ⟨had₁, had₂⟩ := admits_append had
    obtain ⟨g₁, h₁, hg₁⟩ := h (fun e he => hA e (List.mem_append_left _ he)) g hg had₁
    obtain ⟨g₂, h₂⟩ := h' (fun e he => hA e (List.mem_append_right _ he)) g₁ hg₁ (had₂ g₁ h₁)
    exact ⟨g₂, by rw [replay_append, h₁]; exact h₂⟩

theorem replay_one {step : γ → ε → Option γ} {g g' : γ} {e : ε} (h : step g e = some g') :
    replay step [e] g = some g' := by
  simp [replay, h]

/-! ## One machine per party -/

section
variable {ι : Type} [DecidableEq ι] {step : γ → ε → Option γ} {ok : γ → ε → Prop}
  {steps : (ι → γ) → ι × ε → Option (ι → γ)} {oks : (ι → γ) → ι × ε → Prop}

/-- Observations of one party move its machine only. -/
theorem replay_party
    (hstep : ∀ gs i e g', step (gs i) e = some g' →
      steps gs (i, e) = some (Function.update gs i g')) {i : ι} {w : List ε} :
    ∀ {gs : ι → γ} {g' : γ}, replay step w (gs i) = some g' →
      replay steps (w.map (Prod.mk i)) gs = some (Function.update gs i g') := by
  induction w with
  | nil =>
      intro gs g' h
      cases h
      rw [Function.update_eq_self]
      rfl
  | cons e w ih =>
      intro gs g' h
      obtain ⟨g₁, h₁, h₂⟩ := Option.bind_eq_some_iff.mp h
      simp only [List.map_cons, replay, hstep gs i e g₁ h₁, Option.bind_some]
      have h₂' : replay step w (Function.update gs i g₁ i) = some g' := by
        rw [Function.update_self]; exact h₂
      rw [ih h₂', Function.update_idem]

theorem admits_party
    (hstep : ∀ gs i e g', step (gs i) e = some g' →
      steps gs (i, e) = some (Function.update gs i g'))
    (hok : ∀ gs i e, oks gs (i, e) → ok (gs i) e) {i : ι} {w : List ε} :
    ∀ {gs : ι → γ}, Admits steps oks (w.map (Prod.mk i)) gs → Admits step ok w (gs i) := by
  induction w with
  | nil => exact fun _ => trivial
  | cons e w ih =>
      rintro gs ⟨he, hrest⟩
      refine ⟨hok gs i e he, fun g' hg => ?_⟩
      have := ih (hrest _ (hstep gs i e g' hg))
      rwa [Function.update_self] at this

end

end OsSuite
