import Mathlib

/-!
# Turns — parties that share one state

Concurrent code whose critical sections are atomic: one party takes a
TURN on the shared state, then another. A turn may find nothing it can
do (`wait`), move the state on (`go`) or stop the machine (`halt`). What
a party may find on the way — an input, the answer of some call — is
part of the label of the turn, so a machine is a function.

`Reaches step C s t` says that turns which all meet the condition `C`
lead from `s` to `t`. An invariant of the turns is an invariant of the
states reached (`Reaches.invariant`); a schedule that is executed proves
that a state is reached (`Reaches.of_play`). A machine that matches every
turn of another one, by some turns or by none, matches every state it
reaches (`Reaches.refines`).
-/

namespace OsSuite

/-- What a turn does to the shared state. -/
inductive Turn (σ : Type) where
  | wait
  | go (s : σ)
  | halt (msg : String)
  deriving DecidableEq, Repr

namespace Turn

variable {σ τ : Type}

/-- Go on from the state a turn leads to. -/
def bind (x : Turn σ) (f : σ → Turn τ) : Turn τ :=
  match x with
  | wait => wait
  | go s => f s
  | halt m => halt m

/-- Embed the state a turn works on into a larger one. -/
def map (f : σ → τ) (x : Turn σ) : Turn τ := x.bind fun s => go (f s)

theorem bind_eq_go {x : Turn σ} {f : σ → Turn τ} {t : τ} :
    x.bind f = go t ↔ ∃ s, x = go s ∧ f s = go t := by
  cases x <;> simp [bind]

theorem map_eq_go {x : Turn σ} {f : σ → τ} {t : τ} :
    x.map f = go t ↔ ∃ s, x = go s ∧ f s = t := by
  simp [map, bind_eq_go]

theorem map_eq_halt {x : Turn σ} {f : σ → τ} {m : String} :
    x.map f = halt m ↔ x = halt m := by
  cases x <;> simp [map, bind]

end Turn

section
variable {σ ι : Type}

/-- The states that turns meeting `C` lead to. -/
inductive Reaches (step : σ → ι → Turn σ) (C : σ → ι → Prop) (s : σ) : σ → Prop where
  | refl : Reaches step C s s
  | turn {t u : σ} {i : ι} : Reaches step C s t → C t i → step t i = .go u → Reaches step C s u

/-- No condition on the turns. -/
def AnyTurn (_ : σ) (_ : ι) : Prop := True

variable {step : σ → ι → Turn σ} {C : σ → ι → Prop}

/-- **The invariant rule.** -/
theorem Reaches.invariant {I : σ → Prop} {s t : σ} (h : Reaches step C s t) (h0 : I s)
    (hstep : ∀ s i s', I s → C s i → step s i = .go s' → I s') : I t := by
  induction h with
  | refl => exact h0
  | turn _ hc hgo ih => exact hstep _ _ _ ih hc hgo

theorem Reaches.trans {s t u : σ} (h : Reaches step C s t) (h' : Reaches step C t u) :
    Reaches step C s u := by
  induction h' with
  | refl => exact h
  | turn _ hc hgo ih => exact ih.turn hc hgo

/-- **The refinement rule.** Each turn may be matched by any number of
turns of the other machine. -/
theorem Reaches.refines {τ κ : Type} {step' : τ → κ → Turn τ} {C' : τ → κ → Prop}
    {R : σ → τ → Prop} {s t : σ} {s' : τ} (h : Reaches step C s t) (h0 : R s s')
    (hstep : ∀ t i u t', R t t' → C t i → step t i = .go u →
      ∃ u', Reaches step' C' t' u' ∧ R u u') :
    ∃ t', Reaches step' C' s' t' ∧ R t t' := by
  induction h with
  | refl => exact ⟨s', .refl, h0⟩
  | turn _ hc hgo ih =>
      obtain ⟨t', ht', hR⟩ := ih
      obtain ⟨u', hu', hR'⟩ := hstep _ _ _ _ hR hc hgo
      exact ⟨u', ht'.trans hu', hR'⟩

/-- Execute a schedule, as long as `ok` accepts its turns. -/
def play (step : σ → ι → Turn σ) (ok : σ → ι → Bool) : List ι → σ → Option σ
  | [], s => some s
  | i :: is, s =>
      if ok s i then
        match step s i with
        | .go s' => play step ok is s'
        | _ => none
      else none

theorem Reaches.of_play {ok : σ → ι → Bool} (hok : ∀ s i, ok s i = true → C s i) :
    ∀ {is : List ι} {r s t : σ}, Reaches step C r s → play step ok is s = some t →
      Reaches step C r t := by
  intro is
  induction is with
  | nil =>
      intro r s t h hp
      cases hp
      exact h
  | cons i is ih =>
      intro r s t h hp
      unfold play at hp
      split at hp
      · rename_i hi
        split at hp
        · rename_i s' hgo
          exact ih (h.turn (hok s i hi) hgo) hp
        · cases hp
      · cases hp

/-- The test that goes with `AnyTurn`. -/
theorem anyTurn_ok : ∀ (s : σ) (i : ι), (fun _ _ => true : σ → ι → Bool) s i = true →
    AnyTurn s i := fun _ _ _ => trivial

/-- A schedule, and a test that the state it leads to passes. -/
theorem exists_reaches (step : σ → ι → Turn σ) {ok : σ → ι → Bool}
    (hok : ∀ s i, ok s i = true → C s i) (P : σ → Bool) (s : σ) (is : List ι)
    (h : (play step ok is s).any P = true) :
    ∃ t, Reaches step C s t ∧ P t = true := by
  cases ht : play step ok is s with
  | none => simp [ht] at h
  | some t => exact ⟨t, .of_play hok .refl ht, by simpa [ht] using h⟩

end

/-! ## Totals over the parties -/

/-- Replacing the state of one party changes a total by the difference. -/
theorem sum_update {ι α : Type} [Fintype ι] [DecidableEq ι] (g : ι → α) (f : α → Nat) (p : ι)
    (x : α) : (∑ q, f (Function.update g p x q)) + f (g p) = (∑ q, f (g q)) + f x := by
  have hne : ∑ q ∈ Finset.univ.erase p, f (Function.update g p x q) =
      ∑ q ∈ Finset.univ.erase p, f (g q) :=
    Finset.sum_congr rfl fun q hq => by
      rw [Function.update_of_ne (Finset.ne_of_mem_erase hq)]
  rw [← Finset.add_sum_erase _ _ (Finset.mem_univ p), hne, Function.update_self,
    ← Finset.add_sum_erase _ (fun q => f (g q)) (Finset.mem_univ p)]
  omega

/-- A share is at most the total. -/
theorem le_sum {ι α : Type} [Fintype ι] (g : ι → α) (f : α → Nat) (p : ι) :
    f (g p) ≤ ∑ q, f (g q) :=
  Finset.single_le_sum (fun q _ => Nat.zero_le (f (g q))) (Finset.mem_univ p)

end OsSuite
