import Mathlib

/-!
# Sole — resources with one holder

Places hold resources, and `0` is no resource. `Sole held P` says that
every resource that is held satisfies `P` and is held at one place. A
resource that does not satisfy `P` is held nowhere, so it can be given to
any place that is empty.
-/

namespace OsSuite

variable {κ α : Type} [Zero α] {held held' : κ → α} {P Q : α → Prop}

/-- Every resource that is held satisfies `P` and has one holder. -/
structure Sole (held : κ → α) (P : α → Prop) : Prop where
  sound : ∀ p, held p ≠ 0 → P (held p)
  apart : ∀ p q, held p ≠ 0 → held p = held q → p = q

namespace Sole

/-- What does not satisfy `P` is held nowhere. -/
theorem ne_of_not (h : Sole held P) {b : α} (hb : ¬ P b) {p : κ} (h0 : held p ≠ 0) : held p ≠ b :=
  fun he => hb (he ▸ h.sound p h0)

/-- Two places hold different resources. -/
theorem ne_of_ne (h : Sole held P) {p q : κ} (hne : p ≠ q) (h0 : held p ≠ 0) : held p ≠ held q :=
  fun he => hne (h.apart p q h0 he)

/-- **A new resource gets one holder.** -/
theorem give [DecidableEq κ] (h : Sole held P) {b : α} (hb : ¬ P b) {p : κ}
    (hPQ : ∀ c, P c → Q c) (hQ : Q b) : Sole (Function.update held p b) Q := by
  constructor
  · intro q h0
    by_cases hq : q = p
    · rw [hq, Function.update_self]
      exact hQ
    · rw [Function.update_of_ne hq] at h0 ⊢
      exact hPQ _ (h.sound q h0)
  · intro q q' h0 he
    by_cases hq : q = p <;> by_cases hq' : q' = p
    · rw [hq, hq']
    · rw [hq, Function.update_self, Function.update_of_ne hq'] at he
      rw [hq, Function.update_self] at h0
      exact absurd he.symm (h.ne_of_not hb (he ▸ h0))
    · rw [Function.update_of_ne hq] at h0 he
      rw [hq', Function.update_self] at he
      exact absurd he (h.ne_of_not hb h0)
    · rw [Function.update_of_ne hq] at h0 he
      rw [Function.update_of_ne hq'] at he
      exact h.apart q q' h0 he

end Sole

end OsSuite
