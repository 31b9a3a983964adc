import Mathlib

/-!
# Writes — a store that may crash

A store maps keys to values and changes by single atomic writes that take
effect in the order in which they are issued. A CRASH keeps a prefix of
the writes. `Restarts boot d d'` describes a store that is brought up by
`boot`, a procedure whose own writes may be cut off by further crashes,
until it completes once.
-/

namespace OsSuite

variable {κ ν : Type} [DecidableEq κ]

/-- The store after a sequence of writes. -/
def applyWrites (ws : List (κ × ν)) (d : κ → ν) : κ → ν :=
  ws.foldl (fun d w => Function.update d w.1 w.2) d

@[simp] theorem applyWrites_nil (d : κ → ν) : applyWrites [] d = d := rfl

@[simp] theorem applyWrites_cons (w : κ × ν) (ws : List (κ × ν)) (d : κ → ν) :
    applyWrites (w :: ws) d = applyWrites ws (Function.update d w.1 w.2) := rfl

theorem applyWrites_append (ws ws' : List (κ × ν)) (d : κ → ν) :
    applyWrites (ws ++ ws') d = applyWrites ws' (applyWrites ws d) := List.foldl_append ..

/-- A key that is not written keeps its value. -/
theorem applyWrites_of_ne {ws : List (κ × ν)} {x : κ} (h : ∀ w ∈ ws, w.1 ≠ x) (d : κ → ν) :
    applyWrites ws d x = d x := by
  induction ws generalizing d with
  | nil => rfl
  | cons w ws ih =>
      rw [applyWrites_cons, ih (fun w' hw => h w' (.tail _ hw)),
        Function.update_of_ne (Ne.symm (h w (.head _)))]

/-- A key that is written with one value only has that value. -/
theorem applyWrites_eq {ws : List (κ × ν)} {x : κ} {v : ν} (h : ∃ w ∈ ws, w.1 = x)
    (hv : ∀ w ∈ ws, w.1 = x → w.2 = v) (d : κ → ν) : applyWrites ws d x = v := by
  induction ws generalizing d with
  | nil => obtain ⟨w, hw, -⟩ := h; cases hw
  | cons w ws ih =>
      by_cases hlater : ∃ w' ∈ ws, w'.1 = x
      · exact ih hlater (fun w' hw => hv w' (.tail _ hw)) _
      · -- the first write is the last one to this key
        obtain ⟨w', hw, hx⟩ := h
        rcases List.mem_cons.mp hw with rfl | hw
        · rw [applyWrites_cons, applyWrites_of_ne fun w'' hw'' hx' => hlater ⟨w'', hw'', hx'⟩,
            ← hx, Function.update_self, hv w' (.head _) hx]
        · exact absurd ⟨w', hw, hx⟩ hlater

/-- Crashes and restarts, up to the first one that completes. -/
inductive Restarts (boot : (κ → ν) → List (κ × ν)) : (κ → ν) → (κ → ν) → Prop where
  | done (d : κ → ν) : Restarts boot d (applyWrites (boot d) d)
  | crash {d d' : κ → ν} {ws : List (κ × ν)} (h : ws <+: boot d)
      (hrest : Restarts boot (applyWrites ws d) d') : Restarts boot d d'

/-- **The rule for restarts**: what every interrupted restart keeps, and
what a completed one makes of it. -/
theorem Restarts.rule {boot : (κ → ν) → List (κ × ν)} {I J : (κ → ν) → Prop}
    (hcrash : ∀ d ws, I d → ws <+: boot d → I (applyWrites ws d))
    (hdone : ∀ d, I d → J (applyWrites (boot d) d)) {d d' : κ → ν} (h : Restarts boot d d')
    (hI : I d) : J d' := by
  induction h with
  | done d => exact hdone d hI
  | crash hws _ ih => exact ih (hcrash _ _ hI hws)

end OsSuite
