import Mathlib

/-!
# Table — a counted array with swap-with-last deletion

An array `a : Nat → α` whose first `n` cells are LIVE. New entries go to
cell `n`; deleting cell `i` copies the last live cell over it and drops
the count, so the array order stops being the insertion order after the
first deletion. What survives is the multiset of live entries, and every
lemma here is about the list `live a n` up to permutation:
`live_push` (insertion), `live_swapRemove` (deletion) and `live_update`
(a change in place).

`argmin` is the usual "keep the smaller index" scan; `firstIdx` is the
usual "stop at the first hit" scan.
-/

namespace OsSuite.Table

variable {α : Type}

/-- The live entries, in array order. -/
def live (a : Nat → α) (n : Nat) : List α := (List.range n).map a

/-- Copy the last live cell over cell `i`. -/
def swapRemove (a : Nat → α) (n i : Nat) : Nat → α :=
  Function.update a i (a (n - 1))

@[simp] theorem length_live (a : Nat → α) (n : Nat) : (live a n).length = n := by
  simp [live]

@[simp] theorem live_zero (a : Nat → α) : live a 0 = [] := rfl

theorem mem_live {a : Nat → α} {n : Nat} {x : α} :
    x ∈ live a n ↔ ∃ i, i < n ∧ a i = x := by
  simp [live]

theorem live_succ (a : Nat → α) (n : Nat) : live a (n + 1) = live a n ++ [a n] := by
  simp [live, List.range_succ]

theorem live_congr {a b : Nat → α} {n : Nat} (h : ∀ i, i < n → a i = b i) :
    live a n = live b n :=
  List.map_congr_left fun i hi => h i (List.mem_range.mp hi)

/-- Writing past the live cells changes nothing. -/
theorem live_update_ge {a : Nat → α} {n i : Nat} (x : α) (h : n ≤ i) :
    live (Function.update a i x) n = live a n :=
  live_congr fun j hj => Function.update_of_ne (by omega) x a

/-- A change in place is a change of one list position. -/
theorem live_update (a : Nat → α) (n i : Nat) (x : α) :
    live (Function.update a i x) n = (live a n).set i x := by
  apply List.ext_getElem (by simp)
  intro j h1 h2
  rw [List.getElem_set]
  rcases eq_or_ne i j with rfl | hij
  · simp [live]
  · simp [live, hij, Function.update_of_ne (Ne.symm hij)]

/-- Insertion at the count appends. -/
theorem live_push (a : Nat → α) (n : Nat) (x : α) :
    live (Function.update a n x) (n + 1) = live a n ++ [x] := by
  rw [live_succ, live_update_ge x (Nat.le_refl n), Function.update_self]

/-- **Deletion removes exactly the deleted entry**: the surviving entries
together with it are the old ones. -/
theorem live_swapRemove {a : Nat → α} {n i : Nat} (h : i < n) :
    (a i :: live (swapRemove a n i) (n - 1)).Perm (live a n) := by
  obtain ⟨m, rfl⟩ : ∃ m, n = m + 1 := ⟨n - 1, by omega⟩
  rw [Nat.add_sub_cancel, swapRemove, Nat.add_sub_cancel, live_succ]
  rcases Nat.lt_succ_iff_lt_or_eq.mp h with hlt | rfl
  · -- an inner cell: the last entry takes its place
    have hlen : i < (live a m).length := by simpa using hlt
    have hget : (live a m)[i] = a i := by simp [live]
    rw [live_update]
    have hset := (List.set_perm_cons_eraseIdx hlen (a m)).cons (a i)
    have hback := List.getElem_cons_eraseIdx_perm hlen
    rw [hget] at hback
    exact (hset.trans (List.Perm.swap _ _ _)).trans
      ((hback.cons (a m)).trans (List.perm_append_singleton _ _).symm)
  · rw [Function.update_eq_self]
    exact (List.perm_append_singleton _ _).symm

/-! ## Scans -/

/-- The index kept by `v = 0; for i in 1..n-1: if key i < key v: v = i`. -/
def argmin (key : α → Int) (a : Nat → α) : Nat → Nat
  | 0 => 0
  | n + 1 => if key (a n) < key (a (argmin key a n)) then n else argmin key a n

theorem argmin_lt (key : α → Int) (a : Nat → α) {n : Nat} (h : 0 < n) :
    argmin key a n < n := by
  induction n with
  | zero => omega
  | succ n ih =>
      rw [argmin]
      split
      · omega
      · rcases Nat.eq_zero_or_pos n with rfl | hn
        · simp [argmin]
        · have := ih hn
          omega

/-- The scan ends at a smallest key. -/
theorem argmin_le (key : α → Int) (a : Nat → α) {n i : Nat} (h : i < n) :
    key (a (argmin key a n)) ≤ key (a i) := by
  induction n with
  | zero => omega
  | succ n ih =>
      rw [argmin]
      split
      · rename_i hlt
        rcases Nat.lt_succ_iff_lt_or_eq.mp h with hi | rfl
        · exact le_trans (le_of_lt hlt) (ih hi)
        · exact le_refl _
      · rename_i hge
        rcases Nat.lt_succ_iff_lt_or_eq.mp h with hi | rfl
        · exact ih hi
        · exact not_lt.mp hge

/-- The index at which `for i in 0..n-1: if p i: break` stops. -/
def firstIdx (p : α → Bool) (a : Nat → α) (n : Nat) : Option Nat :=
  (List.range n).find? fun i => p (a i)

theorem firstIdx_some {p : α → Bool} {a : Nat → α} {n i : Nat}
    (h : firstIdx p a n = some i) :
    i < n ∧ p (a i) = true ∧ ∀ j, j < i → p (a j) = false := by
  obtain ⟨hp, hi, hj⟩ := List.find?_range_eq_some.mp h
  exact ⟨List.mem_range.mp hi, hp, fun j hji => by simpa using hj j hji⟩

theorem firstIdx_none {p : α → Bool} {a : Nat → α} {n : Nat} :
    firstIdx p a n = none ↔ ∀ x ∈ live a n, p x = false := by
  rw [firstIdx, List.find?_range_eq_none]
  constructor
  · intro h x hx
    obtain ⟨i, hi, rfl⟩ := mem_live.mp hx
    simpa using h i hi
  · intro h i hi
    simpa using h (a i) (mem_live.mpr ⟨i, hi, rfl⟩)

/-- Distinct numbers below `N` are at most `N` many. -/
theorem length_le_of_nodup_lt {l : List Nat} {N : Nat} (hnd : l.Nodup)
    (h : ∀ x ∈ l, x < N) : l.length ≤ N := by
  have hsub : l ⊆ List.range N := fun x hx => List.mem_range.mpr (h x hx)
  simpa using (hnd.subperm hsub).length_le

end OsSuite.Table
