import Mathlib

/-!
# Ring — a circular array as a queue

`ring N data start count` lists the `count` items that stand in an array
of `N` cells from `start` on, going round at the end. Adding an item in
the next cell appends it; the first cell holds the first item. `start`
may be any number with the right remainder, so counters that run free and
indices that are kept below `N` have the same view.
-/

namespace OsSuite

variable {α : Type} {N : Nat} {data : Nat → α} {start count : Nat}

/-- The items of a circular array, first to last. -/
def ring (N : Nat) (data : Nat → α) (start count : Nat) : List α :=
  (List.range count).map fun k => data ((start + k) % N)

@[simp] theorem ring_zero : ring N data start 0 = [] := rfl

/-- Only the remainder of the start counts. -/
theorem ring_congr {start' : Nat} (h : start ≡ start' [MOD N]) :
    ring N data start count = ring N data start' count :=
  List.map_congr_left fun k _ => congrArg data (h.add_right k)

/-- The cell after the last item takes a new one. -/
theorem ring_push (h : count < N) (x : α) :
    ring N (Function.update data ((start + count) % N) x) start (count + 1) =
      ring N data start count ++ [x] := by
  unfold ring
  rw [List.range_succ, List.map_append, List.map_cons, List.map_nil, Function.update_self]
  congr 1
  refine List.map_congr_left fun k hk => Function.update_of_ne (fun he => ?_) _ _
  -- two offsets below `N` with the same remainder
  have hk' := List.mem_range.mp hk
  have hmod : k ≡ count [MOD N] := Nat.ModEq.add_left_cancel' start he
  rw [Nat.ModEq, Nat.mod_eq_of_lt (by omega), Nat.mod_eq_of_lt h] at hmod
  omega

/-- The first item stands at the start. -/
theorem ring_pop : ring N data start (count + 1) = data (start % N) ::
    ring N data (start + 1) count := by
  unfold ring
  rw [List.range_succ_eq_map, List.map_cons, List.map_map, Nat.add_zero]
  congr 1
  exact List.map_congr_left fun k _ => by
    show data ((start + (k + 1)) % N) = data ((start + 1 + k) % N)
    rw [Nat.add_assoc, Nat.add_comm 1 k]

end OsSuite
