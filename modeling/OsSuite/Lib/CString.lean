import OsSuite.Lib.Sure

/-!
# CString — strings in character arrays

`Chars ι` is a memory of character arrays with names in `ι`. Every access
is an observation, so that "no access is out of bounds" is a fact about a
run (`sure`). An array holds the string `l` (`Str`) if its first
characters are those of `l` and a NUL.
-/

namespace OsSuite

/-- The end of a string. -/
def nul : Char := Char.ofNat 0

/-- Character arrays, by name. -/
abbrev Chars (ι : Type) := ι → Nat → Char

/-- Code on character arrays; it shows every character that it reads or
writes. -/
abbrev CharProg (ι α : Type) := Prog (Chars ι) (ι × Nat) α

variable {ι : Type}

namespace Chars

/-- The first `n` characters of an array. -/
def front (m : Chars ι) (b : ι) (n : Nat) : List Char := (List.range n).map (m b)

/-- The array `b` holds the string `l`. -/
structure Str (m : Chars ι) (b : ι) (l : List Char) : Prop where
  front : m.front b l.length = l
  stop : m b l.length = nul
  clean : nul ∉ l

/-- Nothing but the array `b` differs. -/
def Only (b : ι) (m m' : Chars ι) : Prop := ∀ b', b' ≠ b → m' b' = m b'

section
variable {m m' m'' : Chars ι} {b : ι} {n : Nat} {l : List Char}

@[simp] theorem length_front : (m.front b n).length = n := by simp [front]

theorem front_succ : m.front b (n + 1) = m.front b n ++ [m b n] := by
  simp [front, List.range_succ]

theorem front_congr (h : ∀ i < n, m' b i = m b i) : m'.front b n = m.front b n :=
  List.map_congr_left fun i hi => h i (List.mem_range.mp hi)

theorem getElem_front {i : Nat} (hi : i < (m.front b n).length) : (m.front b n)[i] = m b i := by
  simp [front]

theorem Str.at (h : m.Str b l) {i : Nat} (hi : i < l.length) : m b i = l[i] := by
  have hf := h.front
  rw [← getElem_front (m := m) (b := b) (n := l.length) (by rwa [length_front])]
  simp only [hf]

/-- A character of the string is not its end. -/
theorem Str.ne_nul (h : m.Str b l) {i : Nat} (hi : i < l.length) : m b i ≠ nul := fun hn =>
  h.clean (by rw [← hn, h.at hi]; exact List.getElem_mem hi)

theorem Str.congr (h : m.Str b l) (he : m' b = m b) : m'.Str b l :=
  ⟨by rw [Chars.front, he]; exact h.front, by rw [he]; exact h.stop, h.clean⟩

theorem Only.refl (b : ι) (m : Chars ι) : Only b m m := fun _ _ => rfl

theorem Only.trans (h : Only b m m') (h' : Only b m' m'') : Only b m m'' := fun b' hb =>
  (h' b' hb).trans (h b' hb)

end

variable [DecidableEq ι]

def set (m : Chars ι) (b : ι) (i : Nat) (c : Char) : Chars ι :=
  Function.update m b (Function.update (m b) i c)

section
variable {m : Chars ι} {b : ι} {i n : Nat} {c : Char}

@[simp] theorem set_self : m.set b i c b i = c := by simp [set]

theorem set_of_ne {j : Nat} (h : j ≠ i) : m.set b i c b j = m b j := by simp [set, h]

theorem only_set : Only b m (m.set b i c) := fun _ hb => Function.update_of_ne hb _ _

/-- A character is added behind the first `n`. -/
theorem front_set : (m.set b n c).front b (n + 1) = m.front b n ++ [c] := by
  rw [front_succ, set_self, front_congr fun i hi => set_of_ne (by omega)]

end

end Chars

open Chars

/-- `b[i]` -/
def load (b : ι) (i : Nat) : CharProg ι Char := do
  Prog.tell (b, i)
  let m ← Prog.get
  pure (m b i)

/-- `b[i] = c` -/
def store [DecidableEq ι] (b : ι) (i : Nat) (c : Char) : CharProg ι Unit := do
  Prog.tell (b, i)
  Prog.modify fun m => m.set b i c

section
variable {G : ι × Nat → Prop} {m : Chars ι} {b : ι} {i : Nat}

theorem sure_load_bind {α : Type} {f : Char → CharProg ι α} {R : Post (Chars ι) α} :
    sure G (load b i >>= f) R m ↔ sure G (f (m b i)) R m ∧ G (b, i) := by
  simp [load]

theorem sure_store [DecidableEq ι] {c : Char} {R : Post (Chars ι) Unit} :
    sure G (store b i c) R m ↔ R.ret () (m.set b i c) ∧ G (b, i) := by
  simp [store]

theorem sure_store_bind [DecidableEq ι] {c : Char} {α : Type} {f : Unit → CharProg ι α}
    {R : Post (Chars ι) α} :
    sure G (store b i c >>= f) R m ↔ sure G (f ()) R (m.set b i c) ∧ G (b, i) := by
  rw [sure_bind, sure_store]

end

/-! ## Strings that are compared up to a length -/

/-- The string in the first `n` characters of an array, which need not end
in a NUL. -/
def cut (n : Nat) (a : Nat → Char) : List Char := ((List.range n).map a).takeWhile fun c => c ≠ nul

/-- The string from character `i` on. -/
theorem cut_succ (n : Nat) (a : Nat → Char) (i : Nat) :
    cut (n + 1) (fun j => a (i + j)) =
      if a i = nul then [] else a i :: cut n fun j => a (i + 1 + j) := by
  have hnext : (fun j => a (i + j)) ∘ Nat.succ = fun j => a (i + 1 + j) := by
    funext j
    show a (i + (j + 1)) = a (i + 1 + j)
    rw [Nat.add_assoc, Nat.add_comm 1]
  unfold cut
  rw [List.range_succ_eq_map, List.map_cons, List.map_map, List.takeWhile_cons, hnext, Nat.add_zero]
  split
  · rename_i h
    rw [if_neg (of_decide_eq_true h)]
  · rename_i h
    rw [if_pos (by simpa using h)]

theorem cut_eq {n : Nat} {a : Nat → Char} {l : List Char} (hlen : l.length ≤ n)
    (hl : (List.range l.length).map a = l) (hclean : nul ∉ l) (hstop : l.length < n → a l.length = nul) :
    cut n a = l := by
  obtain ⟨k, rfl⟩ := Nat.exists_eq_add_of_le hlen
  have hall : ∀ c ∈ l, decide (c ≠ nul) = true := fun c hc =>
    decide_eq_true fun h => hclean (h ▸ hc)
  rw [cut, List.range_add, List.map_append, hl, List.takeWhile_append_of_pos hall]
  cases k with
  | zero => simp
  | succ k =>
      rw [List.range_succ_eq_map, List.map_cons, List.map_cons, Nat.add_zero, hstop (by omega)]
      simp

end OsSuite
