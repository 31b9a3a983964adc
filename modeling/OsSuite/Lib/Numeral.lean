import Mathlib

/-!
# Numeral — numbers written with digits

`numeral b w n` is the number `n` in base `b`, filled up with zeros on the
left to at least `w` characters: what `printf` makes of `%08x` and `%02x`,
and the usual zero-padded decimal. `numVal b` reads a numeral; leading
zeros do not count, so a numeral of any width gives its number back
(`numVal_numeral`). Digits go up to 15, in lower case.
-/

namespace OsSuite

variable {b w n : Nat}

/-- The value of a digit. -/
def digitVal (c : Char) : Nat := if c.isDigit then c.toNat - 48 else c.toNat - 87

theorem digitVal_digitChar {d : Nat} (h : d < 16) : digitVal d.digitChar = d := by
  interval_cases d <;> rfl

/-- The number that a list of digits stands for. -/
def numVal (b : Nat) (l : List Char) : Nat := l.foldl (fun a c => b * a + digitVal c) 0

@[simp] theorem numVal_concat (l : List Char) (c : Char) :
    numVal b (l ++ [c]) = b * numVal b l + digitVal c := by
  simp [numVal]

theorem numVal_toDigits (hb : 1 < b) (hb' : b ≤ 16) (n : Nat) : numVal b (b.toDigits n) = n := by
  induction n using Nat.strong_induction_on with
  | h n ih =>
      by_cases h : n < b
      · rw [Nat.toDigits_of_lt_base h]
        show b * 0 + digitVal n.digitChar = n
        rw [digitVal_digitChar (by omega), Nat.mul_zero, Nat.zero_add]
      · have hn : b ≤ n := Nat.le_of_not_lt h
        have hmod : n % b < b := Nat.mod_lt n (by omega)
        rw [Nat.toDigits_of_base_le hb hn, numVal_concat,
          ih (n / b) (Nat.div_lt_self (by omega) hb), digitVal_digitChar (by omega)]
        exact Nat.div_add_mod n b

/-- The number `n` in base `b`, with at least `w` digits. -/
def numeral (b w n : Nat) : List Char := (b.toDigits n).leftpad w '0'

theorem numVal_leftpad (l : List Char) : numVal b (l.leftpad w '0') = numVal b l := by
  have hzero : ∀ k, numVal b (List.replicate k '0' ++ l) = numVal b l := by
    intro k
    induction k with
    | zero => rfl
    | succ k ih =>
        rw [List.replicate_succ, List.cons_append, ← ih]
        show List.foldl _ (b * 0 + 0) _ = _
        rw [Nat.mul_zero]
        rfl
  exact hzero _

/-- **A numeral gives its number back.** -/
theorem numVal_numeral (hb : 1 < b) (hb' : b ≤ 16) (w n : Nat) : numVal b (numeral b w n) = n := by
  rw [numeral, numVal_leftpad, numVal_toDigits hb hb']

theorem numeral_inj (hb : 1 < b) (hb' : b ≤ 16) {n' : Nat} (h : numeral b w n = numeral b w n') :
    n = n' := by
  rw [← numVal_numeral hb hb' w n, h, numVal_numeral hb hb']

theorem length_numeral : (numeral b w n).length = max w (b.toDigits n).length := by
  rw [numeral, List.leftpad, List.length_append, List.length_replicate]
  omega

/-- A number that fits is written with exactly `w` digits. -/
theorem length_numeral_of_lt (hb : 1 < b) (hw : 0 < w) (h : n < b ^ w) :
    (numeral b w n).length = w := by
  have := (Nat.length_toDigits_le_iff hb hw).mpr h
  rw [length_numeral]
  omega

theorem mem_toDigits (hb : 1 < b) {c : Char} (h : c ∈ b.toDigits n) : ∃ d < b, c = d.digitChar := by
  induction n using Nat.strong_induction_on with
  | h n ih =>
      by_cases hn : n < b
      · rw [Nat.toDigits_of_lt_base hn, List.mem_singleton] at h
        exact ⟨n, hn, h⟩
      · rw [Nat.toDigits_of_base_le hb (Nat.le_of_not_lt hn), List.mem_append,
          List.mem_singleton] at h
        rcases h with h | h
        · exact ih (n / b) (Nat.div_lt_self (by omega) hb) h
        · exact ⟨n % b, Nat.mod_lt n (by omega), h⟩

theorem mem_numeral (hb : 1 < b) {c : Char} (h : c ∈ numeral b w n) : ∃ d < b, c = d.digitChar := by
  rcases List.mem_append.mp h with h | h
  · exact ⟨0, by omega, List.eq_of_mem_replicate h⟩
  · exact mem_toDigits hb h

/-- The number of digits. -/
theorem length_toDigits (hb : 1 < b) {k : Nat} (hk : 0 < k) (hlo : b ^ k ≤ n)
    (hhi : n < b ^ (k + 1)) : (b.toDigits n).length = k + 1 := by
  have hle := (Nat.length_toDigits_le_iff hb (Nat.succ_pos k)).mpr hhi
  have hgt := mt (Nat.length_toDigits_le_iff hb hk).mp (Nat.not_lt.mpr hlo)
  omega

theorem numeral_of_le_length (h : w ≤ (b.toDigits n).length) : numeral b w n = b.toDigits n := by
  rw [numeral, List.leftpad, Nat.sub_eq_zero_of_le h]
  rfl

/-- A numeral of `k + 1` digits without the last one is the numeral of
the quotient. -/
theorem take_numeral (hb : 1 < b) {k : Nat} (hk : 0 < k) (hw : w ≤ k) (hlo : b ^ k ≤ n)
    (hhi : n < b ^ (k + 1)) : (numeral b w n).take k = numeral b w (n / b) := by
  have hn : b ≤ n := Nat.le_trans (Nat.le_self_pow (by omega) b) hlo
  have hlen := length_toDigits hb hk hlo hhi
  have hsplit := Nat.toDigits_of_base_le hb hn
  have hquot : (b.toDigits (n / b)).length = k := by
    rw [hsplit, List.length_append, List.length_singleton] at hlen
    omega
  rw [numeral_of_le_length (by omega), numeral_of_le_length (by omega), hsplit,
    List.take_left' hquot]

end OsSuite
