import OsSuite.Lib.CString
import OsSuite.Lib.Numeral
import OsSuite.Xv6.Fs

/-!
# SwapName — the name of a swap file, character by character

`kexec` builds the path of the swap file with `itoa` and `strcat` in two
arrays on its stack; `skipelem` takes the only element of the path and
cuts it to `DIRSIZ` characters; `namecmp` compares it with a directory
entry. `Fs.swapName` is what comes out of this (`swapEntry_spec`), and no
access leaves its array.

`"pgswp"` leaves nine characters for the digits. A pid has up to ten, so
two pids share a file if they agree in the first nine
(`swap_names_differ_iff`).
-/

namespace OsSuite.Xv6

namespace SwapName

open Chars

/-! ## The code -/

section
variable {ι : Type} [DecidableEq ι]

/-- `while(n > 0)` of `itoa`; the result is `i`. -/
def digitLoop (buf : ι) : Nat → Nat → Nat → CharProg ι Nat
  | 0, _, i => pure i
  | fuel + 1, n, i =>
      if n = 0 then pure i
      else do
        store buf i (Char.ofNat (n % 10 + 48))
        digitLoop buf fuel (n / 10) (i + 1)

/-- `while(i < min_width)` of `itoa` -/
def padLoop (buf : ι) (minWidth : Int) : Nat → Nat → CharProg ι Nat
  | 0, i => pure i
  | fuel + 1, i =>
      if (i : Int) < minWidth then do
        store buf i '0'
        padLoop buf minWidth fuel (i + 1)
      else pure i

/-- A round of the last loop of `itoa`. -/
def swapChars (buf : ι) (j k : Nat) : CharProg ι Unit := do
  let temp ← load buf j
  let c ← load buf k
  store buf j c
  store buf k temp

/-- The digits of `itoa`, in reverse. -/
def digits (buf : ι) (n : Nat) : CharProg ι Nat :=
  if n = 0 then do
    store buf 0 '0'
    pure 1
  else digitLoop buf n n 0

/-- `itoa(n, buf, min_width)`, for `n` that is not negative. -/
def itoa (buf : ι) (n : Nat) (minWidth : Int) : CharProg ι Unit := do
  let i ← digits buf n
  let i ← padLoop buf minWidth minWidth.toNat i
  store buf i nul
  Prog.upTo (fun j => swapChars buf j (i - j - 1)) (i / 2)

/-- `while(*d) d++`. A string without end leads out of the kernel's
memory. -/
def strEnd (b : ι) : Nat → Nat → CharProg ι Nat
  | 0, _ => Prog.panic "kerneltrap"
  | fuel + 1, d => do
      if (← load b d) = nul then pure d else strEnd b fuel (d + 1)

/-- `while((*d++ = *src++))` -/
def copyChars (dest src : ι) : Nat → Nat → Nat → CharProg ι Unit
  | 0, _, _ => Prog.panic "kerneltrap"
  | fuel + 1, d, k => do
      let c ← load src k
      store dest d c
      if c = nul then pure () else copyChars dest src fuel (d + 1) (k + 1)

/-- More characters than there are in any array. -/
def many : Nat := 4096

/-- `strcat(dest, src)` -/
def strcat (dest src : ι) : CharProg ι Unit := do
  let d ← strEnd dest many 0
  copyChars dest src many d 0

/-- `while(--n > 0 && (*s++ = *t++) != 0)`; the result is the place of
`s`. -/
def safeLoop (s t : ι) : Nat → Nat → CharProg ι Nat
  | 0, i => pure i
  | n + 1, i =>
      if 0 < n then do
        let c ← load t i
        store s i c
        if c ≠ nul then safeLoop s t n (i + 1) else pure (i + 1)
      else pure i

/-- `safestrcpy(s, t, n)` -/
def safestrcpy (s t : ι) (n : Nat) : CharProg ι Unit :=
  if n = 0 then pure ()
  else do
    let i ← safeLoop s t n 0
    store s i nul

/-- `DIRSIZ` -/
def dirsiz : Nat := 14

/-- `while(*path == '/') path++` -/
def skipSlashes (path : ι) : Nat → Nat → CharProg ι Nat
  | 0, _ => Prog.panic "kerneltrap"
  | fuel + 1, p => do
      if (← load path p) = '/' then skipSlashes path fuel (p + 1) else pure p

/-- `while(*path != '/' && *path != 0) path++` -/
def elemEnd (path : ι) : Nat → Nat → CharProg ι Nat
  | 0, _ => Prog.panic "kerneltrap"
  | fuel + 1, p => do
      let c ← load path p
      if c ≠ '/' ∧ c ≠ nul then elemEnd path fuel (p + 1) else pure p

/-- `memmove(name, path + s, n)`, for two arrays. -/
def memmove (name path : ι) (s n : Nat) : CharProg ι Unit :=
  Prog.upTo (fun k => do
    let c ← load path (s + k)
    store name k c) n

/-- The copy of the element in `skipelem`. -/
def takeElem (name path : ι) (s len : Nat) : CharProg ι Unit :=
  if dirsiz ≤ len then memmove name path s dirsiz
  else do
    memmove name path s len
    store name len nul

/-- `skipelem(path + p, name)`; `none` is the null pointer. -/
def skipelem (path name : ι) (p : Nat) : CharProg ι (Option Nat) := do
  let s ← skipSlashes path many p
  if (← load path s) = nul then pure none
  else
    let p ← elemEnd path many s
    takeElem name path s (p - s)
    let p ← skipSlashes path many p
    pure (some p)

end

/-- `strncmp(p, q, n)`, from character `i` on. -/
def strncmp (p q : Nat → Char) : Nat → Nat → Int
  | 0, _ => 0
  | n + 1, i =>
      if p i ≠ nul ∧ p i = q i then strncmp p q n (i + 1) else (p i).toNat - (q i).toNat

/-- `namecmp(s, t)` -/
def namecmp (s t : Nat → Char) : Int := strncmp s t dirsiz 0

/-- `strncpy(s, t, n)`, from character `i` on. -/
def strncpy (t : Nat → Char) : Nat → Nat → (Nat → Char) → Nat → Char
  | 0, _, s => s
  | n + 1, i, s =>
      if t i = nul then fun j => if i ≤ j ∧ j < i + (n + 1) then nul else s j
      else strncpy t n (i + 1) (Function.update s i (t i))

/-- The arrays that `kexec` and `namex` use. -/
inductive Arr where
  /-- `"/pgswp"` -/
  | literal
  /-- `swap_path` on the stack, and in the process. -/
  | swapPath
  | procSwapPath
  | pidStr
  /-- `name` of `create` -/
  | name
  deriving DecidableEq, Repr

def Arr.size : Arr → Nat
  | .literal => 7
  | .swapPath => 32
  | .procSwapPath => 20
  | .pidStr => 16
  | .name => 14

/-- The way of `kexec` to the directory entry of its swap file: the first
statements, and the `skipelem` of `namex`. -/
def swapEntry (pid : Nat) : CharProg Arr (Option Nat) := do
  safestrcpy .swapPath .literal 32
  safestrcpy .procSwapPath .swapPath 32
  itoa .pidStr pid 5
  strcat .swapPath .pidStr
  skipelem .swapPath .name 0

/-- The name in a new directory entry: `dirlink` copies it to `de.name`,
which holds anything. -/
def direntName (name de : Nat → Char) : Nat → Char := strncpy name dirsiz 0 de

/-! ## `itoa` -/

section
variable {ι : Type} [DecidableEq ι] {b : ι} {m : Chars ι} {n i : Nat}

theorem digitChar_eq {d : Nat} (h : d < 10) : Char.ofNat (d + 48) = d.digitChar := by
  interval_cases d <;> rfl

/-- The arrays may be used up to `k`. -/
abbrev within (b : ι) (k : Nat) : ι × Nat → Prop := fun a => a.1 = b ∧ a.2 < k

/-- The digit loop writes the digits, last one first. -/
theorem digitLoop_spec {fuel : Nat} (hn : 0 < n) (hfuel : n ≤ fuel) {k : Nat}
    (hk : i + (Nat.toDigits 10 n).length ≤ k) :
    sure (within b k) (digitLoop b fuel n i) ⟨fun i' m' => i' = i + (Nat.toDigits 10 n).length ∧
      m'.front b i' = m.front b i ++ (Nat.toDigits 10 n).reverse ∧ Only b m m',
      fun _ => False, fun _ => False⟩ m := by
  induction fuel generalizing n i m with
  | zero => omega
  | succ fuel ih =>
      have hmod : n % 10 < 10 := Nat.mod_lt n (by decide)
      have hpos : 0 < (Nat.toDigits 10 n).length := Nat.length_toDigits_pos
      unfold digitLoop
      rw [if_neg (by omega), digitChar_eq hmod, sure_store_bind]
      refine ⟨?_, rfl, by dsimp only; omega⟩
      by_cases hlt : n < 10
      · -- the last round: nothing is left of `n`
        have hdig : Nat.toDigits 10 n = [(n % 10).digitChar] := by
          rw [Nat.toDigits_of_lt_base hlt, Nat.mod_eq_of_lt hlt]
        have hzero : n / 10 = 0 := by omega
        have hstop : digitLoop b fuel (n / 10) (i + 1) = pure (i + 1) := by
          rw [hzero]
          cases fuel <;> rfl
        rw [hstop, sure_pure, hdig]
        exact ⟨rfl, front_set, only_set⟩
      · have hsplit := Nat.toDigits_of_base_le (b := 10) (by decide) (Nat.le_of_not_lt hlt)
        have hlen : (Nat.toDigits 10 n).length = (Nat.toDigits 10 (n / 10)).length + 1 := by
          rw [hsplit, List.length_append, List.length_singleton]
        refine (ih (by omega) (by omega) (by omega)).mono (fun i' m' h => ?_) (fun _ h => h) fun _ h => h
        obtain ⟨hi, hfront, honly⟩ := h
        refine ⟨by omega, ?_, only_set.trans honly⟩
        rw [hfront, front_set, hsplit, List.reverse_append, List.append_assoc]
        rfl

theorem digits_spec {k : Nat} (hk : (Nat.toDigits 10 n).length ≤ k) :
    sure (within b k) (digits b n) ⟨fun i m' => i = (Nat.toDigits 10 n).length ∧
      m'.front b i = (Nat.toDigits 10 n).reverse ∧ Only b m m',
      fun _ => False, fun _ => False⟩ m := by
  have hpos : 0 < (Nat.toDigits 10 n).length := Nat.length_toDigits_pos
  unfold digits
  split
  · rename_i h0
    subst h0
    rw [sure_store_bind, sure_pure]
    exact ⟨⟨rfl, front_set, only_set⟩, rfl, by dsimp only; omega⟩
  · refine (digitLoop_spec (by omega) (Nat.le_refl n) (by omega)).mono (fun i m' h => ?_)
      (fun _ h => h) fun _ h => h
    obtain ⟨hi, hfront, honly⟩ := h
    rw [Nat.zero_add] at hi
    exact ⟨hi, hfront, honly⟩

/-- The padding. -/
theorem padLoop_spec {w : Int} {fuel : Nat} (hfuel : w.toNat ≤ i + fuel) {k : Nat}
    (hk : max i w.toNat ≤ k) :
    sure (within b k) (padLoop b w fuel i) ⟨fun i' m' => i' = max i w.toNat ∧
      m'.front b i' = m.front b i ++ List.replicate (w.toNat - i) '0' ∧ Only b m m',
      fun _ => False, fun _ => False⟩ m := by
  induction fuel generalizing i m with
  | zero =>
      have hi : i = max i w.toNat := by omega
      refine sure_pure.mpr ⟨hi, ?_, Only.refl b m⟩
      rw [Nat.sub_eq_zero_of_le (by omega), List.replicate_zero, List.append_nil]
  | succ fuel ih =>
      unfold padLoop
      split
      · rename_i hlt
        rw [sure_store_bind]
        refine ⟨?_, rfl, by dsimp only; omega⟩
        refine (ih (by omega) (by omega)).mono (fun i' m' h => ?_) (fun _ h => h) fun _ h => h
        obtain ⟨hi, hfront, honly⟩ := h
        refine ⟨by omega, ?_, only_set.trans honly⟩
        rw [hfront, front_set, List.append_assoc, show w.toNat - i = w.toNat - (i + 1) + 1 by omega,
          List.replicate_succ]
        rfl
      · have hi : i = max i w.toNat := by omega
        refine sure_pure.mpr ⟨hi, ?_, Only.refl b m⟩
        rw [Nat.sub_eq_zero_of_le (by omega), List.replicate_zero, List.append_nil]

/-- A round of the reversal. -/
theorem swapChars_spec {j l k : Nat} (hj : j < k) (hl : l < k) (hne : j ≠ l) :
    sure (within b k) (swapChars b j l) ⟨fun _ m' => m' b j = m b l ∧ m' b l = m b j ∧
      (∀ x, x ≠ j → x ≠ l → m' b x = m b x) ∧ Only b m m', fun _ => False, fun _ => False⟩ m := by
  unfold swapChars
  rw [sure_load_bind, sure_load_bind, sure_store_bind, sure_store]
  refine ⟨⟨⟨⟨⟨?_, set_self, fun x hx hx' => ?_, only_set.trans only_set⟩, rfl, hl⟩, rfl, hj⟩, rfl, hl⟩,
    rfl, hj⟩
  · rw [set_of_ne hne, set_self]
  · rw [set_of_ne hx', set_of_ne hx]

/-- **The reversal in place.** After `j` rounds the outer `j` characters on
either side have changed places. -/
theorem reverseLoop_spec {k : Nat} (hk : i ≤ k) :
    sure (within b k) (Prog.upTo (fun j => swapChars b j (i - j - 1)) (i / 2))
      ⟨fun _ m' => (∀ x < i, m' b x =
          if x < i / 2 ∨ i - i / 2 ≤ x then m b (i - 1 - x) else m b x) ∧
        m' b i = m b i ∧ Only b m m', fun _ => False, fun _ => False⟩ m := by
  refine sure_upTo (fun j m' => (∀ x < i, m' b x =
      if x < j ∨ i - j ≤ x then m b (i - 1 - x) else m b x) ∧ m' b i = m b i ∧ Only b m m')
    ⟨fun x hx => by rw [if_neg (by omega)], rfl, Only.refl b m⟩ ?_
  intro j m' hj hinv
  obtain ⟨hall, hend, honly⟩ := hinv
  refine (swapChars_spec (by omega) (by omega) (by omega)).mono (fun _ m'' h => ?_) (fun _ h => h)
    fun _ h => h
  obtain ⟨hleft, hright, hrest, honly'⟩ := h
  refine ⟨fun x hx => ?_, ?_, honly.trans honly'⟩
  · by_cases hxl : x = j
    · rw [hxl, hleft, hall _ (by omega), if_neg (by omega), if_pos (by omega)]
      congr 1
      omega
    · by_cases hxr : x = i - j - 1
      · rw [hxr, hright, hall _ (by omega), if_neg (by omega), if_pos (by omega)]
        congr 1
        omega
      · rw [hrest x hxl hxr, hall x hx]
        by_cases hc : x < j ∨ i - j ≤ x
        · rw [if_pos hc, if_pos (by omega)]
        · rw [if_neg hc, if_neg (by omega)]
  · rw [hrest i (by omega) (by omega), hend]

theorem reverse_spec {k : Nat} (hk : i ≤ k) :
    sure (within b k) (Prog.upTo (fun j => swapChars b j (i - j - 1)) (i / 2))
      ⟨fun _ m' => m'.front b i = (m.front b i).reverse ∧ m' b i = m b i ∧ Only b m m',
      fun _ => False, fun _ => False⟩ m := by
  refine (reverseLoop_spec hk).mono (fun _ m' h => ?_) (fun _ h => h) fun _ h => h
  obtain ⟨hall, hend, honly⟩ := h
  refine ⟨?_, hend, honly⟩
  apply List.ext_getElem
  · simp
  · intro x hx hx'
    rw [length_front] at hx
    rw [getElem_front, List.getElem_reverse, getElem_front, length_front, hall x hx]
    split
    · rfl
    · -- the middle of an odd number of characters
      rw [show i - 1 - x = x by omega]

theorem nul_not_mem_numeral {w : Nat} : nul ∉ numeral 10 w n := fun h => by
  obtain ⟨d, hd, he⟩ := mem_numeral (by decide) h
  revert he
  interval_cases d <;> decide

theorem slash_not_mem_numeral {w : Nat} : '/' ∉ numeral 10 w n := fun h => by
  obtain ⟨d, hd, he⟩ := mem_numeral (by decide) h
  revert he
  interval_cases d <;> decide

/-- **`itoa`** writes the decimal digits, padded with zeros on the left, and
a NUL; nothing behind it is touched. -/
theorem itoa_spec (b : ι) (n : Nat) (w : Int) (m : Chars ι) :
    sure (within b ((numeral 10 w.toNat n).length + 1)) (itoa b n w)
      ⟨fun _ m' => m'.Str b (numeral 10 w.toNat n) ∧ Only b m m', fun _ => False, fun _ => False⟩ m := by
  have hlen : (numeral 10 w.toNat n).length = max (Nat.toDigits 10 n).length w.toNat := by
    rw [length_numeral, Nat.max_comm]
  rw [hlen]
  unfold itoa
  refine (digits_spec (by omega)).bind fun i m₁ h₁ => ?_
  obtain ⟨rfl, hfront₁, honly₁⟩ := h₁
  refine (padLoop_spec (by omega) (by omega)).bind fun i m₂ h₂ => ?_
  obtain ⟨rfl, hfront₂, honly₂⟩ := h₂
  rw [sure_store_bind]
  refine ⟨?_, rfl, Nat.lt_succ_self _⟩
  refine (reverse_spec (by omega)).mono (fun _ m₃ h₃ => ?_) (fun _ h => h) fun _ h => h
  obtain ⟨hfront₃, hend, honly₃⟩ := h₃
  refine ⟨⟨?_, ?_, nul_not_mem_numeral⟩, ((honly₁.trans honly₂).trans only_set).trans honly₃⟩
  · rw [hlen, hfront₃, front_congr fun x hx => set_of_ne (by omega), hfront₂, hfront₁,
      List.reverse_append, List.reverse_reverse, List.reverse_replicate]
    rfl
  · rw [hlen, hend, set_self]

/-! ## The other string functions -/

variable {G : ι × Nat → Prop} {l : List Char} {s t : ι}

/-- The array may be used up to and including character `n`. -/
def Upto (G : ι × Nat → Prop) (b : ι) (n : Nat) : Prop := ∀ i, i ≤ n → G (b, i)

omit [DecidableEq ι] in
theorem strEnd_spec {fuel d : Nat} (h : m.Str b l) (hG : Upto G b l.length) (hd : d ≤ l.length)
    (hfuel : l.length < d + fuel) :
    sure G (strEnd b fuel d) ⟨fun d' m' => d' = l.length ∧ m' = m,
      fun _ => False, fun _ => False⟩ m := by
  induction fuel generalizing d with
  | zero => omega
  | succ fuel ih =>
      unfold strEnd
      rw [sure_load_bind]
      refine ⟨?_, hG d hd⟩
      by_cases hlt : d < l.length
      · rw [if_neg (h.ne_nul hlt)]
        exact ih hlt (by omega)
      · have he : d = l.length := by omega
        rw [if_pos (by rw [he]; exact h.stop)]
        exact sure_pure.mpr ⟨he, rfl⟩

/-- The copy loop appends what is left of the string. -/
theorem copyChars_spec {fuel d k : Nat} (hne : s ≠ t) (h : m.Str t l) (hk : k ≤ l.length)
    (hG : Upto G t l.length) (hG' : Upto G s (d + (l.length - k))) (hfuel : l.length < k + fuel) :
    sure G (copyChars s t fuel d k) ⟨fun _ m' =>
      m'.front s (d + (l.length - k)) = m.front s d ++ l.drop k ∧
      m' s (d + (l.length - k)) = nul ∧ Only s m m', fun _ => False, fun _ => False⟩ m := by
  induction fuel generalizing d k m with
  | zero => omega
  | succ fuel ih =>
      unfold copyChars
      rw [sure_load_bind, sure_store_bind]
      refine ⟨⟨?_, hG' d (by omega)⟩, hG k hk⟩
      by_cases hlt : k < l.length
      · rw [if_neg (h.ne_nul hlt)]
        have hsrc : (m.set s d (m t k)).Str t l := h.congr (only_set t hne.symm)
        have hlen : d + 1 + (l.length - (k + 1)) = d + (l.length - k) := by omega
        refine (ih hsrc hlt (by rwa [hlen]) (by omega)).mono (fun _ m' hm => ?_) (fun _ h => h)
          fun _ h => h
        rw [hlen] at hm
        obtain ⟨hfront, hend, honly⟩ := hm
        refine ⟨?_, hend, only_set.trans honly⟩
        rw [hfront, front_set, List.append_assoc, h.at hlt, List.drop_eq_getElem_cons hlt]
        rfl
      · have he : k = l.length := by omega
        subst he
        rw [if_pos h.stop, Nat.sub_self, Nat.add_zero, List.drop_length, List.append_nil, h.stop]
        exact sure_pure.mpr ⟨front_congr fun x hx => set_of_ne (by omega), set_self, only_set⟩

/-- **`strcat`** -/
theorem strcat_spec {l' : List Char} (hne : s ≠ t) (hs : m.Str s l) (ht : m.Str t l')
    (hG : Upto G t l'.length) (hG' : Upto G s (l.length + l'.length))
    (hlen : l.length < many) (hlen' : l'.length < many) :
    sure G (strcat s t) ⟨fun _ m' => m'.Str s (l ++ l') ∧ Only s m m',
      fun _ => False, fun _ => False⟩ m := by
  unfold strcat
  refine (strEnd_spec hs (fun i hi => hG' i (by omega)) (Nat.zero_le _) (by omega)).bind
    fun d m' h => ?_
  obtain ⟨rfl, rfl⟩ := h
  refine (copyChars_spec hne ht (Nat.zero_le _) hG hG' (by omega)).mono (fun _ m₁ h => ?_)
    (fun _ h => h) fun _ h => h
  obtain ⟨hfront, hend, honly⟩ := h
  refine ⟨⟨?_, ?_, ?_⟩, honly⟩
  · rw [List.length_append]
    rw [hs.front] at hfront
    exact hfront
  · rw [List.length_append]
    exact hend
  · intro hmem
    rcases List.mem_append.mp hmem with hmem | hmem
    · exact hs.clean hmem
    · exact ht.clean hmem

theorem safeLoop_spec {n i : Nat} (hne : s ≠ t) (h : m.Str t l) (hi : i ≤ l.length)
    (hG : Upto G t l.length) (hG' : Upto G s l.length) (hn : l.length + 1 < i + n)
    (hfront : m.front s i = l.take i) :
    sure G (safeLoop s t n i) ⟨fun i' m' => i' = l.length + 1 ∧ m'.front s l.length = l ∧
      m' s l.length = nul ∧ Only s m m', fun _ => False, fun _ => False⟩ m := by
  induction n generalizing i m with
  | zero => omega
  | succ n ih =>
      unfold safeLoop
      rw [if_pos (by omega), sure_load_bind, sure_store_bind]
      refine ⟨⟨?_, hG' i hi⟩, hG i hi⟩
      by_cases hlt : i < l.length
      · rw [if_pos (h.ne_nul hlt)]
        have hfront' : (m.set s i (m t i)).front s (i + 1) = l.take (i + 1) := by
          rw [front_set, hfront, h.at hlt, List.take_append_getElem]
        refine (ih (h.congr (only_set t hne.symm)) hlt (by omega) hfront').mono (fun i' m' hm => ?_)
          (fun _ h => h) fun _ h => h
        obtain ⟨hi', hf, hend, honly⟩ := hm
        exact ⟨hi', hf, hend, only_set.trans honly⟩
      · have he : i = l.length := by omega
        subst he
        rw [if_neg (not_not_intro h.stop), h.stop]
        refine sure_pure.mpr ⟨rfl, ?_, set_self, only_set⟩
        rw [front_congr fun x hx => set_of_ne (by omega), hfront, List.take_length]

/-- **`safestrcpy`** of a string that fits. -/
theorem safestrcpy_spec {n : Nat} (hne : s ≠ t) (h : m.Str t l) (hG : Upto G t l.length)
    (hG' : Upto G s (l.length + 1)) (hn : l.length + 1 < n) :
    sure G (safestrcpy s t n) ⟨fun _ m' => m'.Str s l ∧ Only s m m',
      fun _ => False, fun _ => False⟩ m := by
  unfold safestrcpy
  rw [if_neg (by omega)]
  refine (safeLoop_spec hne h (Nat.zero_le _) hG (fun i hi => hG' i (by omega)) (by omega) rfl).bind
    fun i m' hm => ?_
  obtain ⟨rfl, hfront, hend, honly⟩ := hm
  rw [sure_store]
  refine ⟨⟨⟨?_, ?_, h.clean⟩, honly.trans only_set⟩, hG' _ (Nat.le_refl _)⟩
  · rw [front_congr fun x hx => set_of_ne (by omega), hfront]
  · rw [set_of_ne (by omega), hend]

/-! ## `skipelem` -/

omit [DecidableEq ι] in
theorem elemEnd_spec {fuel p : Nat} (h : m.Str b l) (hG : Upto G b l.length) (hp : p ≤ l.length)
    (hslash : ∀ i, p ≤ i → i < l.length → m b i ≠ '/') (hfuel : l.length < p + fuel) :
    sure G (elemEnd b fuel p) ⟨fun p' m' => p' = l.length ∧ m' = m,
      fun _ => False, fun _ => False⟩ m := by
  induction fuel generalizing p with
  | zero => omega
  | succ fuel ih =>
      unfold elemEnd
      rw [sure_load_bind]
      refine ⟨?_, hG p hp⟩
      by_cases hlt : p < l.length
      · rw [if_pos ⟨hslash p (Nat.le_refl p) hlt, h.ne_nul hlt⟩]
        exact ih hlt (fun i hi => hslash i (by omega)) (by omega)
      · have he : p = l.length := by omega
        rw [if_neg (fun hc => hc.2 (by rw [he]; exact h.stop))]
        exact sure_pure.mpr ⟨he, rfl⟩

theorem memmove_spec {p n : Nat} (hne : s ≠ t) (hG : ∀ i < n, G (t, p + i)) (hG' : ∀ i < n, G (s, i)) :
    sure G (memmove s t p n) ⟨fun _ m' => m'.front s n = (List.range n).map (fun i => m t (p + i)) ∧
      Only s m m', fun _ => False, fun _ => False⟩ m := by
  unfold memmove
  refine sure_upTo (fun k m' => m'.front s k = (List.range k).map (fun i => m t (p + i)) ∧
    Only s m m') ⟨rfl, Only.refl s m⟩ ?_
  rintro k m' hk ⟨hfront, honly⟩
  rw [sure_load_bind, sure_store]
  refine ⟨⟨⟨?_, honly.trans only_set⟩, hG' k hk⟩, hG k hk⟩
  rw [front_set, hfront, honly t hne.symm, List.range_succ, List.map_append]
  rfl

/-- The element `e`, cut to `DIRSIZ`. -/
theorem takeElem_spec {p : Nat} {e : List Char} (hne : s ≠ t) (hclean : nul ∉ e)
    (he : (List.range e.length).map (fun i => m t (p + i)) = e) (hG : ∀ i < e.length, G (t, p + i))
    (hG' : ∀ i < dirsiz, G (s, i)) :
    sure G (takeElem s t p e.length) ⟨fun _ m' => cut dirsiz (m' s) = e.take dirsiz ∧ Only s m m',
      fun _ => False, fun _ => False⟩ m := by
  unfold takeElem
  split
  · rename_i hlong
    refine (memmove_spec hne (fun i hi => hG i (by omega)) hG').mono (fun _ m' h => ?_) (fun _ h => h)
      fun _ h => h
    obtain ⟨hfront, honly⟩ := h
    have hlen : (e.take dirsiz).length = dirsiz := List.length_take_of_le hlong
    refine ⟨cut_eq (by omega) ?_ (fun h => hclean (List.mem_of_mem_take h)) fun h => absurd h (by omega),
      honly⟩
    rw [hlen]
    refine hfront.trans ?_
    conv_rhs => rw [← he]
    rw [← List.map_take, List.take_range, Nat.min_eq_left hlong]
  · rename_i hshort
    refine (memmove_spec hne hG fun i hi => hG' i (by omega)).bind fun _ m' h => ?_
    obtain ⟨hfront, honly⟩ := h
    rw [sure_store, List.take_of_length_le (by omega)]
    refine ⟨⟨cut_eq (by omega) ?_ hclean fun _ => set_self, honly.trans only_set⟩, hG' _ (by omega)⟩
    have hkept : (m'.set s e.length nul).front s e.length = m'.front s e.length :=
      front_congr fun x hx => set_of_ne (by omega)
    exact hkept.trans (hfront.trans he)

/-- **`skipelem`** of a path with a single element. -/
theorem skipelem_spec {e : List Char} (hne : s ≠ t) (h : m.Str t ('/' :: e)) (hpos : e ≠ [])
    (hslash : '/' ∉ e) (hG : Upto G t (e.length + 1)) (hG' : ∀ i < dirsiz, G (s, i))
    (hlen : e.length + 1 < many) :
    sure G (skipelem t s 0) ⟨fun r m' => r = some (e.length + 1) ∧
      cut dirsiz (m' s) = e.take dirsiz ∧ Only s m m', fun _ => False, fun _ => False⟩ m := by
  have hfirst : m t 0 = '/' := h.at (Nat.succ_pos _)
  have hat : ∀ i (hi : i < e.length), m t (i + 1) = e[i] := fun i hi => h.at (Nat.succ_lt_succ hi)
  have hchar : ∀ i, 1 ≤ i → i < e.length + 1 → m t i ≠ '/' := by
    intro i hi hi' heq
    obtain ⟨j, rfl⟩ := Nat.exists_eq_add_of_le' hi
    rw [hat j (by omega)] at heq
    exact hslash (heq ▸ List.getElem_mem _)
  have hlen0 : 0 < e.length := List.length_pos_iff.mpr hpos
  have hclean : nul ∉ e := fun hm => h.clean (List.mem_cons_of_mem _ hm)
  unfold skipelem
  -- one slash, and the first character of the element
  have hslashes : sure G (skipSlashes t many 0) ⟨fun p m' => p = 1 ∧ m' = m,
      fun _ => False, fun _ => False⟩ m := by
    rw [show many = 4094 + 1 + 1 from rfl, skipSlashes, sure_load_bind, if_pos hfirst, skipSlashes,
      sure_load_bind, if_neg (hchar 1 (Nat.le_refl 1) (by omega)), sure_pure]
    exact ⟨⟨⟨rfl, rfl⟩, hG _ (by omega)⟩, hG _ (by omega)⟩
  refine hslashes.bind fun p m' hp => ?_
  obtain ⟨rfl, rfl⟩ := hp
  rw [sure_load_bind, if_neg (h.ne_nul (Nat.succ_lt_succ hlen0))]
  refine ⟨?_, hG 1 (by omega)⟩
  refine (elemEnd_spec h hG (Nat.succ_le_succ (Nat.zero_le _)) hchar (by rw [List.length_cons]; omega)).bind
    fun p m' hp => ?_
  obtain ⟨rfl, rfl⟩ := hp
  rw [List.length_cons, Nat.add_sub_cancel]
  have he : (List.range e.length).map (fun i => m' t (1 + i)) = e := by
    apply List.ext_getElem
    · simp
    · intro i hi hi'
      rw [List.getElem_map, List.getElem_range, Nat.add_comm, hat i hi']
  refine (takeElem_spec hne hclean he (fun i hi => hG _ (by omega)) hG').bind fun _ m₁ h₁ => ?_
  obtain ⟨hcut, honly⟩ := h₁
  have hend : m₁ t (e.length + 1) = nul := by
    rw [honly t hne.symm]
    exact h.stop
  rw [show many = 4095 + 1 from rfl, skipSlashes, sure_bind, sure_load_bind,
    if_neg (by rw [hend]; decide)]
  refine ⟨sure_pure.mpr (sure_pure.mpr ⟨rfl, hcut, honly⟩), hG _ (Nat.le_refl _)⟩

end

/-! ## `namecmp` -/

theorem toNat_sub_eq_zero {c d : Char} : ((c.toNat : Int) - d.toNat = 0) ↔ c = d := by
  rw [Int.sub_eq_zero, Int.natCast_inj]
  exact ⟨fun h => Char.ext (UInt32.toNat_inj.mp h), fun h => by rw [h]⟩

/-- `strncmp` compares the strings in the first `n` characters. -/
theorem strncmp_eq_zero_iff (p q : Nat → Char) (n i : Nat) :
    strncmp p q n i = 0 ↔ cut n (fun j => p (i + j)) = cut n fun j => q (i + j) := by
  induction n generalizing i with
  | zero => exact ⟨fun _ => rfl, fun _ => rfl⟩
  | succ n ih =>
      rw [cut_succ, cut_succ]
      unfold strncmp
      by_cases heq : p i = q i
      · rw [← heq]
        by_cases hnul : p i = nul
        · rw [if_neg (fun h => h.1 hnul), if_pos hnul, if_pos hnul]
          exact ⟨fun _ => rfl, fun _ => Int.sub_self _⟩
        · rw [if_pos ⟨hnul, rfl⟩, if_neg hnul, if_neg hnul, ih, List.cons.injEq]
          exact ⟨fun h => ⟨rfl, h⟩, fun h => h.2⟩
      · rw [if_neg (fun h => heq h.2), toNat_sub_eq_zero]
        refine ⟨fun h => absurd h heq, fun h => ?_⟩
        split at h <;> split at h
        · rename_i hp hq
          exact hp.trans hq.symm
        · exact absurd h.symm (List.cons_ne_nil _ _)
        · exact absurd h (List.cons_ne_nil _ _)
        · exact (List.cons.inj h).1

theorem namecmp_eq_zero_iff {p q : Nat → Char} : namecmp p q = 0 ↔ cut dirsiz p = cut dirsiz q := by
  have h := strncmp_eq_zero_iff p q dirsiz 0
  simp only [Nat.zero_add] at h
  exact h

theorem strncpy_below (t : Nat → Char) (n : Nat) {i j : Nat} (s : Nat → Char) (h : j < i) :
    strncpy t n i s j = s j := by
  induction n generalizing i s with
  | zero => rfl
  | succ n ih =>
      unfold strncpy
      split
      · exact if_neg (by omega)
      · rw [ih _ (by omega), Function.update_of_ne (by omega)]

/-- A directory entry holds the name that was copied to it. -/
theorem cut_strncpy (t : Nat → Char) (n i : Nat) (s : Nat → Char) :
    cut n (fun j => strncpy t n i s (i + j)) = cut n fun j => t (i + j) := by
  induction n generalizing i s with
  | zero => rfl
  | succ n ih =>
      rw [cut_succ, cut_succ]
      unfold strncpy
      by_cases hnul : t i = nul
      · simp [hnul]
      · rw [if_neg hnul, strncpy_below _ _ _ (Nat.lt_succ_self i), Function.update_self, ih]

theorem cut_direntName (name de : Nat → Char) : cut dirsiz (direntName name de) = cut dirsiz name := by
  have h := cut_strncpy name dirsiz 0 de
  simp only [Nat.zero_add] at h
  exact h

/-! ## The name of a swap file -/

theorem itoaDigits_eq {fuel n : Nat} (hn : 0 < n) (hfuel : n ≤ fuel) :
    itoaDigits fuel n = (Nat.toDigits 10 n).reverse := by
  induction fuel generalizing n with
  | zero => omega
  | succ fuel ih =>
      unfold itoaDigits
      rw [if_neg (by omega), digitChar_eq (Nat.mod_lt n (by decide))]
      by_cases hlt : n < 10
      · rw [Nat.toDigits_of_lt_base hlt, Nat.mod_eq_of_lt hlt, Nat.div_eq_of_lt hlt]
        cases fuel <;> rfl
      · rw [Nat.toDigits_of_base_le (by decide) (Nat.le_of_not_lt hlt), List.reverse_append,
          ih (by omega) (by omega)]
        rfl

/-- `Fs.itoa` writes numerals. -/
theorem itoa_eq_numeral (n w : Nat) : Xv6.itoa n w = numeral 10 w n := by
  have hdig : (if n = 0 then ['0'] else itoaDigits n n) = (Nat.toDigits 10 n).reverse := by
    split
    · rename_i h
      rw [h]
      rfl
    · exact itoaDigits_eq (by omega) (Nat.le_refl n)
  unfold Xv6.itoa
  rw [hdig, List.reverse_append, List.reverse_reverse, List.reverse_replicate, List.length_reverse]
  rfl

/-- What nine characters keep of a pid. -/
def firstNine (pid : Nat) : Nat := if pid < 10 ^ 9 then pid else pid / 10

/-- The name keeps nine digits. -/
theorem swapName_eq {pid : Nat} (h : pid < 2 ^ 31) :
    swapName pid = "pgswp".toList ++ numeral 10 5 (firstNine pid) := by
  have htake : swapName pid = "pgswp".toList ++ (numeral 10 5 pid).take 9 := by
    rw [swapName, itoa_eq_numeral, List.take_append]
    rfl
  rw [htake, firstNine]
  congr 1
  split
  · rename_i hlt
    have hlen := (Nat.length_toDigits_le_iff (b := 10) (by decide) (by decide : 0 < 9)).mpr hlt
    exact List.take_of_length_le (by rw [length_numeral]; omega)
  · exact take_numeral (by decide) (by decide) (by decide) (by omega) (by omega)

theorem swapName_eq_iff {pid pid' : Nat} (h : pid < 2 ^ 31) (h' : pid' < 2 ^ 31) :
    swapName pid = swapName pid' ↔ firstNine pid = firstNine pid' := by
  rw [swapName_eq h, swapName_eq h', List.append_cancel_left_eq]
  exact ⟨numeral_inj (by decide) (by decide), fun h => by rw [h]⟩

/-- The memory when `kexec` starts: its stack holds anything. -/
def withLiteral (m : Chars Arr) : Chars Arr :=
  Function.update m .literal fun i => "/pgswp".toList.getD i nul

theorem str_literal (m : Chars Arr) : (withLiteral m).Str .literal "/pgswp".toList :=
  ⟨rfl, rfl, by decide⟩

/-- An access in bounds. -/
abbrev inBounds : Arr × Nat → Prop := fun a => a.2 < a.1.size

theorem upto_size {b : Arr} {n : Nat} (h : n < b.size) : Upto inBounds b n :=
  fun _ hi => Nat.lt_of_le_of_lt hi h

/-- **The way to the entry.** Every access is in bounds, and `name` is the
name that the file system model uses. -/
theorem swapEntry_spec {pid : Nat} (h : pid < 2 ^ 31) (m : Chars Arr) :
    sure inBounds (swapEntry pid) ⟨fun r m' => r.isSome = true ∧
      cut dirsiz (m' .name) = swapName pid, fun _ => False, fun _ => False⟩ (withLiteral m) := by
  have hdigits := (Nat.length_toDigits_le_iff (b := 10) (by decide) (by decide : 0 < 10)).mpr
    (by omega : pid < 10 ^ 10)
  have hlen : (numeral 10 (5 : Int).toNat pid).length ≤ 10 := by
    rw [length_numeral]
    exact Nat.max_le.mpr ⟨by decide, hdigits⟩
  unfold swapEntry
  refine (safestrcpy_spec (by decide) (str_literal m) (upto_size (by decide)) (upto_size (by decide))
    (by decide)).bind fun _ m₁ h₁ => ?_
  obtain ⟨hpath₁, honly₁⟩ := h₁
  refine (safestrcpy_spec (by decide) hpath₁ (upto_size (by decide)) (upto_size (by decide))
    (by decide)).bind fun _ m₂ h₂ => ?_
  obtain ⟨-, honly₂⟩ := h₂
  have hpath₂ : m₂.Str .swapPath "/pgswp".toList := hpath₁.congr (honly₂ _ (by decide))
  refine ((itoa_spec .pidStr pid 5 m₂).weaken fun a ha => ?_).bind fun _ m₃ h₃ => ?_
  · show a.2 < a.1.size
    rw [ha.1]
    exact Nat.lt_of_lt_of_le ha.2 (Nat.le_trans (Nat.succ_le_succ hlen) (by decide))
  obtain ⟨hpid, honly₃⟩ := h₃
  have hpath₃ : m₃.Str .swapPath "/pgswp".toList := hpath₂.congr (honly₃ _ (by decide))
  refine (strcat_spec (by decide) hpath₃ hpid (upto_size ?_) (upto_size ?_) (by decide) ?_).bind
    fun _ m₄ h₄ => ?_
  · exact Nat.lt_of_le_of_lt hlen (by decide)
  · exact Nat.lt_of_le_of_lt (Nat.add_le_add_left hlen _) (by decide)
  · exact Nat.lt_of_le_of_lt hlen (by decide)
  have hpath₄ : m₄.Str .swapPath ('/' :: ("pgswp".toList ++ numeral 10 5 pid)) := h₄.1
  have hsize : ("pgswp".toList ++ numeral 10 5 pid).length + 1 ≤ 16 := by
    rw [List.length_append]
    exact Nat.succ_le_succ (Nat.add_le_add_left hlen 5)
  have hname : ∀ i < dirsiz, inBounds (Arr.name, i) := fun i hi => hi
  refine (skipelem_spec (by decide) hpath₄ (List.cons_ne_nil _ _) ?_ (upto_size ?_) hname ?_).mono (fun r m₅ h₅ => ?_) (fun _ h => h) fun _ h => h
  · intro hmem
    rcases List.mem_append.mp hmem with hmem | hmem
    · revert hmem
      decide
    · exact slash_not_mem_numeral hmem
  · exact Nat.lt_of_le_of_lt hsize (by decide)
  · exact Nat.lt_of_le_of_lt hsize (by decide)
  · refine ⟨by rw [h₅.1]; rfl, ?_⟩
    rw [h₅.2.1, swapName, itoa_eq_numeral]
    rfl

/-- A run of `kexec` up to the directory entry: it comes back with a name,
and no access left its array. -/
def Builds (pid : Nat) (m t : Chars Arr) : Prop :=
  ∃ p acc, swapEntry pid (withLiteral m) = .ret (some p) t acc ∧ ∀ a ∈ acc, a.2 < a.1.size

theorem builds {pid : Nat} (h : pid < 2 ^ 31) (m : Chars Arr) :
    ∃ t, Builds pid m t ∧ cut dirsiz (t .name) = swapName pid := by
  obtain ⟨r, t, acc, hrun, hsome, hcut⟩ := (swapEntry_spec h m).exists_ret
  obtain ⟨p, rfl⟩ := Option.isSome_iff_exists.mp hsome
  exact ⟨t, ⟨p, acc, hrun, ((swapEntry_spec h m).of_ret hrun).2⟩, hcut⟩

/-- The file of one process answers to the name of another one. -/
theorem same_entry_iff {pid pid' : Nat} (h : pid < 2 ^ 31) (h' : pid' < 2 ^ 31) (m m' : Chars Arr)
    (de : Nat → Char) :
    ∃ t t', Builds pid m t ∧ Builds pid' m' t' ∧
      (namecmp (t .name) (direntName (t' .name) de) = 0 ↔ firstNine pid = firstNine pid') := by
  obtain ⟨t, hb, hcut⟩ := builds h m
  obtain ⟨t', hb', hcut'⟩ := builds h' m'
  refine ⟨t, t', hb, hb', ?_⟩
  rw [namecmp_eq_zero_iff, cut_direntName, hcut, hcut', swapName_eq_iff h h']

/-- **WHEN TWO SWAP FILES ARE DIFFERENT.** `itoa` writes the digits of any
number, padded to any width, and stays within them and the NUL. The paths
of two processes are built within their arrays; the names in the directory
differ exactly if the pids differ in what nine characters keep of them. -/
theorem swap_names_differ_iff {pid pid' : Nat} (h : 0 < pid ∧ pid < 2 ^ 31)
    (h' : 0 < pid' ∧ pid' < 2 ^ 31) (m m' : Chars Arr) (de : Nat → Char) :
    (∀ (n : Nat) (w : Int) (t : Chars Arr), ∃ t' acc, itoa .pidStr n w t = .ret () t' acc ∧
      t'.Str .pidStr (numeral 10 w.toNat n) ∧
      ∀ a ∈ acc, a.1 = .pidStr ∧ a.2 ≤ (numeral 10 w.toNat n).length) ∧
    ∃ t t', Builds pid m t ∧ Builds pid' m' t' ∧
      (namecmp (t .name) (direntName (t' .name) de) ≠ 0 ↔ firstNine pid ≠ firstNine pid') := by
  constructor
  · intro n w t
    have hspec := itoa_spec .pidStr n w t
    obtain ⟨_, t', acc, hrun, hstr, -⟩ := hspec.exists_ret
    refine ⟨t', acc, hrun, hstr, fun a ha => ?_⟩
    obtain ⟨harr, hlt⟩ := (hspec.of_ret hrun).2 a ha
    exact ⟨harr, Nat.le_of_lt_succ hlt⟩
  · obtain ⟨t, t', hb, hb', hiff⟩ := same_entry_iff h.2 h'.2 m m' de
    exact ⟨t, t', hb, hb', not_congr hiff⟩

/-- Processes 1 and 2. -/
theorem swap_names_differ_small : ∃ t t' : Chars Arr, Builds 1 (fun _ _ => nul) t ∧
    Builds 2 (fun _ _ => nul) t' ∧ namecmp (t .name) (direntName (t' .name) fun _ => nul) ≠ 0 := by
  obtain ⟨-, t, t', hb, hb', hiff⟩ := swap_names_differ_iff
    (by decide : 0 < 1 ∧ 1 < 2 ^ 31) (by decide : 0 < 2 ∧ 2 < 2 ^ 31) (fun _ _ => nul)
    (fun _ _ => nul) fun _ => nul
  exact ⟨t, t', hb, hb', hiff.mpr (by decide)⟩

/-- Processes 1000000000 and 1000000001 have one swap file,
`/pgswp100000000`. -/
theorem swap_names_collide : ∃ t t' : Chars Arr, Builds 1000000000 (fun _ _ => nul) t ∧
    Builds 1000000001 (fun _ _ => nul) t' ∧
    namecmp (t .name) (direntName (t' .name) fun _ => nul) = 0 := by
  obtain ⟨t, t', hb, hb', hiff⟩ := same_entry_iff
    (by decide : 1000000000 < 2 ^ 31) (by decide : 1000000001 < 2 ^ 31) (fun _ _ => nul)
    (fun _ _ => nul) fun _ => nul
  exact ⟨t, t', hb, hb', hiff.mpr (by decide)⟩

end SwapName

end OsSuite.Xv6
