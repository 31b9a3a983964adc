import Mathlib

/-!
# Decode — programs that read bytes

A decoder is handed a pointer and reads bytes at offsets from it. Where it
reads next may depend on what it has read. `eval` is what it returns on a
memory and `reads` where it has been; memory is a total function, since a
program may well read past the end of what it was given.

`Fits n m d` says that `d` stays below `n` on the memory `m`. It is
computed along the structure of the program (`fits_bind`, `fits_bytes`),
so the reach of a decoder is a calculation, not a search. A decoder that
fits depends on nothing else (`Fits.reads_eq`).
-/

namespace OsSuite

/-- A program that reads bytes. -/
inductive Decode (α : Type) where
  | ret (a : α)
  | read (o : Nat) (k : UInt8 → Decode α)

namespace Decode

variable {α β : Type}

def bind : Decode α → (α → Decode β) → Decode β
  | ret a, f => f a
  | read o k, f => read o fun b => (k b).bind f

instance : Monad Decode where
  pure := ret
  bind := bind

/-- What the program returns. -/
def eval (m : Nat → UInt8) : Decode α → α
  | ret a => a
  | read o k => eval m (k (m o))

/-- The offsets it reads. -/
def reads (m : Nat → UInt8) : Decode α → List Nat
  | ret _ => []
  | read o k => o :: reads m (k (m o))

def byte (o : Nat) : Decode UInt8 := read o ret

/-- The `n` bytes at `o`. -/
def bytes (o : Nat) : Nat → Decode (List UInt8)
  | 0 => pure []
  | n + 1 => do
      let b ← byte o
      let bs ← bytes (o + 1) n
      pure (b :: bs)

/-- The number in network byte order that `bs` are. -/
def ofBytes (bs : List UInt8) : Nat := bs.foldl (fun a b => 256 * a + b.toNat) 0

/-- The number of `n` bytes in network byte order at `o`. -/
def be (o n : Nat) : Decode Nat := do
  let bs ← bytes o n
  pure (ofBytes bs)

section
variable {m : Nat → UInt8} {d : Decode α} {f : α → Decode β}

@[simp] theorem eval_pure (a : α) : (pure a : Decode α).eval m = a := rfl

@[simp] theorem eval_bind : (d >>= f).eval m = (f (d.eval m)).eval m := by
  induction d with
  | ret a => rfl
  | read o k ih => exact ih (m o)

@[simp] theorem eval_byte (o : Nat) : (byte o).eval m = m o := rfl

@[simp] theorem eval_bytes (o n : Nat) : (bytes o n).eval m = (List.range' o n).map m := by
  induction n generalizing o with
  | zero => rfl
  | succ n ih =>
      rw [bytes, eval_bind, eval_bind, ih (o + 1), List.range'_succ]
      rfl

@[simp] theorem eval_be (o n : Nat) :
    (be o n).eval m = ofBytes ((List.range' o n).map m) := by
  rw [be, eval_bind, eval_bytes, eval_pure]

@[simp] theorem reads_pure (a : α) : (pure a : Decode α).reads m = [] := rfl

@[simp] theorem reads_bind : (d >>= f).reads m = d.reads m ++ (f (d.eval m)).reads m := by
  induction d with
  | ret a => rfl
  | read o k ih => exact congrArg (o :: ·) (ih (m o))

end

/-! ## How far a program reads -/

/-- On the memory `m` the program stays below `n`. -/
def Fits (n : Nat) (m : Nat → UInt8) (d : Decode α) : Prop := ∀ o ∈ d.reads m, o < n

section
variable {n : Nat} {m m' : Nat → UInt8} {d : Decode α} {f : α → Decode β}

@[simp] theorem fits_pure (a : α) : Fits n m (pure a : Decode α) := fun _ ho => nomatch ho

@[simp] theorem fits_bind : Fits n m (d >>= f) ↔ Fits n m d ∧ Fits n m (f (d.eval m)) := by
  simp only [Fits, reads_bind, List.mem_append]
  exact ⟨fun h => ⟨fun o ho => h o (.inl ho), fun o ho => h o (.inr ho)⟩,
    fun h o ho => ho.elim (h.1 o) (h.2 o)⟩

@[simp] theorem fits_byte (o : Nat) : Fits n m (byte o) ↔ o < n := by
  simp [Fits, byte, reads]

@[simp] theorem fits_bytes (o k : Nat) : Fits n m (bytes o k) ↔ k = 0 ∨ o + k ≤ n := by
  induction k generalizing o with
  | zero => simp [bytes]
  | succ k ih =>
      rw [bytes, fits_bind, fits_bind, fits_byte, ih (o + 1)]
      simp only [fits_pure, and_true]
      omega

@[simp] theorem fits_be (o k : Nat) : Fits n m (be o k) ↔ k = 0 ∨ o + k ≤ n := by
  simp [be]

/-- **Nothing else matters.** A program that stays below `n` does the same
on every memory that agrees below `n`. -/
theorem Fits.reads_eq (h : Fits n m d) (hm : ∀ o, o < n → m' o = m o) :
    d.eval m' = d.eval m ∧ d.reads m' = d.reads m := by
  induction d with
  | ret a => exact ⟨rfl, rfl⟩
  | read o k ih =>
      have ho : m' o = m o := hm o (h o List.mem_cons_self)
      have hk : Fits n m (k (m o)) := fun x hx => h x (List.mem_cons_of_mem o hx)
      simp only [eval, reads, ho]
      exact ⟨(ih (m o) hk).1, congrArg (o :: ·) (ih (m o) hk).2⟩

theorem Fits.congr (h : Fits n m d) (hm : ∀ o, o < n → m' o = m o) : Fits n m' d := by
  intro o ho
  rw [(h.reads_eq hm).2] at ho
  exact h o ho

end

end Decode

end OsSuite
