import Mathlib

/-!
# Riscv — addresses, page-table entries and memory pages

The Sv39 vocabulary of `riscv.h` and `memlayout.h`. An address is a
`Nat`; the places where 64-bit arithmetic can wrap say so. A physical
page is named by its page number (`Frame`): `PA2PTE` and `PTE2PA` only
ever move page-aligned addresses, and address 0 is frame 0, which the
allocator never hands out.

A page of memory is 4096 bytes (`Page`). The kernel also reads pages as
arrays of 512 page-table entries. `Cell` keeps a page in the form it was
last written in and converts on demand, so that reading a data page as a
page table is a meaningful (and meaningfully wrong) thing to do.
-/

namespace OsSuite.Xv6

/-- A physical page number. -/
abbrev Frame := Nat

/-- `MAXVA`: one beyond the highest user virtual address. -/
def maxva : Nat := 274877906944

/-- `TRAMPOLINE = MAXVA - PGSIZE`. -/
def trampolineVa : Nat := 274877902848

/-- `TRAPFRAME = TRAMPOLINE - PGSIZE`. -/
def trapframeVa : Nat := 274877898752

/-- Reduction of a sum to a `uint64`. -/
def u64 (x : Nat) : Nat := x % 18446744073709551616

/-- `PGROUNDUP` -/
def pgroundup (sz : Nat) : Nat := u64 (sz + 4095) / 4096 * 4096

/-- `PGROUNDDOWN` -/
def pgrounddown (a : Nat) : Nat := a / 4096 * 4096

/-- `PX(level, va)`: the 9-bit table index of `va` at a level. -/
def px (level va : Nat) : Nat := va / 2 ^ (12 + 9 * level) % 512

/-- The 12-bit offset of an address within its page. -/
def pgoff (a : Nat) : Fin 4096 := ⟨a % 4096, Nat.mod_lt _ (by decide)⟩

/-- The permission bits `PTE_R`, `PTE_W`, `PTE_X`, `PTE_U`. -/
structure Perm where
  r : Bool
  w : Bool
  x : Bool
  u : Bool
  deriving DecidableEq, Repr

/-- A page-table entry: `PTE_V`, the permissions and `PTE2PA`. -/
structure Pte where
  v : Bool
  perm : Perm
  pa : Frame
  deriving DecidableEq, Repr

def Perm.none : Perm := ⟨false, false, false, false⟩

/-- `PTE_U | PTE_R`, the permissions of a page that traps on write. -/
def Perm.ur : Perm := ⟨true, false, false, true⟩

/-- `pte & (PTE_R|PTE_W|PTE_X)` is non-zero. -/
def Perm.rwx (p : Perm) : Bool := p.r || p.w || p.x

/-- The all-zero entry. -/
def Pte.zero : Pte := ⟨false, Perm.none, 0⟩

/-- A pointer to the next level: `PA2PTE(pagetable) | PTE_V`. -/
def Pte.table (f : Frame) : Pte := ⟨true, Perm.none, f⟩

@[simp] theorem Pte.zero_v : Pte.zero.v = false := rfl

@[simp] theorem Pte.table_v (f : Frame) : (Pte.table f).v = true := rfl

@[simp] theorem Pte.table_pa (f : Frame) : (Pte.table f).pa = f := rfl

/-- What `freewalk` takes for a pointer to a lower table. -/
def Pte.isTable (e : Pte) : Bool := e.v && !e.perm.rwx

/-- The three kinds of user access; `scause` is 13, 15 and 12. -/
inductive Access where
  | load | store | fetch
  deriving DecidableEq, Repr

/-- **The hardware check** of a leaf. A leaf with `W` but not `R`, or
with none of `R`, `W`, `X`, faults on every access. -/
def Pte.permits (e : Pte) : Access → Bool
  | .load => e.v && e.perm.u && e.perm.r
  | .store => e.v && e.perm.u && e.perm.w && e.perm.r
  | .fetch => e.v && e.perm.u && e.perm.x && (!e.perm.w || e.perm.r)

/-! ## Pages as bytes and as tables -/

/-- The contents of a page. -/
abbrev Page := Fin 4096 → UInt8

/-- `n` bytes as a little-endian number. -/
def leWord (b : Nat → UInt8) (off : Nat) : Nat → Nat
  | 0 => 0
  | n + 1 => (b off).toNat + 256 * leWord b (off + 1) n

/-- The fields of a 64-bit entry. -/
def Pte.ofWord (w : Nat) : Pte :=
  ⟨w.testBit 0, ⟨w.testBit 1, w.testBit 2, w.testBit 3, w.testBit 4⟩,
    w / 1024 % 4503599627370496⟩

/-- The 64-bit entry with these fields. -/
def Pte.toWord (e : Pte) : Nat :=
  e.v.toNat + 2 * e.perm.r.toNat + 4 * e.perm.w.toNat + 8 * e.perm.x.toNat
    + 16 * e.perm.u.toNat + 1024 * e.pa

/-- A physical page, in the form it was last written in. -/
inductive Cell where
  | bytes (b : Page)
  | ptes (e : Nat → Pte)

/-- The page as bytes. -/
def Cell.page : Cell → Page
  | .bytes b => b
  | .ptes e => fun i => UInt8.ofNat ((e (i.val / 8)).toWord / 256 ^ (i.val % 8))

/-- Entry `i` of the page as a page table. -/
def Cell.pte : Cell → Nat → Pte
  | .bytes b, i => Pte.ofWord (leWord (fun j => b (pgoff j)) (8 * i) 8)
  | .ptes e, i => e i

/-- Store entry `i`. -/
def Cell.setPte (c : Cell) (i : Nat) (p : Pte) : Cell :=
  .ptes (Function.update c.pte i p)

/-- `memset(page, b, PGSIZE)` -/
def Cell.fill (b : UInt8) : Cell := .bytes fun _ => b

@[simp] theorem Cell.pte_setPte (c : Cell) (i : Nat) (p : Pte) (j : Nat) :
    (c.setPte i p).pte j = if j = i then p else c.pte j := by
  simp [Cell.setPte, Cell.pte, Function.update_apply]

/-- A zeroed page is an empty page table. -/
@[simp] theorem Cell.pte_fill_zero (i : Nat) : (Cell.fill 0).pte i = Pte.zero := by
  have hz : ∀ n off, leWord (fun _ => 0) off n = 0 := by
    intro n
    induction n with
    | zero => intro off; rfl
    | succ n ih => intro off; simp [leWord, ih]
  simp only [Cell.fill, Cell.pte, hz]
  rfl

/-! ## Rounding -/

theorem px_lt (level va : Nat) : px level va < 512 := Nat.mod_lt _ (by decide)

/-- Below `MAXVA` only the lower half of the root is used. -/
theorem px_two_lt {va : Nat} (h : va < maxva) : px 2 va < 256 := by
  unfold maxva at h
  simp only [px, Nat.reduceMul, Nat.reduceAdd, Nat.reducePow]
  omega

/-- The page with these three indices. -/
def vaOf (i j k : Nat) : Nat := i * 1073741824 + j * 2097152 + k * 4096

theorem px_vaOf {i j k : Nat} (hi : i < 256) (hj : j < 512) (hk : k < 512) :
    px 2 (vaOf i j k) = i ∧ px 1 (vaOf i j k) = j ∧ px 0 (vaOf i j k) = k ∧
      vaOf i j k % 4096 = 0 ∧ vaOf i j k < maxva := by
  simp only [px, vaOf, maxva, Nat.reduceMul, Nat.reduceAdd, Nat.reducePow]
  omega

theorem pgrounddown_aligned (a : Nat) : pgrounddown a % 4096 = 0 := by
  unfold pgrounddown; omega

theorem pgrounddown_le (a : Nat) : pgrounddown a ≤ a := by
  unfold pgrounddown; omega

theorem pgrounddown_add_pgoff (a : Nat) : pgrounddown a + (pgoff a).val = a := by
  simp only [pgrounddown, pgoff]; omega

theorem pgrounddown_of_aligned {a : Nat} (h : a % 4096 = 0) : pgrounddown a = a := by
  unfold pgrounddown; omega

theorem le_pgroundup {sz : Nat} (hsz : sz ≤ trapframeVa) : sz ≤ pgroundup sz := by
  unfold trapframeVa at hsz
  unfold pgroundup u64
  omega

theorem pgroundup_aligned (sz : Nat) : pgroundup sz % 4096 = 0 := by
  unfold pgroundup; omega

theorem pgroundup_le_trapframe {sz : Nat} (hsz : sz ≤ trapframeVa) :
    pgroundup sz ≤ trapframeVa := by
  unfold trapframeVa at *
  unfold pgroundup u64
  omega

/-- The three indices determine an aligned address. -/
theorem eq_of_px_eq {a b : Nat} (ha : a % 4096 = 0) (hb : b % 4096 = 0) (ha' : a < maxva)
    (hb' : b < maxva) (h0 : px 0 a = px 0 b) (h1 : px 1 a = px 1 b) (h2 : px 2 a = px 2 b) :
    a = b := by
  unfold maxva at *
  simp only [px, Nat.reduceMul, Nat.reduceAdd, Nat.reducePow] at *
  omega

end OsSuite.Xv6
