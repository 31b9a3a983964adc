import OsSuite.Xv6.PageTable
import OsSuite.Lib.Table

/-!
# Proc — `struct proc` and the paging tables in it

The fields of `proc.h` that the pager reads or writes. The two paging
tables are counted arrays with swap-with-last deletion (`Lib/Table`).

`num_resident` is a signed counter and `evict_page` does not check that
the list is non-empty, so the code can index `resident_pages` at `-1` and
below. The array lies right behind `swap_slots` in the struct: entry `-1`
IS `swap_slots[56..59]`, entry `-15` is `swap_slots[0..3]`. `residentAt`
and `setResident` follow that layout; further down lie `swap_file` and
`exec_ip`, and a run that gets there has no meaning any more (`none`).
-/

namespace OsSuite.Xv6

open Table

structure ResidentPage where
  va : Nat
  seq : Int
  dirty : Bool
  deriving DecidableEq, Repr

structure SwappedPage where
  va : Nat
  slot : Nat
  deriving DecidableEq, Repr

/-- `enum procstate` -/
inductive ProcState where
  | unused | used | sleeping | runnable | running | zombie
  deriving DecidableEq, Repr

/-- The saved registers that kernel code reads or sets. -/
structure Trapframe where
  epc : Nat
  sp : Nat
  a0 : Nat
  a1 : Nat
  deriving DecidableEq, Repr

structure Proc where
  state : ProcState
  killed : Bool
  xstate : Int
  pid : Nat
  parent : Option Nat
  /-- `p == initproc` -/
  isInit : Bool
  sz : Nat
  /-- 0 is the null pointer. -/
  pagetable : Frame
  /-- The trapframe page; 0 is the null pointer. -/
  trapframe : Frame
  regs : Trapframe
  heapStart : Nat
  execIp : Option Nat
  /-- The inode behind `swap_file`. -/
  swapFile : Option Nat
  swapSlots : Nat → Int
  residentPages : Nat → ResidentPage
  swappedPages : Nat → SwappedPage
  numResident : Int
  nextFifoSeq : Int
  numSwapped : Nat
  numPhdrs : Nat
  /-- The bytes of `phdrs[16]`. -/
  phdrs : Nat → UInt8

/-- `MAX_SWAP_PAGES` -/
def maxSwapPages : Nat := 60

/-- `MAX_RESIDENT_PAGES` -/
def maxResidentPages : Int := 35000

/-- Signed 32-bit wrap-around. -/
def wrap32 (n : Int) : Int := (n + 2147483648) % 4294967296 - 2147483648

namespace Proc

/-- `resident_pages[i]` -/
def residentAt (p : Proc) (i : Int) : Option ResidentPage :=
  if 0 ≤ i then some (p.residentPages i.toNat)
  else if -15 ≤ i then
    let k := (60 + 4 * i).toNat
    let word := fun j => (p.swapSlots j % 4294967296).toNat
    some ⟨word k + 4294967296 * word (k + 1), p.swapSlots (k + 2), p.swapSlots (k + 3) != 0⟩
  else none

/-- `resident_pages[i] = e` -/
def setResident (p : Proc) (i : Int) (e : ResidentPage) : Option Proc :=
  if 0 ≤ i then some { p with residentPages := Function.update p.residentPages i.toNat e }
  else if -15 ≤ i then
    let k := (60 + 4 * i).toNat
    some { p with swapSlots := fun j =>
      if j = k then wrap32 (e.va % 4294967296 : Nat)
      else if j = k + 1 then wrap32 (e.va / 4294967296 : Nat)
      else if j = k + 2 then e.seq
      else if j = k + 3 then (if e.dirty then 1 else 0)
      else p.swapSlots j }
  else none

/-- The victim scan of `evict_page`: the index of the smallest `seq`,
0 when the list is empty. -/
def victim (p : Proc) : Nat := argmin ResidentPage.seq p.residentPages p.numResident.toNat

/-- The scan of `swap_allocated_slot`. -/
def freeSlot (p : Proc) : Option Nat := firstIdx (· == 0) p.swapSlots maxSwapPages

/-- `swap_slots[slot] = 1` -/
def takeSlot (p : Proc) (slot : Nat) : Proc :=
  { p with swapSlots := Function.update p.swapSlots slot 1 }

/-- The first entry of `swapped_pages` for a page. -/
def swappedIdx (p : Proc) (va : Nat) : Option Nat :=
  firstIdx (fun e => e.va == va) p.swappedPages p.numSwapped

/-- The swap lookup of `handle_pgfault`: an entry that is found is taken
out of the table and its slot is freed. -/
def takeSwapped (p : Proc) (va : Nat) : Option Nat × Proc :=
  match p.swappedIdx va with
  | none => (none, p)
  | some i =>
      let slot := (p.swappedPages i).slot
      (some slot, { p with
        swappedPages := swapRemove p.swappedPages p.numSwapped i
        numSwapped := p.numSwapped - 1
        swapSlots := Function.update p.swapSlots slot 0 })

/-- The table update of `evict_page` after a swap-out. -/
def recordSwapped (p : Proc) (va slot : Nat) : Proc :=
  { p with
    swappedPages := Function.update p.swappedPages p.numSwapped ⟨va, slot⟩
    numSwapped := p.numSwapped + 1 }

/-- The resident entry `usertrap` marks dirty: the first one for the
page, if there is one. -/
def residentIdx (p : Proc) (va : Nat) : Option Nat :=
  firstIdx (fun e => e.va == va) p.residentPages p.numResident.toNat

/-- `resident_pages[i].dirty = 1` -/
def markDirty (p : Proc) (i : Nat) : Proc :=
  { p with
    residentPages := Function.update p.residentPages i
      { p.residentPages i with dirty := true } }

/-- `phdrs[i]` -/
def phdr (p : Proc) (i : Nat) : ProgHdr := ProgHdr.decode fun k => p.phdrs (56 * i + k)

/-- The search of `usertrap` through the saved headers, which does not
ask for `ELF_PROG_LOAD`: whether the first header that spans the page is
writable. -/
def phdrWritable (p : Proc) (va : Nat) : Bool :=
  match firstIdx (fun ph => ph.spans va) p.phdr p.numPhdrs with
  | none => false
  | some i => (p.phdr i).flags.testBit 1

/-- The live resident entries, in array order. -/
def residents (p : Proc) : List ResidentPage := live p.residentPages p.numResident.toNat

/-- The live swapped entries, in array order. -/
def swapped (p : Proc) : List SwappedPage := live p.swappedPages p.numSwapped

/-- The slots recorded for swapped-out pages. -/
def slots (p : Proc) : List Nat := p.swapped.map SwappedPage.slot

end Proc

/-! ## A process with the machine under it -/

structure St where
  sys : Sys
  p : Proc

/-- Code that runs on behalf of one process. -/
abbrev PProg (α : Type) := Prog St Event α

/-- Page-table and allocator code, called from a process. -/
def onSys {α : Type} (x : Prog Sys Event α) : PProg α :=
  Prog.zoom St.sys (fun t st => { st with sys := t }) x

def modifyProc (f : Proc → Proc) : PProg Unit := Prog.modify fun st => { st with p := f st.p }

def modifyFs (f : Fs → Fs) : PProg Unit :=
  Prog.modify fun st => { st with sys := { st.sys with fs := f st.sys.fs } }

/-- What `kexit(status)` does to the process and its swap file. -/
def St.exited (st : St) (status : Int) : St where
  sys := match st.p.swapFile with
    | none => st.sys
    | some ino => { st.sys with fs := st.sys.fs.itrunc ino }
  p := { st.p with swapFile := none, xstate := status, state := .zombie }

/-- `kexit(status)` -/
def kexit {α : Type} (status : Int) : PProg α := do
  let st ← Prog.get
  if st.p.isInit then Prog.panic "init exiting"
  else Prog.exit fun st => st.exited status

/-- `setkilled(p)` -/
def setkilled : PProg Unit := modifyProc fun p => { p with killed := true }

end OsSuite.Xv6
