import OsSuite.Xv6.PageTableLife
import OsSuite.Xv6.Tables

/-!
# Space — an address space and the moves of the pager

What the pager does to one process, without frames and page-table pages.
A `Space` has the pages that are mapped, the process record and the
files; `Step` are the moves of `evict_page`, `handle_pgfault` and the
write trap, each with what is observed of it. Nothing is said about when
a move is made: an eviction may come at any point.

`Paging` shows that the code makes these moves and no others; what is
to be proved about the memory of a process is proved here, once per
move.
-/

namespace OsSuite.Xv6

open Table

/-- The user pages of a page table. -/
def imgOf (m : Mem) (root : Frame) (va : Nat) : Option (Perm × Page) :=
  if va % 4096 = 0 ∧ va < trapframeVa then pageAt m root va else none

/-- The address space of one process. -/
structure Space where
  /-- The pages that are mapped, by address. -/
  img : Nat → Option (Perm × Page)
  /-- The last-level table for an address exists. -/
  low : Nat → Bool
  p : Proc
  fs : Fs
  /-- Uninitialised bytes of a kernel stack. -/
  stack : Nat → UInt8

/-- The address space behind the page table of a process. -/
def St.space (st : St) : Space where
  img := imgOf st.sys.mem st.p.pagetable
  low va := (leafAddr st.sys.mem st.p.pagetable va).isSome
  p := st.p
  fs := st.sys.fs
  stack := st.sys.stack

/-- The unmapping of one page by `evict_page`: one frame is freed if the
page was mapped, and no other entry of the table changes. -/
structure Unmaps (root : Frame) (va : Nat) (s s' : Sys) : Prop where
  other : ∀ b, b % 4096 = 0 → b < maxva → b ≠ va → leaf s'.mem root b = leaf s.mem root b
  gone : (leaf s'.mem root va).v = false
  freed : (leaf s.mem root va).v = true → s'.freelist = (leaf s.mem root va).pa :: s.freelist

namespace Space

def map (a : Space) (va : Nat) (x : Perm × Page) : Space :=
  { a with img := Function.update a.img va (some x) }

def unmap (a : Space) (va : Nat) : Space := { a with img := Function.update a.img va none }

def withProc (a : Space) (p : Proc) : Space := { a with p := p }

def withFs (a : Space) (fs : Fs) : Space := { a with fs := fs }

/-- **What Case 2 of `handle_pgfault` maps** at a page that is not swapped
out: bytes of the executable, or zeroes; `none` when it maps nothing. -/
def load (a : Space) (va : Nat) : Option (Perm × Page) :=
  if ¬ va < a.p.heapStart ∧ ¬ (a.p.heapStart ≤ va ∧ va < a.p.sz) then none
  else
    match a.p.execIp with
    | none => none
    | some ino =>
        let ip := a.fs.inode ino
        match segFor ip a.stack va with
        | some ph =>
            if Fs.readi ip (ph.fileOffset va) (ph.fileSize va) ≠ ph.fileSize va then none
            else some ({ flags2perm ph.flags with u := true },
              filePage ip (ph.fileOffset va) (ph.fileSize va))
        | none =>
            if va < a.p.sz then some (Perm.ur, fun _ => 0)
            else if u64 (a.p.regs.sp + 18446744073709547520) ≤ va then
              some (Perm.ur, fun _ => 0)
            else none

section
variable {a : Space} {va ino : Nat}

/-- A page covered by a segment of the executable. -/
theorem load_seg (hrange : va < a.p.heapStart ∨ va < a.p.sz) (hip : a.p.execIp = some ino)
    {ph : ProgHdr} (hseg : segFor (a.fs.inode ino) a.stack va = some ph)
    (hread : Fs.readi (a.fs.inode ino) (ph.fileOffset va) (ph.fileSize va) = ph.fileSize va) :
    a.load va = some ({ flags2perm ph.flags with u := true },
      filePage (a.fs.inode ino) (ph.fileOffset va) (ph.fileSize va)) := by
  unfold load
  rw [if_neg (by omega), hip]
  simp only [hseg, hread, ne_eq, not_true_eq_false, if_false]

/-- A page of the heap or the stack. -/
theorem load_zero (hrange : va < a.p.heapStart ∨ va < a.p.sz) (hip : a.p.execIp = some ino)
    (hseg : segFor (a.fs.inode ino) a.stack va = none)
    (h : va < a.p.sz ∨ u64 (a.p.regs.sp + 18446744073709547520) ≤ va) :
    a.load va = some (Perm.ur, fun _ => 0) := by
  unfold load
  rw [if_neg (by omega), hip]
  simp only [hseg]
  split
  · rfl
  · rename_i hsz
    rw [if_pos (h.resolve_left hsz)]

end

/-- The lookup of `handle_pgfault` for page `va`, as observed. -/
def faultEvent (a : Space) (va : Nat) : Event :=
  .fault va a.p.sz a.p.heapStart (a.p.swappedIdx va).isSome

/-- The insertion into the resident list, as observed. -/
def insertEvent (a : Space) (va : Nat) (swapped : Bool) : Event :=
  .inserted va (wrap32 (a.p.nextFifoSeq + 1)) swapped

/-- The removal of the victim, as observed. -/
def removeEvent (a : Space) : Event :=
  .removed a.p.victimPage.va a.p.victimPage.seq a.p.victimPage.dirty

/-- The write to the swap file, as observed. -/
def swapOutEvent (a : Space) (slot : Nat) : Event :=
  .swapOut slot a.p.slots (a.p.swapFile.map fun ino => (a.fs.inode ino).size)

/-- A completed eviction between two machine states, as observed. -/
def evictEvent (a : Space) (s s' : Sys) : Event :=
  .evicted a.p.pagetable a.p.victimPage.va a.p.numResident (a.p.numResident - 1) s s'

/-- The victim is unmapped between these machine states. -/
structure Evicts (a : Space) (s s' : Sys) : Prop where
  nonempty : 0 < a.p.numResident
  mapped : (a.img a.p.victimPage.va).isSome = (leaf s.mem a.p.pagetable a.p.victimPage.va).v
  unmaps : Unmaps a.p.pagetable a.p.victimPage.va s s'

/-- **One move.** -/
inductive Step : Space → List Event → Space → Prop where
  /-- The process is marked killed. -/
  | kill (a : Space) : Step a [] (a.withProc { a.p with killed := true })
  /-- Table pages were added. -/
  | grow (a : Space) (low : Nat → Bool) (h : ∀ va, a.low va = true → low va = true) :
      Step a [] { a with low := low }
  /-- A clean page is dropped. -/
  | discard {a : Space} {s s' : Sys} (he : a.Evicts s s')
      (hclean : a.p.victimPage.dirty = false) :
      Step a [.evict a.p.numResident, a.removeEvent, a.evictEvent s s']
        ((a.unmap a.p.victimPage.va).withProc a.p.dropVictim)
  /-- A dirty page is written to the swap file and dropped. -/
  | swapOut {a : Space} {s s' : Sys} {slot ino : Nat} {x : Perm × Page} {fs : Fs}
      (he : a.Evicts s s') (hdirty : a.p.victimPage.dirty = true)
      (hslot : a.p.freeSlot = some slot) (hfile : a.p.swapFile = some ino)
      (hpage : a.img a.p.victimPage.va = some x)
      (hwrite : a.fs.writei ino (fun i => x.2 (pgoff i)) (slot * 4096) 4096 = (fs, 4096)) :
      Step a [.evict a.p.numResident, a.swapOutEvent slot, a.removeEvent, a.evictEvent s s']
        (((a.unmap a.p.victimPage.va).withFs fs).withProc
          ((a.p.takeSlot slot).recordSwapped a.p.victimPage.va slot).dropVictim)
  /-- A page comes back from the swap file. -/
  | swapIn {a : Space} {va i ino : Nat} (hal : va % 4096 = 0) (hva : va < trapframeVa)
      (hi : a.p.swappedIdx va = some i) (hfile : a.p.swapFile = some ino)
      (hread : Fs.readi (a.fs.inode ino) ((a.p.swappedPages i).slot * 4096) 4096 = 4096)
      (himg : a.img va = none) (hlow : a.low va = true)
      (hroom : a.p.numResident < maxResidentPages) :
      Step a [a.faultEvent va, a.insertEvent va true]
        ((a.map va (Perm.ur, swapPage (a.fs.inode ino) (a.p.swappedPages i).slot)).withProc
          ((a.p.takeSwapped va).2.insertResident va true))
  /-- A page is loaded or zero-filled. -/
  | load {a : Space} {va : Nat} {x : Perm × Page} (hal : va % 4096 = 0) (hva : va < trapframeVa)
      (hi : a.p.swappedIdx va = none) (hx : a.load va = some x) (himg : a.img va = none)
      (hlow : a.low va = true) (hroom : a.p.numResident < maxResidentPages) :
      Step a [a.faultEvent va, a.insertEvent va false]
        ((a.map va x).withProc (a.p.insertResident va false))
  /-- A fault that maps nothing. -/
  | reject {a : Space} {va : Nat} (hi : a.p.swappedIdx va = none) : Step a [a.faultEvent va] a
  /-- A page is taken off the swapped list and not mapped: there is no
  table for it and no memory for one, or something is mapped there. -/
  | lost {a : Space} {va i : Nat} (hi : a.p.swappedIdx va = some i)
      (h : a.low va = false ∨ (a.img va).isSome) :
      Step a [a.faultEvent va] (a.withProc (a.p.takeSwapped va).2)
  /-- The write trap on a page that is not in the resident list. -/
  | minor {a : Space} {va : Nat} {x : Perm × Page} (hx : a.img va = some x)
      (hw : x.1.w = false) (hok : a.p.heapStart ≤ va ∨ a.p.phdrWritable va = true)
      (hi : a.p.residentIdx va = none) :
      Step a [] (a.map va ({ x.1 with w := true }, x.2))
  /-- The write trap on a resident page. -/
  | dirty {a : Space} {va i : Nat} {x : Perm × Page} (hx : a.img va = some x)
      (hw : x.1.w = false) (hok : a.p.heapStart ≤ va ∨ a.p.phdrWritable va = true)
      (hi : a.p.residentIdx va = some i) :
      Step a [.marked (a.p.residentPages i).seq]
        ((a.map va ({ x.1 with w := true }, x.2)).withProc (a.p.markDirty i))

/-- Any number of moves. -/
inductive Moves : Space → List Event → Space → Prop where
  | refl (a : Space) : Moves a [] a
  | step {a a' : Space} {w : List Event} : Step a w a' → Moves a w a'
  | trans {a a' a'' : Space} {w w' : List Event} : Moves a w a' → Moves a' w' a'' →
      Moves a (w ++ w') a''

/-- One byte is stored. -/
def store (a : Space) (va : Nat) (x : Perm × Page) (b : UInt8) : Space :=
  a.map (pgrounddown va) (x.1, Function.update x.2 (pgoff va) b)

/-- Moves of the pager and stores of the user or of `copyout`. -/
inductive Uses : Space → List Event → Space → Prop where
  | moves {a a' : Space} {w : List Event} : Moves a w a' → Uses a w a'
  | store {a : Space} {va : Nat} {x : Perm × Page} (hx : a.img (pgrounddown va) = some x)
      (hu : x.1.u = true) (hw : x.1.w = true) (b : UInt8) : Uses a [] (a.store va x b)
  | trans {a a' a'' : Space} {w w' : List Event} : Uses a w a' → Uses a' w' a'' →
      Uses a (w ++ w') a''

/-- A user instruction at `va`, with the byte it delivers; `b` is what a
store stores. `none` means that it did not get through. -/
inductive Accessed (acc : Access) (va : Nat) (b : UInt8) :
    Space → List Event → Option UInt8 → Space → Prop where
  | load {a a' : Space} {w : List Event} {x : Perm × Page} (hacc : acc ≠ .store)
      (hm : Moves a w a') (hx : a'.img (pgrounddown va) = some x) (hu : x.1.u = true) :
      Accessed acc va b a w (some (x.2 (pgoff va))) a'
  | store {a a' : Space} {w : List Event} {x : Perm × Page} (hacc : acc = .store)
      (hm : Moves a w a') (hx : a'.img (pgrounddown va) = some x) (hu : x.1.u = true)
      (hw : x.1.w = true) : Accessed acc va b a w (some b) (a'.store va x b)
  | stuck {a a' : Space} {w : List Event} (hm : Moves a w a') : Accessed acc va b a w none a'

/-- What `kexit` does to an address space. -/
def exited (a : Space) (status : Int) : Space where
  img := a.img
  low := a.low
  p := { a.p with swapFile := none, xstate := status, state := .zombie }
  fs := match a.p.swapFile with
    | none => a.fs
    | some ino => a.fs.itrunc ino
  stack := a.stack

/-- **The last move** before a process exits inside the pager. -/
inductive Last : Space → List Event → Space → Prop where
  | done (a : Space) : Last a [] a
  /-- No slot for a dirty victim. -/
  | swapFull {a : Space} (hpos : 0 < a.p.numResident) (hslot : a.p.freeSlot = none) :
      Last a [.evict a.p.numResident, .swapFull a.p.slots] a
  /-- The write to the swap file failed. -/
  | swapFail {a : Space} {slot : Nat} {src : Option Page} {fs : Fs} {r : Int}
      (hpos : 0 < a.p.numResident) (hslot : a.p.freeSlot = some slot)
      (hwrite : SwapWrite a.fs slot src a.p.swapFile fs r) :
      Last a [.evict a.p.numResident, a.swapOutEvent slot, .swapFail fs.nfree]
        ((a.withFs fs).withProc (a.p.takeSlot slot))
  /-- The resident list is full. -/
  | full {a : Space} {va : Nat} {x : Perm × Page} (hal : va % 4096 = 0) (hva : va < trapframeVa)
      (hx : (a.p.swappedIdx va).isSome ∨ a.load va = some x) (himg : a.img va = none)
      (hroom : maxResidentPages ≤ a.p.numResident) :
      Last a [a.faultEvent va] ((a.map va x).withProc (a.p.takeSwapped va).2)

/-! ## Invariants of the moves -/

/-- **What every move preserves holds along all moves**, as long as the
observations satisfy `A`. -/
theorem Moves.inv {A : Event → Prop} {I : Space → Prop}
    (hI : ∀ a w a', Step a w a' → (∀ e ∈ w, A e) → I a → I a') {a a' : Space} {w : List Event}
    (h : Moves a w a') (hw : ∀ e ∈ w, A e) (ha : I a) : I a' := by
  induction h with
  | refl a => exact ha
  | step hs => exact hI _ _ _ hs hw ha
  | trans _ _ ih₁ ih₂ =>
      exact ih₂ (fun e he => hw e (List.mem_append_right _ he))
        (ih₁ (fun e he => hw e (List.mem_append_left _ he)) ha)

/-- The same with what is observed. -/
theorem Moves.observed {A G : Event → Prop} {I : Space → Prop}
    (hI : ∀ a w a', Step a w a' → (∀ e ∈ w, A e) → I a → I a' ∧ ∀ e ∈ w, G e) {a a' : Space}
    {w : List Event} (h : Moves a w a') (hw : ∀ e ∈ w, A e) (ha : I a) :
    I a' ∧ ∀ e ∈ w, G e := by
  induction h with
  | refl a => exact ⟨ha, fun _ he => nomatch he⟩
  | step hs => exact hI _ _ _ hs hw ha
  | trans _ _ ih₁ ih₂ =>
      obtain ⟨h₁, g₁⟩ := ih₁ (fun e he => hw e (List.mem_append_left _ he)) ha
      obtain ⟨h₂, g₂⟩ := ih₂ (fun e he => hw e (List.mem_append_right _ he)) h₁
      exact ⟨h₂, fun e he => (List.mem_append.mp he).elim (g₁ e) (g₂ e)⟩

@[simp] theorem map_self (a : Space) (va : Nat) (x : Perm × Page) :
    (a.map va x).img va = some x := Function.update_self ..

theorem map_ne (a : Space) {va b : Nat} (h : b ≠ va) (x : Perm × Page) :
    (a.map va x).img b = a.img b := Function.update_of_ne h ..

theorem unmap_ne (a : Space) {va b : Nat} (h : b ≠ va) : (a.unmap va).img b = a.img b :=
  Function.update_of_ne h ..

end Space

end OsSuite.Xv6
