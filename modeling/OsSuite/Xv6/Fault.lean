import OsSuite.Xv6.Proc

/-!
# Fault — demand paging, eviction and user access

`evict_page` and `handle_pgfault` of `vm.c`, the page-fault branch of
`usertrap`, and the three ways memory is reached: by user instructions
and by `copyin` and `copyout`. The console output is left out.
-/

namespace OsSuite.Xv6

/-! ## Swapping out -/

/-- `swap_allocated_slot(p)`; `none` is -1. -/
def swapAllocatedSlot : PProg (Option Nat) := do
  let st ← Prog.get
  match st.p.freeSlot with
  | none => pure none
  | some i =>
      modifyProc fun p => p.takeSlot i
      pure (some i)

/-- `swap_write_page(p, slot, page_content)`; `pa` is `none` for a null
`page_content`, from which `writei` starts to copy as soon as it has
found the first block. -/
def swapWritePage (slot : Nat) (pa : Option Frame) : PProg Int := do
  let st ← Prog.get
  match st.p.swapFile, pa with
  | none, _ => pure (-1)
  | some ino, some f =>
      let r := st.sys.fs.writei ino (fun i => (st.sys.mem f).page (pgoff i)) (slot * 4096) 4096
      modifyFs fun _ => r.1
      pure (if r.2 = 4096 then 0 else -1)
  | some ino, none =>
      if Fs.writeiAccepts (st.sys.fs.inode ino) (slot * 4096) 4096 then
        let b := st.sys.fs.bmap ino (slot * 4096 / 1024)
        if b.1 then Prog.panic "kerneltrap"
        else
          modifyFs fun _ => b.2
          pure (-1)
      else pure (-1)

/-- `resident_pages[i] = resident_pages[num_resident - 1]; num_resident--` -/
def removeResident (i : Nat) : PProg Unit := do
  let st ← Prog.get
  let v := st.p.residentPages i
  match st.p.residentAt (st.p.numResident - 1) with
  | none => Prog.panic "kerneltrap"
  | some e =>
      modifyProc fun p => { p with
        residentPages := Function.update p.residentPages i e
        numResident := p.numResident - 1 }
      Prog.tell (.removed v.va v.seq v.dirty)

/-- The dirty branch of `evict_page`. -/
def swapOut (root : Frame) (va : Nat) : PProg Unit := do
  match ← swapAllocatedSlot with
  | none =>
      let st ← Prog.get
      Prog.tell (.swapFull st.p.slots)
      kexit (-1)
  | some slot =>
      let pa ← onSys (walkaddr root va)
      let st ← Prog.get
      Prog.tell (.swapOut slot st.p.slots
        (st.p.swapFile.map fun ino => (st.sys.fs.inode ino).size))
      if (← swapWritePage slot pa) ≠ 0 then
        let st ← Prog.get
        Prog.tell (.swapFail st.sys.fs.nfree)
        kexit (-1)
      else modifyProc fun p => p.recordSwapped va slot

/-- `evict_page(p)` -/
def evictPage : PProg Int := do
  let st ← Prog.get
  Prog.tell (.evict st.p.numResident)
  let i := st.p.victim
  let e := st.p.residentPages i
  if e.dirty then swapOut st.p.pagetable e.va else pure ()
  onSys (uvmunmap st.p.pagetable e.va 1 true)
  removeResident i
  let st' ← Prog.get
  Prog.tell (.evicted st.p.pagetable e.va st.p.numResident st'.p.numResident st.sys st'.sys)
  pure 0

/-! ## Faulting in -/

/-- `add_to_resident_set(p, va, swapped)` -/
def addToResidentSet (va : Nat) (swapped : Bool) : PProg Unit := do
  let st ← Prog.get
  if maxResidentPages ≤ st.p.numResident then kexit (-1)
  else
    let seq := wrap32 (st.p.nextFifoSeq + 1)
    match st.p.setResident st.p.numResident ⟨va, seq, swapped⟩ with
    | none => Prog.panic "kerneltrap"
    | some p =>
        modifyProc fun _ => { p with nextFifoSeq := seq, numResident := p.numResident + 1 }
        Prog.tell (.inserted va seq swapped)

/-- The allocation at the head of `handle_pgfault`. -/
def allocOrEvict : PProg (Option Frame) := do
  match ← onSys kalloc with
  | some f => pure (some f)
  | none =>
      if (← evictPage) < 0 then
        setkilled
        pure none
      else
        match ← onSys kalloc with
        | none => Prog.panic "kalloc failed after eviction"
        | some f => pure (some f)

/-- Fill a frame by `readi`. -/
def fillFrame (f : Frame) (b : Page) : Prog Sys Event Unit :=
  Prog.modify fun s => s.setCell f (.bytes b)

/-- Page `slot` of a swap file. -/
def swapPage (ip : Inode) (slot : Nat) : Page := fun i => ip.data (slot * 4096 + i.val)

/-- Case 1 of `handle_pgfault`: the page comes from the swap file. -/
def swapIn (root : Frame) (va slot : Nat) (f : Frame) : PProg Bool := do
  let st ← Prog.get
  match st.p.swapFile with
  | none => Prog.panic "kerneltrap"
  | some ino =>
      let ip := st.sys.fs.inode ino
      if Fs.readi ip (slot * 4096) 4096 ≠ 4096 then Prog.panic "swap_read_page failed"
      else
        onSys (fillFrame f (swapPage ip slot))
        onSys (mapOrFree root va f Perm.ur)

/-- Case 2 of `handle_pgfault`: a page of the executable, of the heap or
of the stack. An address that is none of these is rejected before the
frame is put to any use, and the frame is not given back. -/
def loadPage (root : Frame) (va : Nat) (f : Frame) : PProg Bool := do
  let st ← Prog.get
  if ¬ va < st.p.heapStart ∧ ¬ (st.p.heapStart ≤ va ∧ va < st.p.sz) then pure false
  else
    match st.p.execIp with
    | none => Prog.panic "kerneltrap"
    | some ino =>
        let ip := st.sys.fs.inode ino
        match segFor ip st.sys.stack va with
        | some ph =>
            if Fs.readi ip (ph.fileOffset va) (ph.fileSize va) ≠ ph.fileSize va then
              onSys (kfree f)
              pure false
            else
              onSys (fillFrame f (filePage ip (ph.fileOffset va) (ph.fileSize va)))
              onSys (mapOrFree root va f { flags2perm ph.flags with u := true })
        | none =>
            if va < st.p.sz then onSys (mapOrFree root va f Perm.ur)
            else if u64 (st.p.regs.sp + 18446744073709547520) ≤ va then
              onSys (mapOrFree root va f Perm.ur)
            else
              onSys (kfree f)
              pure false

/-- The swap lookup of `handle_pgfault`. -/
def takeSwapped (va : Nat) : PProg (Option Nat) := do
  let st ← Prog.get
  modifyProc fun _ => (st.p.takeSwapped va).2
  pure (st.p.takeSwapped va).1

/-- The two cases of `handle_pgfault`; the result tells whether a page
was mapped. -/
def fetchPage (root : Frame) (va : Nat) (slot : Option Nat) (f : Frame) : PProg Bool :=
  match slot with
  | some slot => swapIn root va slot f
  | none => loadPage root va f

/-- `handle_pgfault(pagetable, va, access_type)` -/
def handlePgfault (root : Frame) (va : Nat) : PProg Int :=
  if maxva ≤ va then pure (-1)
  else do
    let va := pgrounddown va
    match ← allocOrEvict with
    | none => pure (-1)
    | some f =>
        onSys (zeroFrame f)
        let st ← Prog.get
        Prog.tell (.fault va st.p.sz st.p.heapStart (st.p.swappedIdx va).isSome)
        let slot ← takeSwapped va
        if ← fetchPage root va slot f then
          addToResidentSet va slot.isSome
          pure 0
        else pure (-1)

/-! ## The trap -/

/-- The loop of `usertrap` that sets the software dirty flag. -/
def setDirty (va : Nat) : PProg Unit := do
  let st ← Prog.get
  match st.p.residentIdx va with
  | none => pure ()
  | some i =>
      modifyProc fun p => p.markDirty i
      Prog.tell (.marked (st.p.residentPages i).seq)

/-- The test for a minor fault at the head of that branch: a store to a
page that is mapped without `PTE_W`. -/
def minorFault (root : Frame) (acc : Access) (va : Nat) :
    Prog Sys Event (Option (Frame × Nat × Pte)) := do
  match ← walk root va false with
  | none => pure none
  | some (pt, i) =>
      let pte ← readPte pt i
      pure (if acc = .store ∧ pte.v ∧ ¬ pte.perm.w then some (pt, i, pte) else none)

/-- The page-fault branch of `usertrap`. -/
def pageFault (acc : Access) (va : Nat) : PProg Unit := do
  let st ← Prog.get
  match ← onSys (minorFault st.p.pagetable acc va) with
  | some (pt, i, pte) =>
      if st.p.heapStart ≤ pgrounddown va ∨ st.p.phdrWritable (pgrounddown va) then
        onSys (writePte pt i { pte with perm := { pte.perm with w := true } })
        setDirty (pgrounddown va)
      else setkilled
  | none =>
      if (← handlePgfault st.p.pagetable va) < 0 then setkilled else pure ()

/-- `usertrap` for `scause` 12, 13 and 15. -/
def usertrapFault (acc : Access) (va : Nat) : PProg Unit :=
  if maxva ≤ va then kexit (-1)
  else do
    pageFault acc va
    let st ← Prog.get
    if st.p.killed then kexit (-1) else pure ()

/-! ## Access to user memory -/

/-- Store one byte into a frame. -/
def setByte (f : Frame) (off : Fin 4096) (b : UInt8) : Prog Sys Event Unit :=
  Prog.modify fun s => s.setCell f (.bytes (Function.update (s.mem f).page off b))

/-- A user instruction that touches the byte at `va`, retried after every
trap; `none` when it did not get through in the given number of tries. A
store stores `b`. -/
def userAccess (acc : Access) (va : Nat) (b : UInt8) : Nat → PProg (Option UInt8)
  | 0 => pure none
  | n + 1 => do
      let st ← Prog.get
      let e := leaf st.sys.mem st.p.pagetable va
      if va < maxva ∧ e.permits acc then
        if acc = .store then
          onSys (setByte e.pa (pgoff va) b)
          pure (some b)
        else pure (some ((st.sys.mem e.pa).page (pgoff va)))
      else
        usertrapFault acc va
        userAccess acc va b n

/-- The lookup at the head of `copyin` and `copyout`: the frame of a
page, faulted in if need be. -/
def userFrame (root : Frame) (va0 : Nat) : PProg (Option Frame) := do
  match ← onSys (walkaddr root va0) with
  | some pa => pure (some pa)
  | none =>
      if (← handlePgfault root va0) ≠ 0 then pure none
      else onSys (walkaddr root va0)

/-- The loop of `copyin`: whether it got through, and the bytes it
copied, latest first. Every round copies at least one byte, so `len`
rounds are enough. -/
def copyinLoop (root : Frame) : Nat → Nat → Nat → List UInt8 → PProg (Bool × List UInt8)
  | 0, _, len, got => pure (len == 0, got)
  | fuel + 1, srcva, len, got =>
      if len = 0 then pure (true, got)
      else do
        match ← userFrame root (pgrounddown srcva) with
        | none => pure (false, got)
        | some pa =>
            let st ← Prog.get
            let n := min (4096 - srcva % 4096) len
            let bytes := (List.range n).map fun i => (st.sys.mem pa).page (pgoff (srcva + i))
            copyinLoop root fuel (pgrounddown srcva + 4096) (len - n) (bytes.reverse ++ got)

/-- `copyin(pagetable, dst, srcva, len)`: what was copied to `dst`, and
whether 0 was returned. -/
def copyin (root : Frame) (srcva len : Nat) : PProg (Bool × List UInt8) := do
  let r ← copyinLoop root len srcva len []
  pure (r.1, r.2.reverse)

/-- `memmove(pa + off, src, n)` within one page. -/
def storeBytes (pa : Frame) (off : Nat) (src : List UInt8) : Prog Sys Event Unit :=
  Prog.modify fun s => s.setCell pa (.bytes fun i =>
    if off ≤ i.val then (src[i.val - off]?).getD ((s.mem pa).page i) else (s.mem pa).page i)

/-- The loop of `copyout`; the second result is what was not copied. -/
def copyoutLoop (root : Frame) : Nat → Nat → List UInt8 → PProg (Bool × List UInt8)
  | 0, _, src => pure (src.isEmpty, src)
  | fuel + 1, dstva, src =>
      if src.isEmpty then pure (true, [])
      else if maxva ≤ pgrounddown dstva then pure (false, src)
      else do
        match ← userFrame root (pgrounddown dstva) with
        | none => pure (false, src)
        | some pa =>
            let st ← Prog.get
            if (leaf st.sys.mem root (pgrounddown dstva)).perm.w then
              let n := 4096 - dstva % 4096
              onSys (storeBytes pa (dstva % 4096) (src.take n))
              copyoutLoop root fuel (pgrounddown dstva + 4096) (src.drop n)
            else pure (false, src)

/-- `copyout(pagetable, dstva, src, len)`: whether 0 was returned, and
the part of `src` that was not copied. -/
def copyout (root : Frame) (dstva : Nat) (src : List UInt8) : PProg (Bool × List UInt8) :=
  copyoutLoop root src.length dstva src

end OsSuite.Xv6
