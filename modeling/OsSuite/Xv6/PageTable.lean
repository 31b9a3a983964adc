import OsSuite.Xv6.Kalloc

/-!
# PageTable — the page-table code of `vm.c`

`walk`, `mappages`, `uvmunmap` and their callers, over page-table pages
that live in physical memory like any other page. The address of an entry
is the pair of the table's frame and the index in it.

Loops over addresses count their rounds: a round handles one page.
-/

namespace OsSuite.Xv6

abbrev Mem := Frame → Cell

/-- The hardware's walk: the address of the entry for `va`, where all
tables on the way exist. -/
def leafAddr (m : Mem) (root : Frame) (va : Nat) : Option (Frame × Nat) :=
  if ((m root).pte (px 2 va)).v then
    if ((m ((m root).pte (px 2 va)).pa).pte (px 1 va)).v then
      some (((m ((m root).pte (px 2 va)).pa).pte (px 1 va)).pa, px 0 va)
    else none
  else none

/-- The entry for `va`; all zero where there is no table. -/
def leaf (m : Mem) (root : Frame) (va : Nat) : Pte :=
  match leafAddr m root va with
  | some (pt, i) => (m pt).pte i
  | none => Pte.zero

/-- `pagetable[i]` -/
def readPte (pt : Frame) (i : Nat) : Prog Sys Event Pte := fun s =>
  .ret ((s.mem pt).pte i) s []

/-- `pagetable[i] = e` -/
def writePte (pt : Frame) (i : Nat) (e : Pte) : Prog Sys Event Unit :=
  Prog.modify fun s => s.setCell pt ((s.mem pt).setPte i e)

/-- The loop of `walk`, from a level down to level 0. -/
def walkFrom (va : Nat) (alloc : Bool) : Nat → Frame → Prog Sys Event (Option (Frame × Nat))
  | 0, pt => pure (some (pt, px 0 va))
  | level + 1, pt => do
      let pte ← readPte pt (px (level + 1) va)
      if pte.v then walkFrom va alloc level pte.pa
      else if !alloc then pure none
      else do
        match ← kalloc with
        | none => pure none
        | some f =>
            zeroFrame f
            writePte pt (px (level + 1) va) (Pte.table f)
            walkFrom va alloc level f

/-- `walk(pagetable, va, alloc)` -/
def walk (root : Frame) (va : Nat) (alloc : Bool) : Prog Sys Event (Option (Frame × Nat)) :=
  if maxva ≤ va then Prog.panic "walk" else walkFrom va alloc 2 root

/-- `walkaddr(pagetable, va)`; `none` is the null address. -/
def walkaddr (root : Frame) (va : Nat) : Prog Sys Event (Option Frame) :=
  if maxva ≤ va then pure none
  else do
    match ← walk root va false with
    | none => pure none
    | some (pt, i) =>
        let pte ← readPte pt i
        if !pte.v then pure none
        else if !pte.perm.u then pure none
        else pure (some pte.pa)

/-- The loop of `mappages`. -/
def mapLoop (root : Frame) (perm : Perm) : Nat → Nat → Frame → Prog Sys Event Int
  | 0, _, _ => pure 0
  | n + 1, a, pa => do
      match ← walk root a true with
      | none => pure (-1)
      | some (pt, i) =>
          let pte ← readPte pt i
          if pte.v then pure (-1)
          else
            writePte pt i ⟨true, perm, pa⟩
            mapLoop root perm n (a + 4096) (pa + 1)

/-- `mappages(pagetable, va, size, pa, perm)` -/
def mappages (root : Frame) (va size : Nat) (pa : Frame) (perm : Perm) : Prog Sys Event Int :=
  if va % 4096 ≠ 0 then Prog.panic "mappages: va not aligned"
  else if size % 4096 ≠ 0 then Prog.panic "mappages: size not aligned"
  else if size = 0 then Prog.panic "mappages: size"
  else mapLoop root perm (size / 4096) va pa

/-- `if(mappages(...) != 0) { kfree(mem); ... }`: whether the page `mem`
was mapped. -/
def mapOrFree (root : Frame) (va : Nat) (mem : Frame) (perm : Perm) : Prog Sys Event Bool := do
  if (← mappages root va 4096 mem perm) ≠ 0 then
    kfree mem
    pure false
  else pure true

/-- `uvmcreate()` -/
def uvmcreate : Prog Sys Event (Option Frame) := do
  match ← kalloc with
  | none => pure none
  | some f =>
      zeroFrame f
      pure (some f)

/-- The loop of `uvmunmap`. -/
def unmapLoop (root : Frame) (doFree : Bool) : Nat → Nat → Prog Sys Event Unit
  | 0, _ => pure ()
  | n + 1, a => do
      match ← walk root a false with
      | none => unmapLoop root doFree n (a + 4096)
      | some (pt, i) =>
          let pte ← readPte pt i
          if !pte.v then unmapLoop root doFree n (a + 4096)
          else
            if doFree then kfree pte.pa
            writePte pt i Pte.zero
            unmapLoop root doFree n (a + 4096)

/-- `uvmunmap(pagetable, va, npages, do_free)` -/
def uvmunmap (root : Frame) (va npages : Nat) (doFree : Bool) : Prog Sys Event Unit :=
  if va % 4096 ≠ 0 then Prog.panic "uvmunmap: not aligned"
  else unmapLoop root doFree npages va

/-- A page count that passes through an `int` on its way to a `uint64`. -/
def intCount (n : Nat) : Nat :=
  if n % 4294967296 < 2147483648 then n % 4294967296
  else 18446744069414584320 + n % 4294967296

/-- `uvmdealloc(pagetable, oldsz, newsz)` -/
def uvmdealloc (root : Frame) (oldsz newsz : Nat) : Prog Sys Event Nat :=
  if oldsz ≤ newsz then pure oldsz
  else do
    if pgroundup newsz < pgroundup oldsz then
      uvmunmap root (pgroundup newsz) (intCount ((pgroundup oldsz - pgroundup newsz) / 4096)) true
    pure newsz

/-- The loop of `uvmalloc`. -/
def allocLoop (root : Frame) (oldsz newsz : Nat) (xperm : Perm) : Nat → Nat → Prog Sys Event Nat
  | 0, _ => pure newsz
  | n + 1, a => do
      match ← kalloc with
      | none =>
          let _ ← uvmdealloc root a oldsz
          pure 0
      | some mem =>
          zeroFrame mem
          if ← mapOrFree root a mem xperm then allocLoop root oldsz newsz xperm n (a + 4096)
          else
            let _ ← uvmdealloc root a oldsz
            pure 0

/-- `uvmalloc(pagetable, oldsz, newsz, xperm)`; `xperm` here includes
`PTE_R|PTE_U`. -/
def uvmalloc (root : Frame) (oldsz newsz : Nat) (xperm : Perm) : Prog Sys Event Nat :=
  if newsz < oldsz then pure oldsz
  else
    let oldsz := pgroundup oldsz
    allocLoop root oldsz newsz xperm ((newsz - oldsz + 4095) / 4096) oldsz

/-- `freewalk(pagetable)`. The recursion follows whatever looks like a
pointer to a table; `fuel` bounds its depth by the kernel stack. -/
def freewalk : Nat → Frame → Prog Sys Event Unit
  | 0, _ => Prog.panic "kerneltrap"
  | fuel + 1, pt => do
      Prog.upTo (fun i => do
        let pte ← readPte pt i
        if pte.isTable then
          freewalk fuel pte.pa
          writePte pt i Pte.zero
        else pure ()) 512
      kfree pt

/-- Calls of `freewalk` that fit on a kernel stack. -/
def stackDepth : Nat := 40

/-- `uvmfree(pagetable, sz)` -/
def uvmfree (root : Frame) (sz : Nat) : Prog Sys Event Unit := do
  if 0 < sz then uvmunmap root 0 (pgroundup sz / 4096) true
  freewalk stackDepth root

/-- The error exit of `uvmcopy` at page `i`. -/
def copyFail (new : Frame) (i : Nat) : Prog Sys Event Int := do
  uvmunmap new 0 (i / 4096) true
  pure (-1)

/-- The loop of `uvmcopy`. -/
def copyLoop (old new : Frame) : Nat → Nat → Prog Sys Event Int
  | 0, _ => pure 0
  | n + 1, i => do
      match ← walk old i false with
      | none => copyLoop old new n (i + 4096)
      | some (pt, j) =>
          let pte ← readPte pt j
          if !pte.v then copyLoop old new n (i + 4096)
          else do
            match ← kalloc with
            | none => copyFail new i
            | some mem =>
                Prog.modify fun s => s.setCell mem (.bytes (s.mem pte.pa).page)
                if ← mapOrFree new i mem pte.perm then copyLoop old new n (i + 4096)
                else copyFail new i

/-- `uvmcopy(old, new, sz)` -/
def uvmcopy (old new : Frame) (sz : Nat) : Prog Sys Event Int :=
  copyLoop old new ((sz + 4095) / 4096) 0

/-- `uvmclear(pagetable, va)` -/
def uvmclear (root : Frame) (va : Nat) : Prog Sys Event Unit := do
  match ← walk root va false with
  | none => Prog.panic "uvmclear"
  | some (pt, i) =>
      let pte ← readPte pt i
      writePte pt i { pte with perm := { pte.perm with u := false } }

/-- The loop of `ulazymalloc`: entries are marked, not made valid. -/
def lazyLoop (root : Frame) (xperm : Perm) : Nat → Nat → Prog Sys Event Bool
  | 0, _ => pure true
  | n + 1, a => do
      match ← walk root a true with
      | none => pure false
      | some (pt, i) =>
          writePte pt i ⟨false, { xperm with u := true }, 0⟩
          lazyLoop root xperm n (a + 4096)

/-- `ulazymalloc(pagetable, va_start, va_end, xperm)` -/
def ulazymalloc (root : Frame) (vaStart vaEnd : Nat) (xperm : Perm) : Prog Sys Event Nat :=
  if vaEnd < vaStart then pure vaStart
  else do
    let vaStart := pgroundup vaStart
    if ← lazyLoop root xperm ((vaEnd - vaStart + 4095) / 4096) vaStart then pure vaEnd
    else pure 0

/-- `proc_pagetable(p)`, for the trapframe page `tf`. -/
def procPagetable (tf : Frame) : Prog Sys Event (Option Frame) := do
  match ← uvmcreate with
  | none => pure none
  | some root =>
      let s ← Prog.get
      if (← mappages root trampolineVa 4096 s.tramp ⟨true, false, true, false⟩) < 0 then
        uvmfree root 0
        pure none
      else if (← mappages root trapframeVa 4096 tf ⟨true, true, false, false⟩) < 0 then
        uvmunmap root trampolineVa 1 false
        uvmfree root 0
        pure none
      else pure (some root)

/-- `proc_freepagetable(pagetable, sz)` -/
def procFreepagetable (root : Frame) (sz : Nat) : Prog Sys Event Unit := do
  uvmunmap root trampolineVa 1 false
  uvmunmap root trapframeVa 1 false
  uvmfree root sz

end OsSuite.Xv6
