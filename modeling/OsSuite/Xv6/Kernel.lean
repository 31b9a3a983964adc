import OsSuite.Xv6.Exec

/-!
# Kernel — the process table and its life cycle

`allocproc`, `freeproc`, `kfork`, `kexit`, `kwait` and `sys_sbrk`, and
the steps a running system takes. A step is taken by one process slot:
a user instruction, a system call with its arguments, or — for the rest
of the machine — a change of what other CPUs will do to the free list
and of how full the disk is.
-/

namespace OsSuite.Xv6

structure Kern where
  sys : Sys
  /-- `proc[NPROC]` -/
  proc : Nat → Proc
  nextpid : Nat

abbrev KProg (α : Type) := Prog Kern Event α

/-- Code of process slot `i`. -/
def onProc {α : Type} (i : Nat) (x : PProg α) : KProg α :=
  Prog.zoom (fun k => ⟨k.sys, k.proc i⟩)
    (fun st k => { k with sys := st.sys, proc := Function.update k.proc i st.p }) x

def onSysK {α : Type} (x : Prog Sys Event α) : KProg α :=
  Prog.zoom Kern.sys (fun t k => { k with sys := t }) x

def modifyAt (i : Nat) (f : Proc → Proc) : KProg Unit :=
  Prog.modify fun k => { k with proc := Function.update k.proc i (f (k.proc i)) }

/-- `NPROC` -/
def nproc : Nat := 64

/-! ## Allocating and freeing a slot -/

/-- `if(p->trapframe) kfree(p->trapframe)` -/
def freeTrapframe (f : Frame) : Prog Sys Event Unit := if f ≠ 0 then kfree f else pure ()

/-- `if(p->pagetable) proc_freepagetable(p->pagetable, p->sz)` -/
def freePagetable (root : Frame) (sz : Nat) : Prog Sys Event Unit :=
  if root ≠ 0 then procFreepagetable root sz else pure ()

/-- `freeproc(p)`; `exec_ip` is put but not cleared. -/
def freeproc (i : Nat) : KProg Unit := do
  let k ← Prog.get
  onSysK (freeTrapframe (k.proc i).trapframe)
  modifyAt i fun p => { p with trapframe := 0 }
  onSysK (freePagetable (k.proc i).pagetable (k.proc i).sz)
  modifyAt i fun p => { p with
    pagetable := 0, sz := 0, pid := 0, parent := none, killed := false, xstate := 0,
    state := .unused }

/-- The reset of a slot in `allocproc`; `swap_file`, `exec_ip`,
`heap_start` and the arrays keep what the last owner left. -/
def Proc.reset (p : Proc) (pid : Nat) : Proc :=
  { p with
    pid := pid, state := .used, nextFifoSeq := 0, numResident := 0, numSwapped := 0,
    numPhdrs := 0, swapSlots := fun j => if j < maxSwapPages then 0 else p.swapSlots j }

/-- `allocproc()` -/
def allocproc : KProg (Option Nat) := do
  let k ← Prog.get
  match Table.firstIdx (fun p => p.state == .unused) k.proc nproc with
  | none => pure none
  | some i =>
      Prog.modify fun k => { k with
        nextpid := k.nextpid + 1
        proc := Function.update k.proc i ((k.proc i).reset k.nextpid) }
      Prog.tell (.alloc i)
      match ← onSysK kalloc with
      | none =>
          modifyAt i fun p => { p with trapframe := 0 }
          freeproc i
          pure none
      | some tf =>
          modifyAt i fun p => { p with trapframe := tf }
          match ← onSysK (procPagetable tf) with
          | none =>
              modifyAt i fun p => { p with pagetable := 0 }
              freeproc i
              pure none
          | some root =>
              modifyAt i fun p => { p with pagetable := root }
              pure (some i)

/-- `userinit()`, on a machine without processes. -/
def userinit : KProg Unit := do
  match ← allocproc with
  | none => Prog.panic "kerneltrap"
  | some i => modifyAt i fun p => { p with isInit := true, state := .runnable }

/-! ## System calls -/

/-- What `kfork` copies from the parent. The swap file and the program
headers are not among it. -/
def Proc.forkFrom (np p : Proc) (parent : Nat) : Proc :=
  { np with
    sz := p.sz
    regs := { p.regs with a0 := 0 }
    heapStart := p.heapStart
    numResident := p.numResident
    nextFifoSeq := p.nextFifoSeq
    numSwapped := p.numSwapped
    residentPages := fun i =>
      if (i : Int) < p.numResident then p.residentPages i else np.residentPages i
    swappedPages := fun i =>
      if i < p.numSwapped then p.swappedPages i else np.swappedPages i
    swapSlots := fun j => if j < maxSwapPages then p.swapSlots j else np.swapSlots j
    execIp := match p.execIp with
      | none => np.execIp
      | some ino => some ino
    parent := some parent
    state := .runnable }

/-- `kfork()` -/
def kfork (i : Nat) : KProg Int := do
  match ← allocproc with
  | none => pure (-1)
  | some j =>
      let k ← Prog.get
      if (← onSysK (uvmcopy (k.proc i).pagetable (k.proc j).pagetable (k.proc i).sz)) < 0 then
        freeproc j
        pure (-1)
      else
        modifyAt j fun np => np.forkFrom (k.proc i) i
        Prog.tell (.forked j)
        pure (k.proc j).pid

/-- `sys_sbrk(n)`, for an `int` `n`. -/
def sysSbrk (n : Int) : PProg Int := do
  let st ← Prog.get
  let addr := st.p.sz
  if 0 < n then
    let newsz := u64 (addr + n.toNat)
    if newsz < addr ∨ trapframeVa < newsz then pure (-1)
    else
      modifyProc fun p => { p with sz := newsz }
      pure addr
  else if n < 0 then
    let newsz := u64 (18446744073709551616 + addr - n.natAbs)
    let sz ← onSys (uvmdealloc st.p.pagetable addr newsz)
    modifyProc fun p => { p with sz := sz }
    pure addr
  else pure addr

/-- `reparent`: the children of an exited process go to `init`. -/
def reparent (i : Nat) (k : Kern) : Kern :=
  { k with proc := fun j =>
      if (k.proc j).parent = some i then
        { k.proc j with parent := Table.firstIdx (fun p => p.isInit) k.proc nproc }
      else k.proc j }

/-- `kwait(addr)`; `none` when the caller would sleep. -/
def kwait (i addr : Nat) : KProg (Option Int) := do
  let k ← Prog.get
  let child := fun p : Proc => decide (p.parent = some i)
  match Table.firstIdx (fun p => child p && p.state == .zombie) k.proc nproc with
  | some j =>
      let pid := (k.proc j).pid
      let xstate := ((k.proc j).xstate % 4294967296).toNat
      if addr ≠ 0 then
        let r ← onProc i (copyout (k.proc i).pagetable addr ((bytes64 xstate).take 4))
        if r.1 then
          freeproc j
          pure (some pid)
        else pure (some (-1))
      else
        freeproc j
        pure (some pid)
  | none =>
      if (Table.firstIdx child k.proc nproc).isNone || (k.proc i).killed then pure (some (-1))
      else pure none

/-! ## Steps -/

/-- What the running process does next. -/
inductive Op where
  /-- A user instruction touches one byte. -/
  | access (acc : Access) (va : Nat) (b : UInt8)
  | copyin (srcva len : Nat)
  | copyout (dstva : Nat) (src : List UInt8)
  | sbrk (n : Int)
  | fork
  | exec (path : List Char) (argv : List (List UInt8)) (dirlinkOk fileallocOk : Bool)
  | exit (status : Int)
  | wait (addr : Nat)
  /-- The user program changes its stack pointer. -/
  | setSp (sp : Nat)
  /-- Another process marks this one killed. -/
  | kill
  /-- The rest of the machine: what other CPUs will do to the free list
  around the next allocations, how many disk blocks are free, what lies
  on the kernel stack. -/
  | env (script : List (List Intf)) (nfree : Nat) (stack : Nat → UInt8)

/-- What a step delivers to the program. -/
inductive Res where
  | unit
  | byte (b : Option UInt8)
  | bytes (ok : Bool) (b : List UInt8)
  | int (n : Int)
  deriving DecidableEq, Repr

/-- An access faults at most twice before it gets through. -/
def tries : Nat := 3

/-- The `killed` tests around a system call. -/
def syscall {α : Type} (x : PProg α) : PProg α := do
  let st ← Prog.get
  if st.p.killed then kexit (-1)
  else
    let r ← x
    let st ← Prog.get
    if st.p.killed then kexit (-1) else pure r

/-- The steps that concern one process only. -/
def localStep : Op → PProg Res
  | .access acc va b => do return .byte (← userAccess acc va b tries)
  | .copyin srcva len => syscall do
      let st ← Prog.get
      let r ← copyin st.p.pagetable srcva len
      pure (.bytes r.1 r.2)
  | .copyout dstva src => syscall do
      let st ← Prog.get
      let r ← copyout st.p.pagetable dstva src
      pure (.bytes r.1 r.2)
  | .sbrk n => syscall do return .int (← sysSbrk n)
  | .exec path argv dirlinkOk fileallocOk => syscall do
      return .int (← kexec path argv dirlinkOk fileallocOk)
  | .exit status => syscall (kexit status)
  | .setSp sp => do
      modifyProc fun p => { p with regs := { p.regs with sp := sp } }
      pure .unit
  | .kill => do
      setkilled
      pure .unit
  | .env script nfree stack => do
      Prog.modify fun st => { st with sys := { st.sys with
        script := script, stack := stack, fs := { st.sys.fs with nfree := nfree } } }
      pure .unit
  | .fork | .wait _ => pure .unit

/-- A step of process slot `i`. A process that exits leaves its children
to `init`. -/
def kstep (i : Nat) (op : Op) : KProg Res := do
  match op with
  | .fork =>
      let k ← Prog.get
      if (k.proc i).killed then onProc i (kexit (-1))
      else return .int (← kfork i)
  | .wait addr =>
      let k ← Prog.get
      if (k.proc i).killed then onProc i (kexit (-1))
      else
        match ← kwait i addr with
        | none => pure .unit
        | some n => return .int n
  | op => onProc i (localStep op)

end OsSuite.Xv6
