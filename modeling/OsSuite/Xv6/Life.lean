import OsSuite.Xv6.Inodes
import OsSuite.Xv6.Proc

/-!
# Life — what a process holds from `fork` to `wait`

The pointers of a process into the file layer — `ofile`, `cwd`, `exec_ip`,
`swap_file` — and the code that sets and drops them: the file table,
`allocproc` and `freeproc`, `kfork`, `kexec`, `kexit`, `kwait`. What these
functions ask the rest of the kernel for (memory, contents of files,
copies to user space) is given to them as ANSWERS; the structures below
name the question behind each answer.
-/

namespace OsSuite.Xv6.Life

/-- `FD_NONE`, `FD_PIPE`, `FD_INODE`, `FD_DEVICE` -/
inductive FdType where
  | none | pipe | inode | device
  deriving DecidableEq, Repr

/-- `struct file`, an entry of `ftable`. -/
structure File where
  ref : Int
  type : FdType
  ip : Nat
  deriving DecidableEq, Repr

/-- `struct proc` -/
structure Task where
  state : ProcState
  pid : Nat
  parent : Option Nat
  isInit : Bool
  ofile : Nat → Option Nat
  cwd : Option Nat
  execIp : Option Nat
  swapFile : Option Nat

structure World where
  fs : Icache
  file : Nat → File
  proc : Nat → Task
  nextpid : Nat

abbrev WProg (α : Type) := Prog World Event α

/-- `NFILE` -/
def nfile : Nat := 100

/-- `NOFILE` -/
def nofile : Nat := 16

/-- `NPROC` -/
def nproc : Nat := 64

def World.setFs (s : World) (t : Icache) : World := { s with fs := t }

def World.setFile (s : World) (f : Nat) (x : File) : World :=
  { s with file := Function.update s.file f x }

def World.setProc (s : World) (i : Nat) (p : Task) : World :=
  { s with proc := Function.update s.proc i p }

/-- Code of the file system. -/
def onFs {α : Type} (x : IProg α) : WProg α := Prog.zoom World.fs (fun t s => s.setFs t) x

def modifyFile (f : Nat) (g : File → File) : WProg Unit :=
  Prog.modify fun s => s.setFile f (g (s.file f))

def modifyProc (i : Nat) (g : Task → Task) : WProg Unit :=
  Prog.modify fun s => s.setProc i (g (s.proc i))

/-! ## The file table -/

/-- `filealloc()` -/
def filealloc : WProg (Option Nat) := do
  let s ← Prog.get
  match Table.firstIdx (fun x => x.ref == 0) s.file nfile with
  | none => pure none
  | some f =>
      modifyFile f fun x => { x with ref := 1 }
      pure (some f)

/-- `filedup(f)` -/
def filedup (f : Nat) : WProg Unit := do
  let s ← Prog.get
  if (s.file f).ref < 1 then Prog.panic "filedup"
  else modifyFile f fun x => { x with ref := x.ref + 1 }

/-- `fileclose(f)` -/
def fileclose (f : Nat) : WProg Unit := do
  let s ← Prog.get
  let ff := s.file f
  if ff.ref < 1 then Prog.panic "fileclose"
  else if 0 < ff.ref - 1 then modifyFile f fun x => { x with ref := x.ref - 1 }
  else
    modifyFile f fun x => { x with ref := 0, type := .none }
    if ff.type = .inode ∨ ff.type = .device then
      onFs do
        beginOp
        iput ff.ip
        endOp
    else pure ()

/-! ## Slots of the process table -/

/-- `if(p->exec_ip) iput(p->exec_ip)` -/
def putExec : Option Nat → WProg Unit
  | none => pure ()
  | some ip => onFs (iput ip)

/-- `freeproc(p)` -/
def freeproc (j : Nat) : WProg Unit := do
  modifyProc j fun p => { p with pid := 0, parent := none, state := .unused }
  let s ← Prog.get
  putExec (s.proc j).execIp

/-- What `allocproc` and `kfork` get: the trapframe page, the empty page
table, and the copy of the user memory. -/
structure ForkAnswers where
  trapframe : Bool
  pagetable : Bool
  uvmcopy : Bool

/-- The slot that `allocproc` takes. -/
def World.freeSlot (s : World) : Option Nat :=
  Table.firstIdx (fun p => p.state == .unused) s.proc nproc

/-- `allocproc()` -/
def allocproc (a : ForkAnswers) : WProg (Option Nat) := do
  let s ← Prog.get
  match s.freeSlot with
  | none => pure none
  | some j =>
      Prog.modify fun s => { s with nextpid := s.nextpid + 1 }
      modifyProc j fun p => { p with pid := s.nextpid, state := .used }
      if a.trapframe = false then
        freeproc j
        pure none
      else if a.pagetable = false then
        freeproc j
        pure none
      else pure (some j)

/-- `if(p->ofile[fd]) np->ofile[fd] = filedup(p->ofile[fd])` -/
def dupOfile (i j fd : Nat) : WProg Unit := do
  let s ← Prog.get
  match (s.proc i).ofile fd with
  | none => pure ()
  | some f =>
      filedup f
      modifyProc j fun p => { p with ofile := Function.update p.ofile fd (some f) }

/-- `np->cwd = idup(p->cwd)` -/
def dupCwd (i j : Nat) : WProg Unit := do
  let s ← Prog.get
  match (s.proc i).cwd with
  | none => Prog.panic "kerneltrap"
  | some ip =>
      onFs (idup ip)
      modifyProc j fun p => { p with cwd := some ip }

/-- `if(p->exec_ip) np->exec_ip = idup(p->exec_ip)` -/
def dupExec (i j : Nat) : WProg Unit := do
  let s ← Prog.get
  match (s.proc i).execIp with
  | none => pure ()
  | some ip =>
      onFs (idup ip)
      modifyProc j fun p => { p with execIp := some ip }

/-- `kfork()`; the result says whether there is a child. -/
def kfork (i : Nat) (a : ForkAnswers) : WProg Bool := do
  match ← allocproc a with
  | none => pure false
  | some j =>
      if a.uvmcopy = false then
        freeproc j
        pure false
      else
        Prog.upTo (dupOfile i j) nofile
        dupCwd i j
        dupExec i j
        modifyProc j fun p => { p with parent := some i, state := .runnable }
        pure true

/-! ## Exit -/

/-- `if(p->ofile[fd]) { fileclose(p->ofile[fd]); p->ofile[fd] = 0; }` -/
def closeOfile (i fd : Nat) : WProg Unit := do
  let s ← Prog.get
  match (s.proc i).ofile fd with
  | none => pure ()
  | some f =>
      fileclose f
      modifyProc i fun p => { p with ofile := Function.update p.ofile fd none }

/-- The swap cleanup of `kexit`. -/
def closeSwap (i : Nat) : WProg Unit := do
  let s ← Prog.get
  match (s.proc i).swapFile with
  | none => pure ()
  | some f =>
      onFs beginOp
      onFs (itrunc (s.file f).ip)
      fileclose f
      modifyProc i fun p => { p with swapFile := none }
      onFs endOp

/-- `begin_op(); iput(p->cwd); end_op(); p->cwd = 0;` -/
def dropCwd (i : Nat) : WProg Unit := do
  let s ← Prog.get
  match (s.proc i).cwd with
  | none => Prog.panic "kerneltrap"
  | some ip =>
      onFs do
        beginOp
        iput ip
        endOp
      modifyProc i fun p => { p with cwd := none }

/-- `reparent`, and the slot becomes a zombie. -/
def World.exited (s : World) (i : Nat) : World :=
  { s with proc := fun j =>
      let p := s.proc j
      let p := if p.parent = some i then
        { p with parent := Table.firstIdx (fun q => q.isInit) s.proc nproc } else p
      if j = i then { p with state := .zombie } else p }

/-- `kexit(status)` -/
def kexit {α : Type} (i : Nat) : WProg α := do
  let s ← Prog.get
  if (s.proc i).isInit then Prog.panic "init exiting"
  else
    Prog.upTo (closeOfile i) nofile
    closeSwap i
    dropCwd i
    Prog.exit fun s => s.exited i

/-! ## Page faults of the kernel

A copy to user space can fault. What `handle_pgfault` and `evict_page` do
to inodes and transactions in one fault is one or more of these. -/

inductive Fault where
  /-- Every slot of the swap file is taken. -/
  | swapFull
  /-- A dirty victim is written; `ok` is whether `writei` wrote it. -/
  | swapOut (ok : Bool)
  /-- The page is read back; `ok` is whether `readi` read it. -/
  | swapIn (ok : Bool)
  /-- The page is read from `exec_ip`, without lock and transaction. -/
  | load
  /-- The list of resident pages is full. -/
  | residentFull

/-- `swap_write_page` -/
def swapWritePage (i : Nat) (ok : Bool) : WProg Bool := do
  let s ← Prog.get
  match (s.proc i).swapFile with
  | none => pure false
  | some f =>
      onFs do
        ilock (s.file f).ip
        iupdate (s.file f).ip
        iunlock (s.file f).ip
      pure ok

/-- The transaction around the read of a swapped-out page. -/
def swapReadPage (i : Nat) (ok : Bool) : WProg Unit := do
  let s ← Prog.get
  match (s.proc i).swapFile with
  | none => Prog.panic "kerneltrap"
  | some f =>
      onFs do
        beginOp
        ilock (s.file f).ip
        iunlock (s.file f).ip
        endOp
      if ok then pure () else Prog.panic "swap_read_page failed"

def handlePgfault (i : Nat) : Fault → WProg Unit
  | .swapFull | .residentFull => kexit i
  | .swapOut ok => do
      onFs beginOp
      let r ← swapWritePage i ok
      onFs endOp
      if r then pure () else kexit i
  | .swapIn ok => swapReadPage i ok
  | .load => pure ()

/-- What a copy to user space meets: whether it is made at all, its
faults, and its result. -/
structure CopyAnswers where
  fits : Bool
  faults : List Fault
  ok : Bool

def copyoutFaults (i : Nat) : List Fault → WProg Unit
  | [] => pure ()
  | f :: rest => do
      handlePgfault i f
      copyoutFaults i rest

/-- `copyout(...)`; the result is whether it returned 0. -/
def copyout (i : Nat) (a : CopyAnswers) : WProg Bool := do
  copyoutFaults i a.faults
  pure a.ok

/-! ## Wait -/

/-- The zombie child that `kwait` finds. -/
def World.zombieOf (s : World) (i : Nat) : Option Nat :=
  Table.firstIdx (fun p => decide (p.parent = some i) && p.state == .zombie) s.proc nproc

/-- The copy of the status; `addr` is none for a null address. -/
def copyStatus (i : Nat) : Option CopyAnswers → WProg Bool
  | none => pure true
  | some a => copyout i a

/-- `kwait(addr)`, up to where it would sleep; the result says whether a
child was freed. -/
def kwait (i : Nat) (addr : Option CopyAnswers) : WProg Bool := do
  let s ← Prog.get
  match s.zombieOf i with
  | none => pure false
  | some j =>
      if ← copyStatus i addr then
        freeproc j
        pure true
      else pure false

/-! ## Exec -/

/-- What `kexec` gets. -/
structure ExecAnswers where
  /-- The entry of a new swap file could be written. -/
  dirlink : Bool
  /-- `readi` read the ELF header, and its magic number is right. -/
  header : Bool
  /-- `proc_pagetable` -/
  pagetable : Bool
  /-- The rounds of the program-header loop that go through. -/
  segments : List Bool
  /-- `readi` read all program headers. -/
  phdrs : Bool
  /-- `uvmalloc` of the stack. -/
  stack : Bool
  /-- The copies of the arguments and of `ustack`. -/
  args : List CopyAnswers

/-- `bad:` with `ip != 0`. -/
def execBad (ip : Nat) : WProg Bool := do
  onFs (iunlockput ip)
  onFs endOp
  pure false

/-- The copies to the new stack; `bad:` with `ip == 0` if one fails. -/
def copyArgs (i : Nat) : List CopyAnswers → WProg Bool
  | [] => pure true
  | a :: rest => do
      if a.fits = false then pure false
      else if ← copyout i a then copyArgs i rest
      else pure false

/-- From `ilock` of the executable on. -/
def execLoad (i ip : Nat) (a : ExecAnswers) : WProg Bool := do
  onFs (ilock ip)
  if a.header = false ∨ a.pagetable = false ∨ false ∈ a.segments then execBad ip
  else
    onFs (idup ip)
    modifyProc i fun p => { p with execIp := some ip }
    if a.phdrs = false then execBad ip
    else
      onFs (iunlockput ip)
      onFs endOp
      if a.stack = false then pure false else copyArgs i a.args

/-- From the second `begin_op` on. -/
def execOpen (i : Nat) (path : Path) (a : ExecAnswers) : WProg Bool := do
  onFs beginOp
  let s ← Prog.get
  match ← onFs (namex (s.proc i).cwd path false) with
  | none =>
      onFs endOp
      pure false
  | some ip => execLoad i ip a

/-- `kexec(path, argv)`; the result says whether it succeeded. -/
def kexec (i : Nat) (path : Path) (a : ExecAnswers) : WProg Bool := do
  let s ← Prog.get
  onFs beginOp
  match ← onFs (create (swapName (s.proc i).pid) a.dirlink) with
  | none =>
      onFs endOp
      pure false
  | some ip =>
      let f ← filealloc
      modifyProc i fun p => { p with swapFile := f }
      match f with
      | none =>
          onFs (iunlockput ip)
          onFs endOp
          execBad ip
      | some f =>
          modifyFile f fun x => { x with type := .inode, ip := ip }
          onFs (iunlock ip)
          onFs endOp
          execOpen i path a

/-! ## A small machine

The root directory, with the executable `a` in it. Slot 0 is the first
process; it has the root as its current directory. -/

def Task.zero : Task := ⟨.unused, 0, none, false, fun _ => none, none, none, none⟩

def smallFs : Icache where
  inode ip := if ip = 0 then ⟨rootino, 1, false, .free, 0, false⟩ else ⟨0, 0, false, .free, 0, false⟩
  disk inum := if inum = rootino then ⟨.dir, 1⟩ else if inum = 2 then ⟨.file, 1⟩ else ⟨.free, 0⟩
  dirent inum name := if inum = rootino ∧ name = ['a'] then some 2 else none
  others := 0
  ops := 0

def smallWorld : World where
  fs := smallFs
  file _ := ⟨0, .none, 0⟩
  proc i := if i = 0 then { Task.zero with state := .runnable, pid := 1, isInit := true, cwd := some 0 }
    else Task.zero
  nextpid := 2

def pathA : Path := ⟨true, [['a']]⟩

/-- Everything goes through. -/
def ForkAnswers.ok : ForkAnswers := ⟨true, true, true⟩

def ExecAnswers.ok : ExecAnswers := ⟨true, true, true, [true], true, true, [⟨true, [.load], true⟩]⟩

end OsSuite.Xv6.Life
