import OsSuite.Xv6.Kernel
import OsSuite.Xv6.Reentry

/-!
# Spin — spinlocks, and who sleeps under them

A spinlock keeps interrupts off and must not be held across the switch
to another process: `sched` panics unless `p->lock` is the only spinlock
of the CPU. Here the kernel is embedded as far as it takes spinlocks and
sleeps: `spinlock.c`, `sleep`, `wakeup` and `sched`, and on top of them
sleep-locks, the buffer cache, the disk driver and the log. What such a
function finds — a lock that is taken, a block that is not cached — is
its REPLY.

`handle_pgfault` of `Reentry` is a run over the disk with the buffers,
inodes and transactions it uses as observations. `play` performs them one
after the other with the spinlocks they take, so that a fault can be put
inside a caller that holds some already: `pipewrite`, `piperead`,
`consoleread` and `kwait` copy a byte, or a status, with their spinlocks
held.

The locks of the allocator, the file and inode tables and the kernel's
own output are left out: no process sleeps, wakes another or copies while
it holds one of them.
-/

namespace OsSuite.Xv6

/-- A spinlock. -/
inductive Spin where
  /-- `pi->lock` -/
  | pipe
  /-- `cons.lock` -/
  | cons
  /-- `tx_lock` -/
  | uart
  /-- `wait_lock` -/
  | wait
  /-- `p->lock` of the running process. -/
  | self
  /-- `p->lock` of the other processes. -/
  | proc (j : Nat)
  /-- `bcache.lock` -/
  | bcache
  /-- `b->lock.lk` of the buffer of block `b`. -/
  | buf (b : Nat)
  /-- `ip->lock.lk` of inode `i`. -/
  | ino (i : Nat)
  /-- `log.lock` -/
  | log
  /-- `disk.vdisk_lock` -/
  | vdisk
  deriving DecidableEq, Repr

/-- A process in the kernel: its spinlocks, the last one first, its
sleep-locks and transactions, and the disk. Every spinlock is one
`push_off`, so `mycpu()->noff` is the length of `spins`. -/
structure Cpu where
  spins : List Spin
  ops : Held
  vol : Vol

/-- `sleep` is entered to wait with `lk`, under the spinlocks `spins`. -/
structure Slept where
  lk : Spin
  spins : List Spin
  deriving DecidableEq, Repr

namespace Locks

open Reentry

abbrev KProg (α : Type) := Prog Cpu Slept α

/-! ## Spinlocks -/

open Prog in
/-- `acquire(lk)` -/
def acquire (lk : Spin) : KProg Unit := do
  let k ← get
  if lk ∈ k.spins then Prog.panic "acquire"
  else modify fun k => { k with spins := lk :: k.spins }

open Prog in
/-- `release(lk)` -/
def release (lk : Spin) : KProg Unit := do
  let k ← get
  if lk ∈ k.spins then modify fun k => { k with spins := k.spins.erase lk }
  else Prog.panic "release"

open Prog in
/-- `sched()` -/
def sched : KProg Unit := do
  let k ← get
  if .self ∉ k.spins then Prog.panic "sched p->lock"
  else if k.spins.length ≠ 1 then Prog.panic "sched locks"
  else pure ()

open Prog in
/-- `sleep(chan, lk)` -/
def sleep (lk : Spin) : KProg Unit := do
  let k ← get
  tell ⟨lk, k.spins⟩
  acquire .self
  release lk
  sched
  release .self
  acquire lk

/-- A loop that is left after `n` rounds. -/
def times (n : Nat) (body : KProg Unit) : KProg Unit := Prog.upTo (fun _ => body) n

/-- `wakeup(chan)` -/
def wakeup : KProg Unit :=
  Prog.upTo (fun j => do acquire (.proc j); release (.proc j)) (nproc - 1)

/-- `killed(p)`, which finds `r`. -/
def killed (r : Bool) : KProg Bool := do
  acquire .self
  release .self
  pure r

/-! ## Sleep-locks, buffers and the log -/

/-- What a function finds. -/
structure Reply where
  /-- How often it finds the sleep-lock of the inode, and that of the
  buffer, taken. -/
  inoTaken : Nat
  bufTaken : Nat
  /-- `b->valid`; whether there is no buffer to be had. -/
  valid : Bool
  noBuffers : Bool
  /-- `ip->valid`; `ip->type == 0` after it is read. -/
  ipValid : Bool
  noType : Bool
  /-- The attempts of `alloc3_desc` that fail, with the descriptors each
  of them found; how often the process is woken before its request is
  done. -/
  descs : List Nat
  woken : Nat
  /-- The log; how often `begin_op` is woken before it can go on. -/
  log : Log
  again : Nat

/-- `acquiresleep(lk)`, which is `taken` so often. -/
def acquiresleep (lk : Spin) (taken : Nat) : KProg Unit := do
  acquire lk
  times taken (sleep lk)
  release lk

/-- `releasesleep(lk)` -/
def releasesleep (lk : Spin) : KProg Unit := do
  acquire lk
  wakeup
  release lk

/-- `holdingsleep(lk)` -/
def holdingsleep (lk : Spin) : KProg Unit := do
  acquire lk
  release lk

/-- `bget(dev, b)` -/
def bget (b : Nat) (r : Reply) : KProg Unit := do
  acquire .bcache
  if r.noBuffers then Prog.panic "bget: no buffers"
  else
    release .bcache
    acquiresleep (.buf b) r.bufTaken

/-- The loop around `alloc3_desc`; `free_desc` wakes the others. -/
def allocDescs : List Nat → KProg Unit
  | [] => pure ()
  | d :: ds => do
      times d wakeup
      sleep .vdisk
      allocDescs ds

/-- `virtio_disk_rw(b, write)`: the interrupt that ends the request takes
`vdisk_lock`, so the process sleeps at least once. -/
def virtioDiskRw (r : Reply) : KProg Unit := do
  acquire .vdisk
  allocDescs r.descs
  times (r.woken + 1) (sleep .vdisk)
  times 3 wakeup
  release .vdisk

/-- `bread(dev, b)` -/
def bread (b : Nat) (r : Reply) : KProg Unit := do
  bget b r
  if r.valid then pure () else virtioDiskRw r

/-- `brelse(b)` -/
def brelse (b : Nat) : KProg Unit := do
  holdingsleep (.buf b)
  releasesleep (.buf b)
  acquire .bcache
  release .bcache

/-- `bwrite(b)` -/
def bwrite (b : Nat) (r : Reply) : KProg Unit := do
  holdingsleep (.buf b)
  virtioDiskRw r

/-- `bpin(b)` -/
def bpin : KProg Unit := do
  acquire .bcache
  release .bcache

/-- `ilock(ip)` -/
def ilock (i : Nat) (r : Reply) : KProg Unit := do
  acquiresleep (.ino i) r.inoTaken
  if r.ipValid then pure ()
  else
    bread (iblock i) r
    brelse (iblock i)
    if r.noType then Prog.panic "ilock: no type" else pure ()

/-- `iunlock(ip)` -/
def iunlock (i : Nat) : KProg Unit := do
  holdingsleep (.ino i)
  releasesleep (.ino i)

/-- `begin_op()`, which finds the log `l`. -/
def beginOp (l : Log) (r : Reply) : KProg Unit := do
  acquire .log
  if l.beginOp = .wait then times (r.again + 1) (sleep .log) else pure ()
  release .log

/-- `log_write(b)` -/
def logWrite (b : Nat) (r : Reply) : KProg Unit := do
  acquire .log
  match r.log.logWrite b with
  | .halt m => Prog.panic m
  | _ =>
      if b ∈ r.log.lh then pure () else bpin
      release .log

/-- `end_op()`, up to the commit. -/
def endOp (r : Reply) : KProg Unit := do
  acquire .log
  match r.log.endOp with
  | .halt m => Prog.panic m
  | _ =>
      if r.log.outstanding = 1 then pure () else wakeup
      release .log

/-- `end_op()`, after the commit. -/
def committed : KProg Unit := do
  acquire .log
  wakeup
  release .log

/-! ## A page fault -/

/-- What stands behind an observation of `Reentry`. -/
def act (r : Reply) : LockEv → KProg Unit
  | .beginOp l => beginOp l r
  | .io .beginOp => beginOp r.log r
  | .io .endOp => endOp r
  | .io .committed => committed
  | .io (.bread b) => bread b r
  | .io (.brelse b) => brelse b
  | .io (.bwrite b) => bwrite b r
  | .io (.logWrite b) => logWrite b r
  | .io (.ilock i) => ilock i r
  | .io (.iunlock i) => iunlock i
  | .io (.copy _) => pure ()

def perform (r : Reply) (e : LockEv) : KProg Unit := do
  act r e
  Prog.modify fun k => { k with ops := k.ops.after (forget e) }

/-- The observations `w`, one after the other. -/
def play : (Nat → Reply) → List LockEv → KProg Unit
  | _, [] => pure ()
  | r, e :: w => do
      perform (r 0) e
      play (fun n => r (n + 1)) w

/-- What a fault finds of the file system, the buffer cache and the other
processes. -/
structure Around where
  out : Window
  back : Window
  exiting : Exiting
  reply : Nat → Reply
  /-- The children that `kexit` gives to init. -/
  children : Nat

/-- The fault `e`, as it finds them. -/
def Around.entry (x : Around) (e : Entry) : Entry :=
  { e with out := x.out, back := x.back, exiting := x.exiting }

/-- The end of `kexit`, which does not return. -/
def leave {α : Type} (children : Nat) : KProg α := do
  acquire .wait
  times children wakeup
  wakeup
  acquire .self
  release .wait
  sched
  Prog.panic "exit"

/-- File-system code, performed under the spinlocks of its caller. -/
def carry {α : Type} (reply : Nat → Reply) (gone : KProg α) (y : FaultProg α) : KProg α := fun k =>
  match y k.vol with
  | .ret a v w => (do
      play reply w
      Prog.modify fun k => { k with vol := v }
      pure a : KProg α) k
  | .exit _ w => (do
      play reply w
      gone : KProg α) k
  | .panic m w => (do
      play reply w
      Prog.panic m : KProg α) k

/-- `handle_pgfault(pagetable, va, access_type)` -/
def fault (x : Around) (e : Entry) : KProg Int :=
  carry x.reply (leave x.children) (Reentry.handlePgfault (x.entry e))

/-- `copyin` or `copyout` that meets the faults `es`. -/
def copyUser : (Nat → Around) → List Entry → KProg Bool
  | _, [] => pure true
  | x, e :: es => do
      if (← fault (x 0) e) ≠ 0 then pure false else copyUser (fun n => x (n + 1)) es

/-! ## The callers

Each is given the copy of byte `i` of the user buffer. -/

/-- What a caller finds at byte `i`. -/
structure Round where
  /-- How often it has to sleep first. -/
  waits : Nat
  /-- `pi->readopen == 0` -/
  closed : Bool
  killed : Bool
  /-- `pi->nread == pi->nwrite` -/
  empty : Bool
  /-- The character is `C('D')`, or a newline. -/
  eof : Bool
  newline : Bool

/-- The end of `pipewrite` and `piperead`. -/
def pipeDone (r : Int) : KProg Int := do
  wakeup
  release .pipe
  pure r

/-- The loop of `pipewrite` with `n` bytes to go. -/
def pipewriteLoop (f : Nat → Round) (copy : Nat → KProg Bool) : Nat → Nat → KProg Int
  | 0, i => pipeDone i
  | n + 1, i => do
      times (f i).waits (do
        let _ ← killed false
        wakeup
        sleep .pipe)
      if ← (if (f i).closed then pure true else killed (f i).killed) then
        release .pipe
        pure (-1)
      else if ← copy i then pipewriteLoop f copy n (i + 1)
      else pipeDone i

/-- `pipewrite(pi, addr, n)` -/
def pipewrite (f : Nat → Round) (copy : Nat → KProg Bool) (n : Int) : KProg Int := do
  acquire .pipe
  pipewriteLoop f copy n.toNat 0

/-- `if(killed(p)) ...; sleep(...)`, as often as there is nothing to
read; whether the process goes on. -/
def await (lk : Spin) (f : Round) : KProg Bool := do
  times f.waits (do
    let _ ← killed false
    sleep lk)
  if f.killed then
    let _ ← killed true
    release lk
    pure false
  else pure true

/-- The copy loop of `piperead` with `n` bytes to go. -/
def pipereadLoop (f : Nat → Round) (copy : Nat → KProg Bool) : Nat → Nat → KProg Int
  | 0, i => pipeDone i
  | n + 1, i =>
      if (f i).empty then pipeDone i
      else do
        if ← copy i then pipereadLoop f copy n (i + 1)
        else pipeDone (if i = 0 then -1 else i)

/-- `piperead(pi, addr, n)` -/
def piperead (f : Nat → Round) (copy : Nat → KProg Bool) (n : Int) : KProg Int := do
  acquire .pipe
  if ← await .pipe (f 0) then pipereadLoop f copy n.toNat 0 else pure (-1)

def consoleDone (r : Int) : KProg Int := do
  release .cons
  pure r

/-- The loop of `consoleread` with `n` bytes to go. -/
def consolereadLoop (f : Nat → Round) (copy : Nat → KProg Bool) : Nat → Nat → KProg Int
  | 0, i => consoleDone i
  | n + 1, i => do
      if ← await .cons (f i) then
        if (f i).eof then consoleDone i
        else if ← copy i then
          if (f i).newline then consoleDone (i + 1) else consolereadLoop f copy n (i + 1)
        else consoleDone i
      else pure (-1)

/-- `consoleread(1, dst, n)` -/
def consoleread (f : Nat → Round) (copy : Nat → KProg Bool) (n : Int) : KProg Int := do
  acquire .cons
  consolereadLoop f copy n.toNat 0

/-- What `kwait` finds: before each sleep its children, none of them a
zombie; and in the last pass the children before the zombie, and that. -/
structure Family where
  passes : List (Nat × List Nat)
  last : List Nat
  zombie : Option Nat
  pid : Int

/-- Children that are no zombies. -/
def passOver : List Nat → KProg Unit
  | [] => pure ()
  | j :: js => do
      acquire (.proc j)
      release (.proc j)
      passOver js

def waitPasses : List (Nat × List Nat) → KProg Unit
  | [] => pure ()
  | js :: passes => do
      passOver (js.1 :: js.2)
      let _ ← killed false
      sleep .wait
      waitPasses passes

/-- The executable of a process: the inode, and
`ip->ref == 1 && ip->valid && ip->nlink == 0`. -/
structure Exec where
  ip : Nat
  frees : Bool

/-- `iput(p->exec_ip)` at the end of `freeproc(p)`, outside a
transaction. -/
def freeproc (reply : Nat → Reply) : Option Exec → KProg Unit
  | none => pure ()
  | some x => carry reply (Prog.panic "exit") (io (iput ⟨x.ip, x.frees, ⟨.init, .init⟩⟩))

/-- `release(&pp->lock); release(&wait_lock);` -/
def kwaitDone (j : Nat) (r : Int) : KProg Int := do
  release (.proc j)
  release .wait
  pure r

/-- `freeproc(pp)`, and the end of `kwait`. -/
def reap (reply : Nat → Reply) (exec : Option Exec) (j : Nat) (pid : Int) : KProg Int := do
  freeproc reply exec
  kwaitDone j pid

/-- `kwait(addr)`; `exec` is the executable of the zombie. -/
def kwait (f : Family) (reply : Nat → Reply) (copy : Nat → KProg Bool) (addr : Nat)
    (exec : Option Exec) : KProg Int := do
  acquire .wait
  waitPasses f.passes
  passOver f.last
  match f.zombie with
  | some j => do
      acquire (.proc j)
      if addr = 0 then reap reply exec j f.pid
      else if ← copy 0 then reap reply exec j f.pid
      else kwaitDone j (-1)
  | none => do
      if f.last = [] then pure ()
      else
        let _ ← killed true
      release .wait
      pure (-1)

/-- A system call that copies with a spinlock held. -/
inductive SpinCall where
  | pipewrite (n : Int)
  | piperead (n : Int)
  | consoleread (n : Int)
  | kwait (addr : Nat) (exec : Option Exec)

/-- What such a call finds. -/
structure Scene where
  round : Nat → Round
  family : Family
  /-- In the file-system code of the call itself. -/
  reply : Nat → Reply
  /-- At fault `k` of byte `i`. -/
  around : Nat → Nat → Around

/-- The copies of a call that meets `faults i` at byte `i`. -/
def Scene.copy (s : Scene) (faults : Nat → List Entry) (i : Nat) : KProg Bool :=
  copyUser (s.around i) (faults i)

namespace SpinCall

def run (c : SpinCall) (s : Scene) (copy : Nat → KProg Bool) : KProg Int :=
  match c with
  | .pipewrite n => Locks.pipewrite s.round copy n
  | .piperead n => Locks.piperead s.round copy n
  | .consoleread n => Locks.consoleread s.round copy n
  | .kwait addr exec => Locks.kwait s.family s.reply copy addr exec

/-- How often it may copy. -/
def copies : SpinCall → Nat
  | .pipewrite n => n.toNat
  | .piperead n => n.toNat
  | .consoleread n => n.toNat
  | .kwait addr _ => if addr = 0 then 0 else 1

/-- It frees the inode of an executable. -/
def frees : SpinCall → Bool
  | .kwait _ exec => exec.any (·.frees)
  | _ => false

/-- The spinlocks it copies under. -/
def grip (c : SpinCall) (s : Scene) : List Spin :=
  match c with
  | .pipewrite _ => [.pipe]
  | .piperead _ => [.pipe]
  | .consoleread _ => [.cons]
  | .kwait _ _ => (s.family.zombie.map .proc).toList ++ [.wait]

end SpinCall

end Locks

end OsSuite.Xv6
