import OsSuite.Xv6.BlockLocks
import OsSuite.Xv6.Elf
import OsSuite.Xv6.LogSpace

/-!
# Reentry — file-system code inside file-system code

`readi` and `writei` copy to and from user memory with a buffer and an
inode locked, and `filewrite` does so inside a transaction. A copy that
meets an absent page runs `handle_pgfault`, which uses the file system
again: it may write a page to the swap file, read one back, read the
executable, or give the process up.

Here the handler is embedded at the level of buffers and inodes. What it
finds of the rest of the machine (free memory, the log as other processes
leave it, the references that `kexit` drops) is given to it; the page
table itself has no place here. `begin_op` shows the log it finds, and an
`end_op` that commits reads every block of the log.
-/

namespace OsSuite.Xv6

/-- The log, when no operation but `d` of this process is left. -/
def Log.alone (l : Log) (d : Nat) : Log := { l with outstanding := d, committing := false }

/-- Like `BlockEv`; `begin_op` shows the log it finds. -/
inductive LockEv where
  | io (e : BlockEv)
  | beginOp (l : Log)

/-- Follows the locks. `begin_op` waits for the process itself if it would
sleep even when every other operation has ended. -/
def Held.watchOps (strict : Prop) : Watcher Held LockEv where
  next h
    | .io e => h.after e
    | .beginOp _ => h.after .beginOp
  alarm h
    | .io e => strict ∧ h.Waits e
    | .beginOp l => strict ∧ 0 < h.depth ∧ (l.alone h.depth).beginOp = .wait

namespace Reentry

abbrev FaultProg (α : Type) := Prog Vol LockEv α

def io {α : Type} (x : BProg α) : FaultProg α := x.relabel .io

/-! ## Transactions -/

/-- `log.start` -/
def logStart : Nat := 2

/-- `for (tail = 0; tail < log.lh.n; tail++)`, from `tail` on. -/
def forTail (body : Nat → Nat → BProg Unit) : Nat → List Nat → BProg Unit
  | _, [] => pure ()
  | tail, b :: lh => do
      body tail b
      forTail body (tail + 1) lh

open Prog in
/-- `write_log()` -/
def writeLog : List Nat → BProg Unit :=
  forTail (fun tail b => do
    tell (.bread (logStart + tail + 1))
    tell (.bread b)
    tell (.bwrite (logStart + tail + 1))
    tell (.brelse b)
    tell (.brelse (logStart + tail + 1))) 0

open Prog in
/-- `install_trans(0)` -/
def installTrans : List Nat → BProg Unit :=
  forTail (fun tail b => do
    tell (.bread (logStart + tail + 1))
    tell (.bread b)
    tell (.bwrite b)
    tell (.brelse (logStart + tail + 1))
    tell (.brelse b)) 0

open Prog in
/-- `write_head()` -/
def writeHead : BProg Unit := do
  tell (.bread logStart)
  tell (.bwrite logStart)
  tell (.brelse logStart)

/-- `commit()` -/
def commit (lh : List Nat) : BProg Unit :=
  if lh = [] then pure ()
  else do
    writeLog lh
    writeHead
    installTrans lh
    writeHead

/-- `end_op()`, which finds the log `l`. -/
def endOp (l : Log) : FaultProg Unit := do
  Prog.tell (.io .endOp)
  if l.outstanding = 1 then do
    io (commit l.lh)
    Prog.tell (.io .committed)
  else pure ()

/-- The log as the `begin_op` and the `end_op` of a transaction find it. -/
structure Window where
  begun : Log
  ended : Log

/-- `begin_op(); x; end_op();` -/
def transact {α : Type} (t : Window) (x : FaultProg α) : FaultProg α := do
  Prog.tell (.beginOp t.begun)
  let r ← x
  endOp t.ended
  pure r

/-! ## Giving the process up -/

/-- An inode whose reference goes in a transaction of its own. -/
structure Closing where
  ip : Nat
  /-- `ip->ref == 1 && ip->nlink == 0` -/
  frees : Bool
  log : Window

open Prog in
/-- `iput(ip)` -/
def iput (c : Closing) : BProg Unit :=
  if c.frees then do
    tell (.ilock c.ip)
    itrunc c.ip
    iupdate c.ip
    tell (.iunlock c.ip)
  else pure ()

/-- `begin_op(); iput(ip); end_op();` -/
def close (c : Closing) : FaultProg Unit := transact c.log (io (iput c))

/-- What `kexit` finds. -/
structure Exiting where
  /-- The open files whose last reference goes. -/
  files : List Closing
  /-- The transaction of the swap cleanup. -/
  cleanup : Window
  /-- Whether the reference to the swap file is the last one; then, whether
  the inode goes too, and the transaction of `fileclose`. -/
  swapLast : Option (Bool × Window)
  cwd : Closing

def closeAll : List Closing → FaultProg Unit
  | [] => pure ()
  | c :: cs => do
      close c
      closeAll cs

/-- `fileclose(p->swap_file)` -/
def closeSwap (x : Exiting) (s : Nat) : FaultProg Unit :=
  match x.swapLast with
  | none => pure ()
  | some y => close ⟨s, y.1, y.2⟩

/-- The body of the swap cleanup. -/
def dropSwap (x : Exiting) (s : Nat) : FaultProg Unit := do
  io (itrunc s)
  closeSwap x s

def swapCleanup (x : Exiting) : Option Nat → FaultProg Unit
  | none => pure ()
  | some s => transact x.cleanup (dropSwap x s)

/-- `kexit(-1)` -/
def kexit {α : Type} (x : Exiting) (p : Proc) : FaultProg α :=
  if p.isInit then Prog.panic "init exiting"
  else do
    closeAll x.files
    swapCleanup x p.swapFile
    close x.cwd
    Prog.exit id

/-! ## The page fault -/

/-- The state in which `handle_pgfault` is entered, and what it finds. -/
structure Entry where
  p : Proc
  va : Nat
  /-- `kalloc` finds a page; it does so after an eviction. -/
  free : Bool
  freed : Bool
  /-- The page of the victim, if it is mapped. -/
  page : Option (Nat → UInt8)
  /-- The uninitialised stack. -/
  junk : Nat → UInt8
  /-- `mappages` succeeds. -/
  mapped : Bool
  /-- The transactions that write a page to, and read one from, the swap
  file. -/
  out : Window
  back : Window
  exiting : Exiting

open Prog in
/-- `swap_write_page(p, slot, page)`; a null page is copied from address
0. -/
def swapWritePage (slot : Nat) : Option Nat → Option (Nat → UInt8) → BProg Bool
  | none, _ => pure false
  | some s, some page => Vol.swapWritePage s slot page
  | some s, none => do
      tell (.ilock s)
      let r ← writei (fun _ _ => Prog.panic "kerneltrap") (fun _ => 0) s (slot * 4096) 4096
      tell (.iunlock s)
      pure (r == some 4096)

/-- The dirty branch of `evict_page`. -/
def swapOut (e : Entry) (va : Nat) : FaultProg Proc :=
  match e.p.freeSlot with
  | none => kexit e.exiting e.p
  | some slot => do
      if ← transact e.out (io (swapWritePage slot e.p.swapFile e.page)) then
        pure ((e.p.takeSlot slot).recordSwapped va slot)
      else kexit e.exiting (e.p.takeSlot slot)

/-- The end of `evict_page`. -/
def dropVictim (i : Nat) (p : Proc) : FaultProg Proc :=
  match p.residentAt (p.numResident - 1) with
  | none => Prog.panic "kerneltrap"
  | some last => pure { p with
      residentPages := Function.update p.residentPages i last
      numResident := p.numResident - 1 }

/-- `if(dirty) ... else ...` -/
def saveVictim (e : Entry) : FaultProg Proc :=
  if (e.p.residentPages e.p.victim).dirty then swapOut e (e.p.residentPages e.p.victim).va
  else pure e.p

/-- `evict_page(p)`, which returns 0; the result is the process after it. -/
def evictPage (e : Entry) : FaultProg Proc := do
  let p ← saveVictim e
  dropVictim e.p.victim p

/-- The allocation at the head of `handle_pgfault`. -/
def allocOrEvict (e : Entry) : FaultProg Proc :=
  if e.free then pure e.p
  else do
    let p ← evictPage e
    if e.freed then pure p else Prog.panic "kalloc failed after eviction"

open Prog in
/-- The read of a page from the swap file; a null `swap_file` is followed. -/
def swapReadPage (slot : Nat) : Option Nat → BProg Bool
  | none => Prog.panic "kerneltrap"
  | some s => do
      tell (.ilock s)
      let r ← readi kernelCopy s (slot * 4096) 4096
      tell (.iunlock s)
      pure (r == some 4096)

/-- Case 1 of `handle_pgfault`. -/
def swapIn (e : Entry) (p : Proc) (slot : Nat) : FaultProg Bool := do
  if ← transact e.back (io (swapReadPage slot p.swapFile)) then pure e.mapped
  else Prog.panic "swap_read_page failed"

open Prog in
/-- The header loop of `handle_pgfault` on the file `j`. -/
def segLoop (j va : Nat) : Nat → Nat → (Nat → UInt8) → BProg (Option ProgHdr)
  | 0, _, _ => pure none
  | n + 1, off, buf => do
      let _ ← readi kernelCopy j off 56
      let v ← get
      let buf := Fs.readInto (v.inode j).file off 56 buf
      let ph := ProgHdr.decode buf
      if ph.covers va then pure (some ph) else segLoop j va n ((off + 56) % 4294967296) buf

/-- The file header, and the loop. -/
def segFind (j va : Nat) (junk : Nat → UInt8) : BProg (Option ProgHdr) := do
  let _ ← readi kernelCopy j 0 64
  let v ← Prog.get
  let elf := ElfHdr.decode (Fs.readInto (v.inode j).file 0 64 junk)
  segLoop j va elf.phnum (elf.phoff % 4294967296) junk

/-- Case 2 of `handle_pgfault`, without a lock on the executable. -/
def loadPage (e : Entry) (p : Proc) (va : Nat) : BProg Bool :=
  if ¬ va < p.heapStart ∧ ¬ (p.heapStart ≤ va ∧ va < p.sz) then pure false
  else
    match p.execIp with
    | none => Prog.panic "kerneltrap"
    | some j => do
        match ← segFind j va e.junk with
        | some ph =>
            let r ← readi kernelCopy j (ph.fileOffset va) (ph.fileSize va)
            pure (r == some (ph.fileSize va) && e.mapped)
        | none =>
            pure ((va < p.sz || u64 (p.regs.sp + 18446744073709547520) ≤ va) && e.mapped)

/-- The two cases; the result tells whether a page was mapped. -/
def fetchPage (e : Entry) (p : Proc) (va : Nat) : FaultProg Bool :=
  match (p.takeSwapped va).1 with
  | some slot => swapIn e p slot
  | none => io (loadPage e p va)

/-- `add_to_resident_set`, as far as it calls `kexit`. -/
def addToResidentSet (e : Entry) (p : Proc) : FaultProg Unit :=
  if maxResidentPages ≤ p.numResident then kexit e.exiting p else pure ()

/-- `handle_pgfault(pagetable, va, access_type)` -/
def handlePgfault (e : Entry) : FaultProg Int :=
  if maxva ≤ e.va then pure (-1)
  else do
    let p ← allocOrEvict e
    if ← fetchPage e p (pgrounddown e.va) then
      addToResidentSet e p
      pure 0
    else pure (-1)

/-! ## The transfer -/

/-- `begin_op` without the log. -/
def forget : LockEv → BlockEv
  | .io e => e
  | .beginOp _ => .beginOp

/-- A fault inside a copy: one that does not return ends the call. -/
def nested {α : Type} (x : FaultProg α) : BProg α := fun v =>
  match x v with
  | .ret a v' w => .ret a v' (w.map forget)
  | .exit _ w => .panic "exit" (w.map forget)
  | .panic m w => .panic m (w.map forget)

/-- `copyout` or `copyin` of a part of a block, which meets the faults
`es`. -/
def copyUser : List Entry → BProg Bool
  | [] => pure true
  | e :: es => do
      if (← nested (handlePgfault e)) ≠ 0 then pure false else copyUser es

open Prog in
/-- `fileread` for `FD_INODE` -/
def fileread (copy : Nat → Nat → BProg Bool) (i off n : Nat) : BProg (Option Nat) := do
  tell (.ilock i)
  let r ← readi copy i off n
  tell (.iunlock i)
  pure r

/-- `max` of `filewrite`, 3 blocks. -/
def writeMax : Nat := (maxOpBlocks - 1 - 1 - 2) / 2 * 1024

open Prog in
/-- The loop of `filewrite` for `FD_INODE`: a transaction for every
`writeMax` bytes. -/
def filewriteLoop (copy : Nat → Nat → BProg Bool) (src : Nat → UInt8) (i off n : Nat) :
    Nat → Nat → BProg (Option Nat)
  | 0, _ => pure none
  | fuel + 1, pos =>
      if pos < n then do
        let n1 := min (n - pos) writeMax
        tell .beginOp
        tell (.ilock i)
        let r ← writei (fun tot m => copy (pos + tot) m) (fun k => src (pos + k)) i (off + pos) n1
        tell (.iunlock i)
        tell .endOp
        if r = some n1 then filewriteLoop copy src i off n fuel (pos + n1) else pure none
      else pure (some n)

/-- `filewrite` for `FD_INODE`; `none` is -1. -/
def filewrite (copy : Nat → Nat → BProg Bool) (src : Nat → UInt8) (i off n : Nat) :
    BProg (Option Nat) := filewriteLoop copy src i off n (n / writeMax + 2) 0

/-- A `read` (without `src`) or a `write` of `n` bytes of file `file` at
`off`. -/
structure Transfer where
  file : Nat
  off : Nat
  n : Nat
  src : Option (Nat → UInt8)

namespace Transfer

/-- Transactions that are open during the copies. -/
def depth (T : Transfer) : Nat := if T.src = none then 0 else 1

def run (T : Transfer) (copy : Nat → Nat → BProg Bool) : BProg (Option Nat) :=
  match T.src with
  | none => fileread copy T.file T.off T.n
  | some src => filewrite copy src T.file T.off T.n

/-- The copies of a transfer, up to the moment when fault `k` at byte `q`
of the user buffer is entered; there the run stops. -/
def upTo (faults : Nat → List Entry) (q k : Nat) (pos _m : Nat) : BProg Bool :=
  if pos = q then do
    if ← copyUser ((faults q).take k) then Prog.exit id else pure false
  else copyUser (faults pos)

/-- The transfer meets `faults` in its copies; fault `k` at byte `q` is
entered in the volume `v'`, after the observations `w`. -/
def Enters (T : Transfer) (faults : Nat → List Entry) (v : Vol) (q k : Nat) (v' : Vol)
    (w : List BlockEv) : Prop := T.run (upTo faults q k) v = .exit v' w

end Transfer

/-! ## What a fault uses -/

/-- A use of the file system by a page fault. -/
inductive Use where
  /-- A transaction, `level` deep inside the others of the fault, that
  locks the inode `lock`. `ended` is missing if it does not get to its
  `end_op`. -/
  | tx (begun : Log) (level : Nat) (lock : Option Nat) (ended : Option Log)
  /-- A read of `n` bytes of file `j` at `off`, without a lock. -/
  | read (j off n : Nat)
  deriving DecidableEq

/-- Where in a transfer a fault happens: at block `bn` of `file`, which is
block `addr` of the disk, with `depth` transactions open. -/
structure Point where
  file : Nat
  bn : Nat
  addr : Nat
  depth : Nat

/-- What the process holds there. -/
def Point.held (x : Point) (level : Nat) : Held := ⟨[x.addr], [x.file], x.depth + level⟩

/-- The use needs what the transfer holds. A transaction does so if there
is not enough space in the log for it next to the open ones of this very
process, if it locks the file of the transfer, or if it commits the block
that is being copied; a read, if it comes to the block that is being
copied. -/
def Use.Collides (x : Point) : Use → Prop
  | .tx begun level lock ended =>
      (0 < x.depth + level ∧
        logBlocks < begun.lh.length + (x.depth + level + 1) * maxOpBlocks) ∨
      lock = some x.file ∨ ∃ l ∈ ended, l.outstanding = 1 ∧ x.addr ∈ l.lh
  | .read j off n => j = x.file ∧ ∃ k, off ≤ k ∧ k < off + n ∧ k / 1024 = x.bn

/-- What is used after `x`, if it returns. -/
def thenUses {ε α : Type} (x : Prog Vol ε α) (k : α → Vol → List Use) (v : Vol) : List Use :=
  match x v with
  | .ret a v' _ => k a v'
  | .exit _ _ => []
  | .panic _ _ => []

def Window.use {ε α : Type} (t : Window) (level : Nat) (lock : Option Nat) (x : Prog Vol ε α)
    (v : Vol) : Use :=
  .tx t.begun level lock (match x v with
    | .ret _ _ _ => some t.ended
    | .exit _ _ => none
    | .panic _ _ => none)

def Closing.uses (c : Closing) (level : Nat) (v : Vol) : List Use :=
  [c.log.use level (if c.frees then some c.ip else none) (iput c) v]

def closeUses : List Closing → Vol → List Use
  | [], _ => []
  | c :: cs, v => c.uses 0 v ++ thenUses (close c) (fun _ => closeUses cs) v

def closeSwapUses (x : Exiting) (s : Nat) (v : Vol) : List Use :=
  match x.swapLast with
  | none => []
  | some y => Closing.uses ⟨s, y.1, y.2⟩ 1 v

def dropSwapUses (x : Exiting) (s : Nat) : Vol → List Use :=
  thenUses (itrunc s) fun _ => closeSwapUses x s

def cleanupUses (x : Exiting) (v : Vol) : Option Nat → List Use
  | none => []
  | some s => x.cleanup.use 0 none (dropSwap x s) v :: dropSwapUses x s v

def exitUses (x : Exiting) (p : Proc) (v : Vol) : List Use :=
  if p.isInit then []
  else closeUses x.files v ++ thenUses (closeAll x.files) (fun _ v =>
    cleanupUses x v p.swapFile ++ thenUses (swapCleanup x p.swapFile) (fun _ => x.cwd.uses 0) v) v

def swapOutUses (e : Entry) (v : Vol) : List Use :=
  match e.p.freeSlot with
  | none => exitUses e.exiting e.p v
  | some slot =>
      e.out.use 0 e.p.swapFile (swapWritePage slot e.p.swapFile e.page) v ::
        thenUses (transact e.out (io (swapWritePage slot e.p.swapFile e.page)))
          (fun ok => if ok then fun _ => [] else exitUses e.exiting (e.p.takeSlot slot)) v

def evictUses (e : Entry) (v : Vol) : List Use :=
  if e.free then []
  else if (e.p.residentPages e.p.victim).dirty then swapOutUses e v
  else []

/-- A read by the loader. -/
def readUse (v : Vol) (j off n : Nat) : Use := .read j off (Fs.readi (v.inode j).file off n)

def segUses (v : Vol) (j va : Nat) : Nat → Nat → (Nat → UInt8) → List Use
  | 0, _, _ => []
  | n + 1, off, buf =>
      let buf := Fs.readInto (v.inode j).file off 56 buf
      readUse v j off 56 :: if (ProgHdr.decode buf).covers va then []
        else segUses v j va n ((off + 56) % 4294967296) buf

/-- The reads of the loader: the file header, program headers until one
covers the page, and the page. -/
def loadUses (e : Entry) (p : Proc) (va : Nat) (v : Vol) : List Use :=
  if ¬ va < p.heapStart ∧ ¬ (p.heapStart ≤ va ∧ va < p.sz) then []
  else
    match p.execIp with
    | none => []
    | some j =>
        let elf := ElfHdr.decode (Fs.readInto (v.inode j).file 0 64 e.junk)
        readUse v j 0 64 :: (segUses v j va elf.phnum (elf.phoff % 4294967296) e.junk ++
          match segFor (v.inode j).file e.junk va with
          | none => []
          | some ph => [readUse v j (ph.fileOffset va) (ph.fileSize va)])

def fetchUses (e : Entry) (p : Proc) (va : Nat) (v : Vol) : List Use :=
  match (p.takeSwapped va).1 with
  | some slot => [e.back.use 0 p.swapFile (swapReadPage slot p.swapFile) v]
  | none => loadUses e p va v

/-- **What a page fault uses**, as the state and the environment it is
entered in determine it. -/
def Entry.uses (e : Entry) (v : Vol) : List Use :=
  if maxva ≤ e.va then []
  else evictUses e v ++ thenUses (allocOrEvict e) (fun p v =>
    fetchUses e p (pgrounddown e.va) v ++ thenUses (fetchPage e p (pgrounddown e.va))
      (fun ok v => if ok && decide (maxResidentPages ≤ p.numResident)
        then exitUses e.exiting p v else []) v) v

/-! ## What is known of the environment -/

/-- The log has room for what is logged, and no block of the log itself is
logged. -/
structure Window.Sane (t : Window) : Prop where
  home : ∀ b ∈ t.ended.lh, logStart + logBlocks < b
  room : t.ended.lh.length ≤ logBlocks

/-- `sb.ninodes` -/
def ninodes : Nat := 200

structure Closing.Sane (c : Closing) : Prop where
  ip : c.ip < ninodes
  log : c.log.Sane

structure Exiting.Sane (x : Exiting) : Prop where
  files : ∀ c ∈ x.files, c.Sane
  cleanup : x.cleanup.Sane
  swapLast : ∀ y ∈ x.swapLast, y.2.Sane
  cwd : x.cwd.Sane

structure Entry.Sane (e : Entry) : Prop where
  out : e.out.Sane
  back : e.back.Sane
  swap : ∀ s ∈ e.p.swapFile, s < ninodes
  exiting : e.exiting.Sane

end Reentry

end OsSuite.Xv6
