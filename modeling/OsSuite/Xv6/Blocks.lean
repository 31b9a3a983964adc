import OsSuite.Lib.Trace
import OsSuite.Xv6.Fs

/-!
# Blocks — files as disk blocks

The inode layer of `fs.c` once more, one level below `Fs`: here a block
has a number, and what matters is which buffers a call locks, which
blocks it logs and in what order. `bread` locks a buffer and `brelse`
unlocks it, `ilock`/`iunlock` do the same for an inode, and
`begin_op`/`end_op` bracket a transaction; all of them are observations.

`mkfs` puts the free map of its `FSSIZE` blocks into a single block, so
the outer loop of `balloc` has one round.
-/

namespace OsSuite.Xv6

/-- `FSSIZE`, the `sb.size` that `mkfs` writes. -/
def fssize : Nat := 2000

/-- `sb.bmapstart`: after the boot and super blocks, 31 log blocks and 13
inode blocks. -/
def bitmapBlock : Nat := 46

/-- `IBLOCK(i, sb)`, with 16 inodes in a block and `sb.inodestart` 33. -/
def iblock (i : Nat) : Nat := i / 16 + 33

/-- `NDIRECT`; `addrs[NDIRECT]` is the indirect block. -/
def ndirect : Nat := 12

/-- `NINDIRECT` -/
def nindirect : Nat := 256

/-- What a call does to locks and to the log. -/
inductive BlockEv where
  | bread (b : Nat)
  | brelse (b : Nat)
  | bwrite (b : Nat)
  | logWrite (b : Nat)
  | ilock (i : Nat)
  | iunlock (i : Nat)
  | beginOp
  | endOp
  /-- The end of a commit: `log.committing = 0`. -/
  | committed
  /-- `either_copyin` or `either_copyout` on the locked buffer of `b`. -/
  | copy (b : Nat)
  deriving DecidableEq, Repr

/-- An in-memory inode. -/
structure INode where
  size : Nat
  /-- `addrs[0 .. NDIRECT]`; 0 is no block. -/
  addrs : Nat → Nat
  data : Nat → UInt8

/-- The disk as the inode layer sees it. -/
structure Vol where
  /-- The free map. -/
  used : Nat → Bool
  /-- A block read as an array of block numbers. -/
  entry : Nat → Nat → Nat
  inode : Nat → INode

namespace Vol

def setInode (v : Vol) (i : Nat) (ip : INode) : Vol :=
  { v with inode := Function.update v.inode i ip }

def setAddr (v : Vol) (i k a : Nat) : Vol :=
  v.setInode i { v.inode i with addrs := Function.update (v.inode i).addrs k a }

def setEntry (v : Vol) (b j a : Nat) : Vol :=
  { v with entry := Function.update v.entry b (Function.update (v.entry b) j a) }

/-- Mark a block in the free map and zero it. -/
def take (v : Vol) (b : Nat) : Vol :=
  { v with used := Function.update v.used b true, entry := Function.update v.entry b fun _ => 0 }

def release (v : Vol) (b : Nat) : Vol := { v with used := Function.update v.used b false }

/-- The first free block of the map. -/
def firstFree (v : Vol) : Option Nat := (List.range fssize).find? fun b => !v.used b

/-- The address of data block `bn` of a file, 0 if it has none. -/
def addr (v : Vol) (i bn : Nat) : Nat :=
  if bn < ndirect then (v.inode i).addrs bn
  else if (v.inode i).addrs ndirect = 0 then 0
  else v.entry ((v.inode i).addrs ndirect) (bn - ndirect)

end Vol

abbrev BProg (α : Type) := Prog Vol BlockEv α

open Prog in
/-- `balloc(dev)`, with the `bzero` of the block. -/
def balloc : BProg Nat := do
  tell (.bread bitmapBlock)
  let v ← get
  match v.firstFree with
  | none =>
      tell (.brelse bitmapBlock)
      pure 0
  | some b =>
      tell (.logWrite bitmapBlock)
      tell (.brelse bitmapBlock)
      tell (.bread b)
      modify (·.take b)
      tell (.logWrite b)
      tell (.brelse b)
      pure b

open Prog in
/-- `bfree(dev, b)` -/
def bfree (b : Nat) : BProg Unit := do
  tell (.bread bitmapBlock)
  let v ← get
  if v.used b then
    modify (·.release b)
    tell (.logWrite bitmapBlock)
    tell (.brelse bitmapBlock)
  else Prog.panic "freeing free block"

open Prog in
/-- The block of `addrs[k]`, allocated if there is none: the direct case
of `bmap`, and its way to the indirect block. -/
def addrBlock (i k : Nat) : BProg Nat := do
  let v ← get
  if (v.inode i).addrs k = 0 then
    let a ← balloc
    if a = 0 then pure 0
    else
      modify (·.setAddr i k a)
      pure a
  else pure ((v.inode i).addrs k)

open Prog in
/-- The indirect case of `bmap`, with the indirect block locked. -/
def entryBlock (ind j : Nat) : BProg Nat := do
  let v ← get
  if v.entry ind j = 0 then
    let a ← balloc
    if a = 0 then pure 0
    else
      modify (·.setEntry ind j a)
      tell (.logWrite ind)
      pure a
  else pure (v.entry ind j)

open Prog in
/-- `bmap(ip, bn)` -/
def bmap (i bn : Nat) : BProg Nat :=
  if bn < ndirect then addrBlock i bn
  else if bn - ndirect < nindirect then do
    let ind ← addrBlock i ndirect
    if ind = 0 then pure 0
    else
      tell (.bread ind)
      let a ← entryBlock ind (bn - ndirect)
      tell (.brelse ind)
      pure a
  else Prog.panic "bmap: out of range"

open Prog in
/-- `iupdate(ip)` -/
def iupdate (i : Nat) : BProg Unit := do
  tell (.bread (iblock i))
  tell (.logWrite (iblock i))
  tell (.brelse (iblock i))

/-! `readi` and `writei` are given what `either_copyout` and
`either_copyin` do with a block: whether they succeed, and for `writei`
the bytes they fetch. Their loops run once per block, so `n / 1024 + 2`
rounds are enough. -/

open Prog in
/-- The loop of `readi`; `none` is the `-1` of a failed copy. -/
def readiLoop (copy : Nat → Nat → BProg Bool) (i n : Nat) :
    Nat → Nat → Nat → BProg (Option Nat)
  | 0, tot, _ => pure (some tot)
  | fuel + 1, tot, off =>
      if tot < n then do
        let a ← bmap i (off / 1024)
        if a = 0 then pure (some tot)
        else
          tell (.bread a)
          tell (.copy a)
          let m := min (n - tot) (1024 - off % 1024)
          let ok ← copy tot m
          tell (.brelse a)
          if ok then readiLoop copy i n fuel (tot + m) (off + m) else pure none
      else pure (some tot)

open Prog in
/-- `readi(ip, user_dst, dst, off, n)` -/
def readi (copy : Nat → Nat → BProg Bool) (i off n : Nat) : BProg (Option Nat) := do
  let v ← get
  let size := (v.inode i).size
  if size < off ∨ (off + n) % 4294967296 < off then pure (some 0)
  else
    let n := if size < off + n then size - off else n
    readiLoop copy i n (n / 1024 + 2) 0 off

/-- The bytes of a file after `m` bytes at `off` are overwritten. -/
def Vol.put (v : Vol) (i off m : Nat) (src : Nat → UInt8) : Vol :=
  v.setInode i { v.inode i with
    data := fun k => if off ≤ k ∧ k < off + m then src (k - off) else (v.inode i).data k }

open Prog in
/-- The loop of `writei`: `tot` and `off` at its end. -/
def writeiLoop (copy : Nat → Nat → BProg Bool) (src : Nat → UInt8) (i n : Nat) :
    Nat → Nat → Nat → BProg (Nat × Nat)
  | 0, tot, off => pure (tot, off)
  | fuel + 1, tot, off =>
      if tot < n then do
        let a ← bmap i (off / 1024)
        if a = 0 then pure (tot, off)
        else
          tell (.bread a)
          tell (.copy a)
          let m := min (n - tot) (1024 - off % 1024)
          if ← copy tot m then
            modify (·.put i off m fun k => src (tot + k))
            tell (.logWrite a)
            tell (.brelse a)
            writeiLoop copy src i n fuel (tot + m) (off + m)
          else
            tell (.brelse a)
            pure (tot, off)
      else pure (tot, off)

open Prog in
/-- `writei(ip, user_src, src, off, n)`; `none` is `-1`. -/
def writei (copy : Nat → Nat → BProg Bool) (src : Nat → UInt8) (i off n : Nat) :
    BProg (Option Nat) := do
  let v ← get
  if (v.inode i).size < off ∨ (off + n) % 4294967296 < off ∨ maxfileBytes < off + n then pure none
  else
    let r ← writeiLoop copy src i n (n / 1024 + 2) 0 off
    modify fun v =>
      if (v.inode i).size < r.2 then v.setInode i { v.inode i with size := r.2 } else v
    iupdate i
    pure (some r.1)

/-- A copy within the kernel (`user_src`, `user_dst` 0) cannot fail. -/
def kernelCopy (_ _ : Nat) : BProg Bool := pure true

open Prog in
/-- Round `k` of the first loop of `itrunc`. -/
def freeDirect (i k : Nat) : BProg Unit := do
  let v ← get
  if (v.inode i).addrs k ≠ 0 then
    bfree ((v.inode i).addrs k)
    modify (·.setAddr i k 0)
  else pure ()

open Prog in
/-- Round `j` of the loop of `itrunc` over the indirect block. -/
def freeEntry (ind j : Nat) : BProg Unit := do
  let v ← get
  if v.entry ind j ≠ 0 then bfree (v.entry ind j) else pure ()

open Prog in
/-- The middle of `itrunc`. -/
def freeIndirect (i : Nat) : BProg Unit := do
  let v ← get
  let ind := (v.inode i).addrs ndirect
  if ind ≠ 0 then
    tell (.bread ind)
    upTo (freeEntry ind) nindirect
    tell (.brelse ind)
    bfree ind
    modify (·.setAddr i ndirect 0)
  else pure ()

open Prog in
/-- `itrunc(ip)` -/
def itrunc (i : Nat) : BProg Unit := do
  upTo (freeDirect i) ndirect
  freeIndirect i
  modify fun v => v.setInode i { v.inode i with size := 0 }
  iupdate i

/-! ## What is logged -/

/-- The blocks that a run logs, in order. -/
def logged (w : List BlockEv) : List Nat :=
  w.filterMap fun | .logWrite b => some b | _ => none

@[simp] theorem logged_nil : logged [] = [] := rfl

@[simp] theorem logged_append (w w' : List BlockEv) : logged (w ++ w') = logged w ++ logged w' := by
  simp [logged]

@[simp] theorem logged_logWrite (b : Nat) (w : List BlockEv) :
    logged (.logWrite b :: w) = b :: logged w := rfl

@[simp] theorem logged_bread (b : Nat) (w : List BlockEv) :
    logged (.bread b :: w) = logged w := rfl

@[simp] theorem logged_brelse (b : Nat) (w : List BlockEv) :
    logged (.brelse b :: w) = logged w := rfl

@[simp] theorem logged_copy (b : Nat) (w : List BlockEv) :
    logged (.copy b :: w) = logged w := rfl

@[simp] theorem logged_ilock (b : Nat) (w : List BlockEv) :
    logged (.ilock b :: w) = logged w := rfl

@[simp] theorem logged_iunlock (b : Nat) (w : List BlockEv) :
    logged (.iunlock b :: w) = logged w := rfl

@[simp] theorem logged_beginOp (w : List BlockEv) : logged (.beginOp :: w) = logged w := rfl

@[simp] theorem logged_endOp (w : List BlockEv) : logged (.endOp :: w) = logged w := rfl

/-- Every block that is logged is one of `S`. -/
def logsOnly (S : Nat → Prop) : Link Vol BlockEv where
  ret _ w _ := ∀ b ∈ logged w, S b
  exit _ w _ := ∀ b ∈ logged w, S b
  panic _ _ w := ∀ b ∈ logged w, S b

theorem logsOnly_composes (S : Nat → Prop) : Composes (logsOnly S) where
  refl _ _ h := nomatch h
  trans h h' b hb := by
    rw [logged_append] at hb
    exact (List.mem_append.mp hb).elim (h b) (h' b)
  exit h h' b hb := by
    rw [logged_append] at hb
    exact (List.mem_append.mp hb).elim (h b) (h' b)
  panic h h' b hb := by
    rw [logged_append] at hb
    exact (List.mem_append.mp hb).elim (h b) (h' b)

section
variable {S : Nat → Prop}

theorem logsOnly_tell {e : BlockEv} (h : ∀ b ∈ logged [e], S b) :
    Respects (logsOnly S) (Prog.tell e : BProg Unit) := .tell fun _ => h

theorem logsOnly_modify (f : Vol → Vol) : Respects (logsOnly S) (Prog.modify f : BProg Unit) :=
  .modify fun _ _ h => nomatch h

theorem bfree_logsOnly (hS : S bitmapBlock) (b : Nat) : Respects (logsOnly S) (bfree b) := by
  have hC := logsOnly_composes S
  refine .bind hC (logsOnly_tell (by simp)) fun _ => .bind hC (.get hC) fun v => .ite ?_ ?_
  · exact .bind hC (logsOnly_modify _) fun _ =>
      .bind hC (logsOnly_tell (by simpa using hS)) fun _ => logsOnly_tell (by simp)
  · exact .panic fun _ _ h => nomatch h

theorem iupdate_logsOnly {i : Nat} (hS : S (iblock i)) : Respects (logsOnly S) (iupdate i) := by
  have hC := logsOnly_composes S
  exact .bind hC (logsOnly_tell (by simp)) fun _ =>
    .bind hC (logsOnly_tell (by simpa using hS)) fun _ => logsOnly_tell (by simp)

end

end OsSuite.Xv6
