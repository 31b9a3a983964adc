import OsSuite.Xv6.Riscv

/-!
# Fs — files as the pager sees them

The inode layer of `fs.c` and the one directory operation the pager
needs. An inode is its size, its bytes and the set of blocks `bmap`
finds allocated; the disk is the number of blocks `balloc` can still
hand out. Every block below `size` is present (a file only ever grows at
its end), so `readi` never meets a hole; `writei` stops early when the
disk is full.

Swap files are named `/pgswp<pid>`: `itoa` and `strcat` build the path,
and the directory layer cuts the name to `DIRSIZ` characters.
-/

namespace OsSuite.Xv6

structure Inode where
  /-- `T_FILE` (or `T_DEVICE`), as opposed to a directory. -/
  isFile : Bool
  size : Nat
  data : Nat → UInt8
  /-- Data block `bn` is allocated. -/
  blocks : Nat → Bool
  /-- The indirect block is allocated. -/
  indirect : Bool

/-- A newly allocated inode. -/
def Inode.empty : Inode := ⟨true, 0, fun _ => 0, fun _ => false, false⟩

structure Fs where
  inode : Nat → Inode
  /-- Blocks that `balloc` can still find. -/
  nfree : Nat
  /-- Directory lookup, by name cut to `DIRSIZ`. -/
  names : List Char → Option Nat
  /-- Inode numbers that `ialloc` can still find, in its order. -/
  freeInodes : List Nat

/-- `MAXFILE * BSIZE` -/
def maxfileBytes : Nat := 274432

namespace Fs

/-- Replace one inode. -/
def setInode (fs : Fs) (ino : Nat) (ip : Inode) : Fs :=
  { fs with inode := Function.update fs.inode ino ip }

/-- `balloc` for data block `bn`: the block arrives zeroed. -/
def balloc (fs : Fs) (ino bn : Nat) : Bool × Fs :=
  if fs.nfree = 0 then (false, fs)
  else
    let ip := fs.inode ino
    (true, { fs with nfree := fs.nfree - 1 }.setInode ino
      { ip with
        blocks := Function.update ip.blocks bn true
        data := fun k => if k / 1024 = bn then 0 else ip.data k })

/-- `bmap(ip, bn)` for `bn < MAXFILE`: whether a block could be found or
allocated. The first 12 blocks are direct; the indirect block is
allocated on the way to the others. -/
def bmap (fs : Fs) (ino bn : Nat) : Bool × Fs :=
  let ip := fs.inode ino
  if bn < 12 then
    if ip.blocks bn then (true, fs) else fs.balloc ino bn
  else if ip.indirect then
    if ip.blocks bn then (true, fs) else fs.balloc ino bn
  else if fs.nfree = 0 then (false, fs)
  else { fs with nfree := fs.nfree - 1 }.setInode ino { ip with indirect := true } |>.balloc ino bn

/-- Overwrite `m` bytes of a file at `off` by `src`. -/
def put (fs : Fs) (ino off m : Nat) (src : Nat → UInt8) : Fs :=
  let ip := fs.inode ino
  fs.setInode ino
    { ip with data := fun k => if off ≤ k ∧ k < off + m then src (k - off) else ip.data k }

/-- The loop of `writei`: block by block, until `n` bytes are written or
the disk is full. Returns `tot` and `off`. -/
def writeiLoop (ino : Nat) (src : Nat → UInt8) (n : Nat) :
    Nat → Fs → Nat → Nat → Fs × Nat × Nat
  | 0, fs, tot, off => (fs, tot, off)
  | fuel + 1, fs, tot, off =>
      if tot < n then
        let b := fs.bmap ino (off / 1024)
        if b.1 then
          let m := min (n - tot) (1024 - off % 1024)
          writeiLoop ino src n fuel (b.2.put ino off m fun i => src (tot + i)) (tot + m) (off + m)
        else (b.2, tot, off)
      else (fs, tot, off)

/-- The two tests at the head of `writei`. -/
def writeiAccepts (ip : Inode) (off n : Nat) : Bool :=
  !(ip.size < off || (off + n) % 4294967296 < off) && (off + n ≤ maxfileBytes)

/-- `writei(ip, 0, src, off, n)`: the new file system and the result. -/
def writei (fs : Fs) (ino : Nat) (src : Nat → UInt8) (off n : Nat) : Fs × Int :=
  if writeiAccepts (fs.inode ino) off n then
    let r := writeiLoop ino src n n fs 0 off
    let ip := r.1.inode ino
    (r.1.setInode ino { ip with size := if ip.size < r.2.2 then r.2.2 else ip.size }, r.2.1)
  else (fs, -1)

/-- How many bytes `readi(ip, 0, dst, off, n)` delivers; byte `i` of them
is `ip.data (off + i)`. -/
def readi (ip : Inode) (off n : Nat) : Nat :=
  if ip.size < off || (off + n) % 4294967296 < off then 0
  else if ip.size < off + n then ip.size - off else n

/-- A buffer after `readi` into it: what is not delivered stays. -/
def readInto (ip : Inode) (off n : Nat) (buf : Nat → UInt8) : Nat → UInt8 := fun i =>
  if i < readi ip off n then ip.data (off + i) else buf i

/-- `itrunc` -/
def itrunc (fs : Fs) (ino : Nat) : Fs :=
  let ip := fs.inode ino
  let used := ((List.range 268).filter fun bn => ip.blocks bn).length + ip.indirect.toNat
  { fs with nfree := fs.nfree + used }.setInode ino
    { ip with size := 0, blocks := fun _ => false, indirect := false }

/-- `create(path, T_FILE, 0, 0)` for a name in the root directory. An
existing file is returned as it is; `dirlinkOk` is whether a new entry
could be written to the directory. -/
def create (fs : Fs) (name : List Char) (dirlinkOk : Bool) : Option (Nat × Fs) :=
  match fs.names name with
  | some ino => if (fs.inode ino).isFile then some (ino, fs) else none
  | none =>
    match fs.freeInodes with
    | [] => none
    | ino :: rest =>
      if dirlinkOk then
        some (ino, { fs with
          freeInodes := rest
          names := Function.update fs.names name (some ino)
          inode := Function.update fs.inode ino Inode.empty })
      else none

end Fs

/-! ## The name of a swap file -/

/-- The digit loop of `itoa`: least significant digit first. -/
def itoaDigits : Nat → Nat → List Char
  | 0, _ => []
  | fuel + 1, n => if n = 0 then [] else Char.ofNat (n % 10 + 48) :: itoaDigits fuel (n / 10)

/-- `itoa(n, buf, min_width)`: digits in reverse, padded with `'0'`, then
the whole string reversed. -/
def itoa (n minWidth : Nat) : List Char :=
  let digits := if n = 0 then ['0'] else itoaDigits n n
  (digits ++ List.replicate (minWidth - digits.length) '0').reverse

/-- The directory entry of `"/pgswp"` followed by `itoa(pid, 5)`, cut to
`DIRSIZ` by `skipelem`. -/
def swapName (pid : Nat) : List Char := ("pgswp".toList ++ itoa pid 5).take 14

end OsSuite.Xv6
