import OsSuite.Lib.Sure
import OsSuite.Lib.Table

/-!
# Inodes — the in-core inode table, its locks and the transactions around it

`fs.c` from `iget` to `namex`, and `create` of `sysfile.c`. A pointer to
an inode is an index into `itable`. What is modelled of an inode is what
decides about references, locks and transactions: the count `ref`, the
sleep lock, and the type and link count with their copies on the disk.
Contents and blocks are the matter of `Fs` and `Blocks`.

`ops` counts the `begin_op`s of the RUNNING process that no `end_op` has
matched, `others` the open transactions of the other processes; their sum
is `log.outstanding`. Every `end_op` and every `iput` is observed together
with `ops`. A process that waits for a lock it holds itself never goes on;
the model stops there (`acquiresleep`).
-/

namespace OsSuite.Xv6.Life

/-- `short type`; `free` is 0. -/
inductive FileType where
  | free | dir | file | device
  deriving DecidableEq, Repr

/-- An inode on the disk. -/
structure Dinode where
  type : FileType
  nlink : Nat
  deriving DecidableEq, Repr

/-- `struct inode`, an entry of `itable`. -/
structure Node where
  inum : Nat
  ref : Int
  valid : Bool
  type : FileType
  nlink : Nat
  /-- The running process holds the sleep lock. -/
  locked : Bool
  deriving DecidableEq, Repr

structure Icache where
  inode : Nat → Node
  disk : Nat → Dinode
  /-- The entries of a directory, by name cut to `DIRSIZ`. -/
  dirent : Nat → List Char → Option Nat
  /-- Open transactions of the other processes. -/
  others : Nat
  /-- Open transactions of the running process. -/
  ops : Int

inductive Event where
  /-- `end_op`, with the transactions open before it. -/
  | endOp (ops : Int)
  /-- `iput(ip)`, with the open transactions. -/
  | iput (ip : Nat) (ops : Int)
  deriving DecidableEq, Repr

abbrev IProg (α : Type) := Prog Icache Event α

/-- `NINODE` -/
def ninode : Nat := 50

/-- `sb.ninodes` -/
def ninodes : Nat := 200

/-- `ROOTINO` -/
def rootino : Nat := 1

def Icache.setInode (s : Icache) (ip : Nat) (n : Node) : Icache :=
  { s with inode := Function.update s.inode ip n }

def modifyInode (ip : Nat) (f : Node → Node) : IProg Unit :=
  Prog.modify fun s => s.setInode ip (f (s.inode ip))

/-! ## Transactions -/

def beginOp : IProg Unit := Prog.modify fun s => { s with ops := s.ops + 1 }

def endOp : IProg Unit := do
  let s ← Prog.get
  Prog.tell (.endOp s.ops)
  Prog.modify fun s => { s with ops := s.ops - 1 }

/-- The guard of `log_write`. -/
def logWrite : IProg Unit := do
  let s ← Prog.get
  if s.others + s.ops < 1 then Prog.panic "log_write outside of trans" else pure ()

/-! ## References and locks -/

/-- `iget(dev, inum)` -/
def iget (inum : Nat) : IProg Nat := do
  let s ← Prog.get
  match Table.firstIdx (fun n => decide (0 < n.ref) && n.inum == inum) s.inode ninode with
  | some ip =>
      modifyInode ip fun n => { n with ref := n.ref + 1 }
      pure ip
  | none =>
      match Table.firstIdx (fun n => n.ref == 0) s.inode ninode with
      | none => Prog.panic "iget: no inodes"
      | some ip =>
          modifyInode ip fun n => { n with inum := inum, ref := 1, valid := false }
          pure ip

/-- `idup(ip)` -/
def idup (ip : Nat) : IProg Unit := modifyInode ip fun n => { n with ref := n.ref + 1 }

/-- `ilock(ip)` -/
def ilock (ip : Nat) : IProg Unit := do
  let s ← Prog.get
  if (s.inode ip).ref < 1 then Prog.panic "ilock"
  else if (s.inode ip).locked then Prog.panic "acquiresleep"
  else
    modifyInode ip fun n => { n with locked := true }
    if (s.inode ip).valid then pure ()
    else
      let d := s.disk (s.inode ip).inum
      modifyInode ip fun n => { n with type := d.type, nlink := d.nlink, valid := true }
      if d.type = .free then Prog.panic "ilock: no type" else pure ()

/-- `iunlock(ip)` -/
def iunlock (ip : Nat) : IProg Unit := do
  let s ← Prog.get
  if (s.inode ip).locked = false ∨ (s.inode ip).ref < 1 then Prog.panic "iunlock"
  else modifyInode ip fun n => { n with locked := false }

/-- `iupdate(ip)` -/
def iupdate (ip : Nat) : IProg Unit := do
  Prog.modify fun s =>
    let n := s.inode ip
    { s with disk := Function.update s.disk n.inum ⟨n.type, n.nlink⟩ }
  logWrite

/-- `itrunc(ip)`: each `bfree` and the final `iupdate` log a block. -/
def itrunc (ip : Nat) : IProg Unit := iupdate ip

/-- `iput(ip)` -/
def iput (ip : Nat) : IProg Unit := do
  let s ← Prog.get
  Prog.tell (.iput ip s.ops)
  let n := s.inode ip
  if n.ref = 1 ∧ n.valid = true ∧ n.nlink = 0 then
    if n.locked then Prog.panic "acquiresleep"
    else
      itrunc ip
      modifyInode ip fun n => { n with type := .free }
      iupdate ip
      modifyInode ip fun n => { n with valid := false }
      modifyInode ip fun n => { n with ref := n.ref - 1 }
  else modifyInode ip fun n => { n with ref := n.ref - 1 }

/-- `iunlockput(ip)` -/
def iunlockput (ip : Nat) : IProg Unit := do
  iunlock ip
  iput ip

/-- `ialloc(dev, type)` -/
def ialloc (type : FileType) : IProg (Option Nat) := do
  let s ← Prog.get
  match Table.firstIdx (fun d => d.type == .free) (fun k => s.disk (k + 1)) (ninodes - 1) with
  | none => pure none
  | some k =>
      Prog.modify fun s => { s with disk := Function.update s.disk (k + 1) ⟨type, 0⟩ }
      logWrite
      return some (← iget (k + 1))

/-! ## Directories -/

/-- `dirlookup(dp, name, 0)` -/
def dirlookup (dp : Nat) (name : List Char) : IProg (Option Nat) := do
  let s ← Prog.get
  if (s.inode dp).type ≠ .dir then Prog.panic "dirlookup not DIR"
  else
    match s.dirent (s.inode dp).inum name with
    | none => pure none
    | some inum => return some (← iget inum)

/-- `dirlink(dp, name, inum)`; `ok` is whether `writei` wrote the entry.
`writei` updates the inode in any case. -/
def dirlink (dp : Nat) (name : List Char) (inum : Nat) (ok : Bool) : IProg Bool := do
  match ← dirlookup dp name with
  | some ip =>
      iput ip
      pure false
  | none =>
      iupdate dp
      if ok then
        Prog.modify fun s =>
          let d := (s.inode dp).inum
          { s with dirent := Function.update s.dirent d (Function.update (s.dirent d) name (some inum)) }
      pure ok

/-- The loop of `namex`, over the elements that `skipelem` cuts off. -/
def namexLoop (parent : Bool) : List (List Char) → Nat → IProg (Option Nat)
  | [], ip => do
      if parent then
        iput ip
        pure none
      else pure (some ip)
  | name :: rest, ip => do
      ilock ip
      let s ← Prog.get
      if (s.inode ip).type ≠ .dir then
        iunlockput ip
        pure none
      else if parent && rest.isEmpty then
        iunlock ip
        pure (some ip)
      else
        match ← dirlookup ip name with
        | none =>
            iunlockput ip
            pure none
        | some next =>
            iunlockput ip
            namexLoop parent rest next

/-- A path: whether it starts at the root, and its elements. -/
structure Path where
  root : Bool
  elems : List (List Char)

/-- `namex(path, nameiparent, name)` of a process whose `cwd` is `cwd`. -/
def namex (cwd : Option Nat) (path : Path) (parent : Bool) : IProg (Option Nat) := do
  if path.root then
    let ip ← iget rootino
    namexLoop parent path.elems ip
  else
    match cwd with
    -- a null pointer
    | none => Prog.panic "kerneltrap"
    | some ip =>
        idup ip
        namexLoop parent path.elems ip

/-- The end of `create` when the entry could not be made. -/
def createFail (dp ip : Nat) : IProg (Option Nat) := do
  modifyInode ip fun n => { n with nlink := 0 }
  iupdate ip
  iunlockput ip
  iunlockput dp
  pure none

/-- `create(path, T_FILE, 0, 0)` of a name in the root directory. -/
def create (name : List Char) (linkOk : Bool) : IProg (Option Nat) := do
  match ← namex none ⟨true, [name]⟩ true with
  | none => pure none
  | some dp =>
      ilock dp
      match ← dirlookup dp name with
      | some ip =>
          iunlockput dp
          ilock ip
          let s ← Prog.get
          if (s.inode ip).type = .file ∨ (s.inode ip).type = .device then pure (some ip)
          else
            iunlockput ip
            pure none
      | none =>
          match ← ialloc .file with
          | none =>
              iunlockput dp
              pure none
          | some ip =>
              ilock ip
              modifyInode ip fun n => { n with nlink := 1 }
              iupdate ip
              let s ← Prog.get
              if ← dirlink dp name (s.inode ip).inum linkOk then
                iunlockput dp
                pure (some ip)
              else createFail dp ip

end OsSuite.Xv6.Life
