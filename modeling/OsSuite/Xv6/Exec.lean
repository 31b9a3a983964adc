import OsSuite.Xv6.Fault

/-!
# Exec — `kexec`

`kexec` first makes a swap file for the process, then builds a page table
for the new image, and commits. A segment is not loaded: its entries are
marked and its pages fault in later. Parts of `struct proc` are written
on the way and stay written when `kexec` fails.

`namei` is the lookup in `Fs.names`. Two answers come from outside: whether
the directory entry of a new swap file could be written (`dirlinkOk`) and
whether the file table had room (`fileallocOk`).
-/

namespace OsSuite.Xv6

/-- `bad:` once there is a page table. -/
def execBad (root : Frame) (sz : Nat) : PProg Int := do
  onSys (procFreepagetable root sz)
  pure (-1)

/-- The header loop of `kexec`: whether it got through, and `sz`. -/
def loadHeaders (root : Frame) (ip : Inode) : Nat → Nat → Nat → Prog Sys Event (Bool × Nat)
  | 0, _, sz => pure (true, sz)
  | n + 1, off, sz =>
      let ph := ProgHdr.decode fun k => ip.data (off + k)
      let vaEnd := u64 (ph.vaddr + ph.memsz)
      if Fs.readi ip off 56 ≠ 56 then pure (false, sz)
      else if ph.type ≠ 1 then loadHeaders root ip n ((off + 56) % 4294967296) sz
      else if ph.memsz < ph.filesz then pure (false, sz)
      else if vaEnd < ph.vaddr then pure (false, sz)
      else if ph.vaddr % 4096 ≠ 0 then pure (false, sz)
      else do
        if (← ulazymalloc root ph.vaddr vaEnd (flags2perm ph.flags)) = 0 then pure (false, sz)
        else loadHeaders root ip n ((off + 56) % 4294967296) (max sz vaEnd)

/-- `sp -= n; sp -= sp % 16` -/
def pushDown (sp n : Nat) : Nat :=
  let sp := u64 (18446744073709551616 + sp - n)
  sp - sp % 16

/-- The argument loop of `kexec`: whether it got through, `sp`, and the
addresses in `ustack`. -/
def pushArgs (root : Frame) (stackbase : Nat) :
    List (List UInt8) → Nat → List Nat → PProg (Bool × Nat × List Nat)
  | [], sp, ustack => pure (true, sp, ustack)
  | arg :: rest, sp, ustack =>
      let sp' := pushDown sp (arg.length + 1)
      if 32 ≤ ustack.length then pure (false, sp, ustack)
      else if sp' < stackbase then pure (false, sp', ustack)
      else do
        let r ← copyout root sp' (arg ++ [0])
        if r.1 then pushArgs root stackbase rest sp' (ustack ++ [sp'])
        else pure (false, sp', ustack)

/-- A `uint64` in memory. -/
def bytes64 (x : Nat) : List UInt8 :=
  (List.range 8).map fun i => UInt8.ofNat (x / 256 ^ i)

/-- The commit of `kexec`. The swapped-page table and the slot bitmap
are not reset. -/
def execCommit (root : Frame) (sz entry sp : Nat) (argc : Nat) : PProg Int := do
  let st ← Prog.get
  modifyProc fun p => { p with
    numResident := 0
    nextFifoSeq := 0
    pagetable := root
    sz := sz
    regs := { p.regs with epc := entry, sp := sp, a1 := sp } }
  Prog.tell .reset
  onSys (procFreepagetable st.p.pagetable st.p.sz)
  pure argc

/-- `kexec` from the stack on: `sz` is the end of the last segment. -/
def execStack (root : Frame) (sz entry : Nat) (argv : List (List UInt8)) : PProg Int := do
  modifyProc fun p => { p with heapStart := sz }
  let sz := pgroundup sz
  let sz1 ← onSys (uvmalloc root sz (u64 (sz + 24576)) ⟨true, true, false, true⟩)
  if sz1 = 0 then execBad root sz
  else
    onSys (uvmclear root (u64 (18446744073709551616 + sz1 - 24576)))
    let stackbase := u64 (18446744073709551616 + sz1 - 20480)
    let (ok, sp, ustack) ← pushArgs root stackbase argv sz1 []
    if !ok then execBad root sz1
    else
      let sp := pushDown sp ((ustack.length + 1) * 8)
      if sp < stackbase then execBad root sz1
      else
        let r ← copyout root sp ((ustack ++ [0]).flatMap bytes64)
        if !r.1 then execBad root sz1
        else execCommit root sz1 entry sp ustack.length

/-- `kexec` from the executable on. A read of more than 16 headers runs
over the end of `phdrs`, the last field of `struct proc`. -/
def execImage (ino : Nat) (argv : List (List UInt8)) : PProg Int := do
  let st ← Prog.get
  let ip := st.sys.fs.inode ino
  let elf := ElfHdr.decode ip.data
  if Fs.readi ip 0 64 ≠ 64 then pure (-1)
  else if elf.magic ≠ elfMagic then pure (-1)
  else
    match ← onSys (procPagetable st.p.trapframe) with
    | none => pure (-1)
    | some root =>
        let off := elf.phoff % 4294967296
        let (ok, sz) ← onSys (loadHeaders root ip elf.phnum off 0)
        if !ok then execBad root sz
        else
          let n := 56 * elf.phnum
          if 896 < Fs.readi ip off n then Prog.panic "kerneltrap"
          else
            modifyProc fun p => { p with
              execIp := some ino
              numPhdrs := elf.phnum
              phdrs := Fs.readInto ip off n p.phdrs }
            if Fs.readi ip off n ≠ n then execBad root sz
            else execStack root sz elf.entry argv

/-- `kexec(path, argv)`. When `filealloc` fails, `ip` is unlocked and put
twice. -/
def kexec (path : List Char) (argv : List (List UInt8)) (dirlinkOk fileallocOk : Bool) :
    PProg Int := do
  let st ← Prog.get
  match st.sys.fs.create (swapName st.p.pid) dirlinkOk with
  | none => pure (-1)
  | some (ino, fs) =>
      modifyFs fun _ => fs
      if fileallocOk then
        modifyProc fun p => { p with swapFile := some ino }
        Prog.tell .swapFile
        match fs.names path with
        | none => pure (-1)
        | some ino => execImage ino argv
      else Prog.panic "iunlock"

end OsSuite.Xv6
