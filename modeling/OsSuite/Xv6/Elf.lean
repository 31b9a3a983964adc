import OsSuite.Xv6.Fs

/-!
# Elf — executable headers

The fields of `elf.h` that `kexec`, `handle_pgfault` and `usertrap` read,
and the header search of `handle_pgfault`, which reads the file again on
every fault. `readi` is called there without a test of its result, so
the search works on a buffer that a short read leaves (partly) as it
was.
-/

namespace OsSuite.Xv6

/-- `struct elfhdr`, the fields that are read. -/
structure ElfHdr where
  magic : Nat
  entry : Nat
  phoff : Nat
  phnum : Nat
  deriving DecidableEq

/-- `struct proghdr`, the fields that are read. -/
structure ProgHdr where
  type : Nat
  flags : Nat
  off : Nat
  vaddr : Nat
  filesz : Nat
  memsz : Nat
  deriving DecidableEq

/-- `ELF_MAGIC` -/
def elfMagic : Nat := 0x464C457F

def ElfHdr.decode (b : Nat → UInt8) : ElfHdr :=
  ⟨leWord b 0 4, leWord b 24 8, leWord b 32 8, leWord b 56 2⟩

def ProgHdr.decode (b : Nat → UInt8) : ProgHdr :=
  ⟨leWord b 0 4, leWord b 4 4, leWord b 8 8, leWord b 16 8, leWord b 32 8, leWord b 40 8⟩

/-- `flags2perm`, before `PTE_U` is added. -/
def flags2perm (flags : Nat) : Perm :=
  ⟨flags.testBit 2, flags.testBit 1, flags.testBit 0, false⟩

/-- The address test of both header searches:
`va >= ph.vaddr && va < ph.vaddr + ph.memsz`. -/
def ProgHdr.spans (ph : ProgHdr) (va : Nat) : Bool :=
  ph.vaddr ≤ va && va < u64 (ph.vaddr + ph.memsz)

/-- The test of `handle_pgfault`, which also asks for `ELF_PROG_LOAD`. -/
def ProgHdr.covers (ph : ProgHdr) (va : Nat) : Bool := ph.type == 1 && ph.spans va

/-- `file_offset`, a `uint`. -/
def ProgHdr.fileOffset (ph : ProgHdr) (va : Nat) : Nat :=
  (ph.off + (va - ph.vaddr)) % 4294967296

/-- `file_size_to_read`, a `uint` that is cut to a page after it is cut
to 32 bits. -/
def ProgHdr.fileSize (ph : ProgHdr) (va : Nat) : Nat :=
  min 4096 (if va - ph.vaddr < ph.filesz then (ph.filesz - (va - ph.vaddr)) % 4294967296 else 0)

/-- The header loop of `handle_pgfault`: the first `ELF_PROG_LOAD` header
that covers `va`. `off` is the `int` the loop advances by
`sizeof(struct proghdr)`. -/
def segSearch (ip : Inode) (va : Nat) : Nat → Nat → (Nat → UInt8) → Option ProgHdr
  | 0, _, _ => none
  | n + 1, off, buf =>
      let buf := Fs.readInto ip off 56 buf
      let ph := ProgHdr.decode buf
      if ph.covers va then some ph else segSearch ip va n ((off + 56) % 4294967296) buf

/-- The search from the file header, with the uninitialised stack `junk`
under the two buffers. -/
def segFor (ip : Inode) (junk : Nat → UInt8) (va : Nat) : Option ProgHdr :=
  let elf := ElfHdr.decode (Fs.readInto ip 0 64 junk)
  segSearch ip va elf.phnum (elf.phoff % 4294967296) junk

/-- Header `i` of a file whose headers can all be read. -/
def phdrAt (ip : Inode) (off i : Nat) : ProgHdr :=
  ProgHdr.decode fun k => ip.data ((off + 56 * i) % 4294967296 + k)

/-- A zeroed page with `n` bytes of the file at `off` read into it. -/
def filePage (ip : Inode) (off n : Nat) : Page := fun i =>
  if i.val < Fs.readi ip off n then ip.data (off + i.val) else 0

/-! ## What the search finds -/

theorem leWord_congr {b b' : Nat → UInt8} {n : Nat} : ∀ {off : Nat},
    (∀ k, off ≤ k → k < off + n → b k = b' k) → leWord b off n = leWord b' off n := by
  induction n with
  | zero => intro off _; rfl
  | succ n ih =>
      intro off h
      rw [leWord, leWord, h off (Nat.le_refl _) (by omega),
        ih fun k h1 h2 => h k (by omega) (by omega)]

theorem ProgHdr.decode_congr {b b' : Nat → UInt8} (h : ∀ k, k < 56 → b k = b' k) :
    ProgHdr.decode b = ProgHdr.decode b' := by
  have hle : ∀ off n, off + n ≤ 56 → leWord b off n = leWord b' off n :=
    fun off n hn => leWord_congr fun k _ hk => h k (by omega)
  simp only [ProgHdr.decode]
  rw [hle 0 4 (by decide), hle 4 4 (by decide), hle 8 8 (by decide), hle 16 8 (by decide),
    hle 32 8 (by decide), hle 40 8 (by decide)]

theorem ElfHdr.decode_congr {b b' : Nat → UInt8} (h : ∀ k, k < 64 → b k = b' k) :
    ElfHdr.decode b = ElfHdr.decode b' := by
  have hle : ∀ off n, off + n ≤ 64 → leWord b off n = leWord b' off n :=
    fun off n hn => leWord_congr fun k _ hk => h k (by omega)
  simp only [ElfHdr.decode]
  rw [hle 0 4 (by decide), hle 24 8 (by decide), hle 32 8 (by decide), hle 56 2 (by decide)]

/-- If every header can be read in full, the search looks at exactly the
headers `phdrAt`, in order. -/
theorem segSearch_eq_find {ip : Inode} {va n off : Nat} {buf : Nat → UInt8}
    (hread : ∀ i, i < n → Fs.readi ip ((off + 56 * i) % 4294967296) 56 = 56)
    (hoff : off < 4294967296) :
    segSearch ip va n off buf =
      ((List.range n).map (phdrAt ip off)).find? fun ph => ph.covers va := by
  induction n generalizing off buf with
  | zero => rfl
  | succ n ih =>
      have hmod : (off + 56 * 0) % 4294967296 = off := by omega
      have h0 := hread 0 (by omega)
      rw [hmod] at h0
      have hph : ProgHdr.decode (Fs.readInto ip off 56 buf) = phdrAt ip off 0 := by
        rw [phdrAt, hmod]
        refine ProgHdr.decode_congr fun k hk => ?_
        rw [Fs.readInto, h0, if_pos hk]
      have hshift : ∀ i, ((off + 56) % 4294967296 + 56 * i) % 4294967296
          = (off + 56 * (i + 1)) % 4294967296 := by intro i; omega
      have hnext : phdrAt ip ((off + 56) % 4294967296) = phdrAt ip off ∘ Nat.succ := by
        funext i
        rw [phdrAt, hshift]
        rfl
      rw [segSearch, hph, List.range_succ_eq_map, List.map_cons, List.find?_cons, List.map_map]
      cases (phdrAt ip off 0).covers va with
      | true => rfl
      | false =>
          rw [if_neg (by decide), ih (fun i hi => ?_) (Nat.mod_lt _ (by decide)), hnext]
          rw [hshift]
          exact hread (i + 1) (by omega)

end OsSuite.Xv6
