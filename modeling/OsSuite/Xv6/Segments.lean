import OsSuite.Xv6.Image

/-!
# Segments — the image a file describes

What memory should hold once a file is loaded, said of the file alone:
`segByte` is the byte at an address of a segment and `segPage` a page of
it, file data first and zeroes behind it. `WellLaid ip` are the files
for which this is without ambiguity: `kexec` accepts them, their
segments lie in the file and share no page. For such a file the header
search of `handle_pgfault` finds the one segment of a page
(`WellLaid.segFor_eq`), and what it reads is that page of the image
(`ProgHdr.filePage_eq`).
-/

namespace OsSuite.Xv6

/-- The page at `va` belongs to the segment. -/
def ProgHdr.HasPage (ph : ProgHdr) (va : Nat) : Prop :=
  ph.type = 1 ∧ va % 4096 = 0 ∧ ph.vaddr ≤ va ∧ va < ph.vaddr + ph.memsz

instance (ph : ProgHdr) (va : Nat) : Decidable (ph.HasPage va) :=
  inferInstanceAs (Decidable (_ ∧ _))

/-- The byte of a segment at address `a`. -/
def Inode.segByte (ip : Inode) (ph : ProgHdr) (a : Nat) : UInt8 :=
  if a - ph.vaddr < ph.filesz then ip.data (ph.off + (a - ph.vaddr)) else 0

/-- The page of a segment at `va`. -/
def Inode.segPage (ip : Inode) (ph : ProgHdr) (va : Nat) : Page := fun j =>
  ip.segByte ph (va + j.val)

/-- **A file with one image.** No file is larger than `MAXFILE` blocks. -/
structure WellLaid (ip : Inode) : Prop extends Loadable ip where
  size_le : ip.size ≤ maxfileBytes
  inFile : ∀ i, i < ip.phnum → (ip.hdr i).type = 1 → (ip.hdr i).off + (ip.hdr i).filesz ≤ ip.size
  apart : ∀ i j va, i < ip.phnum → j < ip.phnum → (ip.hdr i).HasPage va → (ip.hdr j).HasPage va →
    i = j

section
variable {ip : Inode} {i va : Nat}

/-! ## The search -/

/-- The headers that the search of `handle_pgfault` goes through. -/
theorem Loadable.segFor_eq (h : Loadable ip) (junk : Nat → UInt8) (va : Nat) :
    segFor ip junk va =
      ((List.range ip.phnum).map ip.hdr).find? fun ph => ph.covers va := by
  have helf : ElfHdr.decode (Fs.readInto ip 0 64 junk) = ip.elf := by
    have hread : Fs.readi ip 0 64 = 64 :=
      (readi_full (by decide) (by decide)).mpr ⟨by have := h.elf; omega, by decide⟩
    refine ElfHdr.decode_congr fun k hk => ?_
    rw [Fs.readInto, hread, if_pos hk, Nat.zero_add]
  unfold segFor
  rw [helf]
  refine segSearch_eq_find (fun j hj => ?_) (Nat.mod_lt _ (by decide))
  have hj := h.hdr j hj
  have h1 := hj.inFile
  have h2 := hj.fits
  rw [show (ip.elf.phoff % 4294967296 + 56 * j) % 4294967296 = ip.phoff + 56 * j from
    Nat.mod_eq_of_lt (by unfold Inode.phoff at h2; omega)]
  exact (readi_full (by decide) (by decide)).mpr ⟨by omega, by omega⟩

/-- The test of the search, for a page and a header of an accepted file. -/
theorem Loadable.covers_iff (h : Loadable ip) (hi : i < ip.phnum) (hal : va % 4096 = 0) :
    (ip.hdr i).covers va = true ↔ (ip.hdr i).HasPage va := by
  unfold ProgHdr.covers ProgHdr.spans ProgHdr.HasPage
  simp only [Bool.and_eq_true, beq_iff_eq, decide_eq_true_eq]
  constructor
  · rintro ⟨ht, h1, h2⟩
    have hfit := ((h.hdr i hi).seg ht).fits
    unfold u64 at h2
    exact ⟨ht, hal, h1, by omega⟩
  · rintro ⟨ht, -, h1, h2⟩
    have hfit := ((h.hdr i hi).seg ht).fits
    unfold u64
    exact ⟨ht, h1, by omega⟩

/-- **The search finds the segment of a page.** -/
theorem WellLaid.segFor_eq (h : WellLaid ip) (junk : Nat → UInt8) (hi : i < ip.phnum)
    (hp : (ip.hdr i).HasPage va) : segFor ip junk va = some (ip.hdr i) := by
  have hcov : ∀ j, j < ip.phnum → (ip.hdr j).covers va = true → j = i := fun j hj hc =>
    h.apart j i va hj hi ((h.covers_iff hj hp.2.1).mp hc) hp
  rw [h.toLoadable.segFor_eq]
  cases hf : ((List.range ip.phnum).map ip.hdr).find? fun ph => ph.covers va with
  | none =>
      have hno := List.find?_eq_none.mp hf (ip.hdr i)
        (List.mem_map_of_mem (List.mem_range.mpr hi))
      exact absurd ((h.covers_iff hi hp.2.1).mpr hp) hno
  | some ph =>
      obtain ⟨j, hj, rfl⟩ := List.mem_map.mp (List.mem_of_find?_eq_some hf)
      have hc : (ip.hdr j).covers va = true :=
        List.find?_some (p := fun ph : ProgHdr => ph.covers va) hf
      rw [hcov j (List.mem_range.mp hj) hc]

/-! ## The pages -/

/-- What the fault handler reads for the page at `va` of a segment. -/
theorem ProgHdr.filePage_eq {ph : ProgHdr} (hsize : ip.size ≤ maxfileBytes)
    (hin : ph.off + ph.filesz ≤ ip.size) (hge : ph.vaddr ≤ va) :
    Fs.readi ip (ph.fileOffset va) (ph.fileSize va) = ph.fileSize va ∧
      filePage ip (ph.fileOffset va) (ph.fileSize va) = ip.segPage ph va := by
  unfold maxfileBytes at hsize
  by_cases hdata : va - ph.vaddr < ph.filesz
  · -- the page has bytes of the file
    have hoff : ph.fileOffset va = ph.off + (va - ph.vaddr) := by
      unfold ProgHdr.fileOffset
      omega
    have hsz : ph.fileSize va = min 4096 (ph.filesz - (va - ph.vaddr)) := by
      unfold ProgHdr.fileSize
      rw [if_pos hdata, Nat.mod_eq_of_lt (by omega)]
    have hread : Fs.readi ip (ph.fileOffset va) (ph.fileSize va) = ph.fileSize va := by
      rw [hoff, hsz]
      refine (readi_full (by omega) (by omega)).mpr ⟨by omega, by omega⟩
    refine ⟨hread, funext fun j => ?_⟩
    unfold filePage Inode.segPage Inode.segByte
    rw [hread, hsz, hoff]
    have hj := j.isLt
    by_cases hjn : j.val < min 4096 (ph.filesz - (va - ph.vaddr))
    · rw [if_pos hjn, if_pos (by omega)]
      congr 1
      omega
    · rw [if_neg hjn, if_neg (by omega)]
  · -- the page lies behind the file data
    have hsz : ph.fileSize va = 0 := by
      unfold ProgHdr.fileSize
      rw [if_neg hdata]
      rfl
    have hread : ∀ off, Fs.readi ip off 0 = 0 := by
      intro off
      unfold Fs.readi
      split
      · rfl
      · split
        · omega
        · rfl
    refine ⟨by rw [hsz, hread], funext fun j => ?_⟩
    unfold filePage Inode.segPage Inode.segByte
    rw [hsz, hread, if_neg (Nat.not_lt_zero _), if_neg (by omega)]

end

end OsSuite.Xv6
