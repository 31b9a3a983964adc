import OsSuite.Xv6.Grants
import OsSuite.Xv6.PageTableLife
import OsSuite.Xv6.Exec

/-!
# Image — the executables `kexec` accepts

What the header loop of `kexec` asks of a file, said of the file alone:
`Loadable ip`. A loadable file describes an image: it ends at `imageEnd`
and its page table takes the pages at `imageSpots`. The loop gets
through exactly when the file is loadable and there is a frame for each
of those table pages (`loadHeaders_counts`); whatever it does, it touches
nobody else's memory (`loadHeaders_spec`).
-/

namespace OsSuite.Xv6

/-! ## The headers of a file -/

def Inode.elf (ip : Inode) : ElfHdr := ElfHdr.decode ip.data

/-- `elf.phoff`, as the `int` it is kept in. -/
def Inode.phoff (ip : Inode) : Nat := ip.elf.phoff % 4294967296

def Inode.phnum (ip : Inode) : Nat := ip.elf.phnum

/-- The program header with number `i`. -/
def Inode.hdr (ip : Inode) (i : Nat) : ProgHdr := phdrAt ip ip.phoff i

/-- The end of the segments among the first `n` headers. -/
def Inode.segEnd (ip : Inode) : Nat → Nat
  | 0 => 0
  | n + 1 =>
      if (ip.hdr n).type = 1 then max (ip.segEnd n) ((ip.hdr n).vaddr + (ip.hdr n).memsz)
      else ip.segEnd n

/-- The end of the last segment. -/
def Inode.imageEnd (ip : Inode) : Nat := ip.segEnd ip.phnum

/-- The table pages for the two top pages and the segments among the first
`n` headers. -/
def Inode.spots (ip : Inode) : Nat → Finset Spot
  | 0 => topSpots
  | n + 1 =>
      if (ip.hdr n).type = 1 then
        ip.spots n ∪ tablesForPages (ip.hdr n).vaddr (((ip.hdr n).memsz + 4095) / 4096)
      else ip.spots n

/-- The table pages of the image. -/
def Inode.imageSpots (ip : Inode) : Finset Spot := ip.spots ip.phnum

/-- A segment that `kexec` accepts. The last condition is a slip of the
code: an empty segment at 0 is taken for a failure of `ulazymalloc`. -/
structure ProgHdr.Loadable (ph : ProgHdr) : Prop where
  filesz_le : ph.filesz ≤ ph.memsz
  fits : ph.vaddr + ph.memsz < 18446744073709551616
  aligned : ph.vaddr % 4096 = 0
  pos : 0 < ph.vaddr + ph.memsz

/-- Header `i` lies in the file, and is acceptable if it is a segment. -/
structure Inode.HdrOk (ip : Inode) (i : Nat) : Prop where
  inFile : ip.phoff + 56 * (i + 1) ≤ ip.size
  fits : ip.phoff + 56 * (i + 1) < 4294967296
  seg : (ip.hdr i).type = 1 → (ip.hdr i).Loadable

/-- **A file that `kexec` accepts.** -/
structure Loadable (ip : Inode) : Prop where
  elf : 64 ≤ ip.size
  magic : ip.elf.magic = elfMagic
  hdr : ∀ i, i < ip.phnum → ip.HdrOk i

theorem leWord_lt (b : Nat → UInt8) (off n : Nat) : leWord b off n < 256 ^ n := by
  induction n generalizing off with
  | zero => exact Nat.one_pos
  | succ n ih =>
      have h := (b off).toNat_lt
      have h' := ih (off + 1)
      rw [leWord, Nat.pow_succ]
      omega

theorem ProgHdr.decode_lt (b : Nat → UInt8) :
    (ProgHdr.decode b).vaddr < 18446744073709551616 ∧
      (ProgHdr.decode b).memsz < 18446744073709551616 :=
  ⟨leWord_lt b 16 8, leWord_lt b 40 8⟩

/-- A read is complete if it stays within the file and within 32 bits. -/
theorem readi_full {ip : Inode} {off n : Nat} (h : n < 4294967296) (hpos : 0 < n) :
    Fs.readi ip off n = n ↔ off + n ≤ ip.size ∧ (off + n) % 4294967296 = off + n := by
  unfold Fs.readi
  simp only [Bool.or_eq_true, decide_eq_true_eq]
  split
  · omega
  · split <;> omega

section
variable {ip : Inode}

theorem Inode.segEnd_le (ip : Inode) {n m : Nat} (h : n ≤ m) : ip.segEnd n ≤ ip.segEnd m := by
  induction m with
  | zero => rw [Nat.le_zero.mp h]
  | succ m ih =>
      rcases Nat.lt_or_eq_of_le h with hlt | rfl
      · have := ih (by omega)
        rw [Inode.segEnd]
        split
        · omega
        · exact this
      · exact Nat.le_refl _

/-- A segment ends within the image. -/
theorem Inode.le_imageEnd (ip : Inode) {i : Nat} (hi : i < ip.phnum) (hload : (ip.hdr i).type = 1) :
    (ip.hdr i).vaddr + (ip.hdr i).memsz ≤ ip.imageEnd := by
  have h := ip.segEnd_le (show i + 1 ≤ ip.phnum from hi)
  rw [Inode.segEnd, if_pos hload] at h
  exact (Nat.le_max_right _ _).trans h

theorem Inode.spots_mono (ip : Inode) {n m : Nat} (h : n ≤ m) : ip.spots n ⊆ ip.spots m := by
  induction m with
  | zero => rw [Nat.le_zero.mp h]
  | succ m ih =>
      rcases Nat.lt_or_eq_of_le h with hlt | rfl
      · have := ih (by omega)
        rw [Inode.spots]
        split
        · exact this.trans Finset.subset_union_left
        · exact this
      · exact Finset.Subset.refl _

/-- The header table of a loadable file is read in one piece. -/
theorem Loadable.readi_table (h : Loadable ip) :
    Fs.readi ip ip.phoff (56 * ip.phnum) = 56 * ip.phnum := by
  by_cases h0 : ip.phnum = 0
  · rw [h0]
    unfold Fs.readi
    split
    · rfl
    · split <;> omega
  · have hlast := h.hdr (ip.phnum - 1) (by omega)
    have h1 := hlast.inFile
    have h2 := hlast.fits
    rw [show ip.phnum - 1 + 1 = ip.phnum by omega] at h1 h2
    refine (readi_full (by omega) (by omega)).mpr ⟨h1, Nat.mod_eq_of_lt h2⟩

/-! ## The header loop -/

variable {A : Event → Prop} {s s' : Sys} {root : Frame} {T : Finset Spot}

/-- The table pages for the part of a segment below `MAXVA`. -/
def ProgHdr.spotsBelow (ph : ProgHdr) : Finset Spot :=
  tablesForPages ph.vaddr (pagesBelow ph.vaddr ((ph.memsz + 4095) / 4096))

/-- **`ulazymalloc`** of a segment fails for want of a table page only,
and panics if the segment ends beyond `MAXVA`. -/
theorem ulazymalloc_counts {ph : ProgHdr} {perm : Perm} (hph : ph.Loadable) (h : TableOk root s)
    (hT : Built root T s) :
    wp A (ulazymalloc root ph.vaddr (ph.vaddr + ph.memsz) perm) ⟨fun r s' => TableOk root s' ∧
        (r ≠ 0 → (ph.vaddr + ph.memsz ≤ maxva ∨ ph.memsz = 0) ∧
          Built root (T ∪ tablesForPages ph.vaddr ((ph.memsz + 4095) / 4096)) s' ∧
          After (tablesForPages ph.vaddr ((ph.memsz + 4095) / 4096) \ T).card s s') ∧
        (r = 0 → s.grants (ph.spotsBelow \ T).card = false),
      fun _ => False, fun _ => maxva < ph.vaddr + ph.memsz ∧
        s.grants (ph.spotsBelow \ T).card = true⟩ s := by
  have hal := hph.aligned
  have hfit := hph.fits
  have hup : pgroundup ph.vaddr = ph.vaddr := by
    unfold pgroundup u64
    omega
  unfold ulazymalloc ProgHdr.spotsBelow
  rw [if_neg (by omega)]
  simp only [hup, wp_bind, Nat.add_sub_cancel_left]
  refine (lazyLoop_counts h hT hal).mono (fun r s₁ hs₁ => ?_) (fun _ h => h) fun _ hpanic => ?_
  · obtain ⟨hok, htrue, hfalse⟩ := hs₁
    cases r with
    | true =>
        have hpos := hph.pos
        obtain ⟨hbelow, hbuilt, hafter⟩ := htrue rfl
        refine wp_pure.mpr ⟨hok, fun _ => ⟨?_, hbuilt, hafter⟩, fun h0 => absurd h0 (by omega)⟩
        unfold pagesBelow at hbelow
        omega
    | false => exact wp_pure.mpr ⟨hok, fun h0 => absurd rfl h0, fun _ => hfalse rfl⟩
  · refine ⟨?_, hpanic.2⟩
    have hlt := hpanic.1
    unfold pagesBelow maxva at *
    omega

/-- The part of the image that is still missing after `i` headers. -/
theorem Inode.card_spots (ip : Inode) {i : Nat} (hi : i < ip.phnum) :
    (ip.imageSpots \ ip.spots i).card =
      (ip.spots (i + 1) \ ip.spots i).card + (ip.imageSpots \ ip.spots (i + 1)).card := by
  have h1 : ip.spots (i + 1) ∪ ip.imageSpots = ip.imageSpots :=
    Finset.union_eq_right.mpr (ip.spots_mono hi)
  have h2 : ip.spots i ∪ ip.spots (i + 1) = ip.spots (i + 1) :=
    Finset.union_eq_right.mpr (ip.spots_mono (Nat.le_succ i))
  rw [← h1, card_union_sdiff, h1, h2]

/-- What the header loop has done when it ends, from header `i` on: it got
through with the size of the image and a frame for every table page, or
a header is not acceptable, or there are too few frames. -/
def Loaded (ip : Inode) (i : Nat) (s : Sys) (r : Bool × Nat) (s' : Sys) : Prop :=
  (r.1 = true → r.2 = ip.imageEnd ∧ (∀ j, i ≤ j → j < ip.phnum → ip.HdrOk j) ∧
    After (ip.imageSpots \ ip.spots i).card s s') ∧
  (r.1 = false → (∀ j, i ≤ j → j < ip.phnum → ip.HdrOk j) →
    s.grants (ip.imageSpots \ ip.spots i).card = false)

/-- One header more. -/
theorem Loaded.cons {i : Nat} {r : Bool × Nat} {s₁ : Sys} (h : Loaded ip (i + 1) s₁ r s')
    (hi : i < ip.phnum) (hok : ip.HdrOk i)
    (hafter : After (ip.spots (i + 1) \ ip.spots i).card s s₁) : Loaded ip i s r s' := by
  unfold Loaded
  rw [ip.card_spots hi]
  refine ⟨fun hr => ?_, fun hr hall => ?_⟩
  · obtain ⟨hsz, hrest, hall⟩ := h.1 hr
    refine ⟨hsz, fun j h1 h2 => ?_, hafter.trans hall⟩
    rcases Nat.lt_or_eq_of_le h1 with hlt | rfl
    · exact hrest j hlt h2
    · exact hok
  · exact hafter.refused (h.2 hr fun j h1 h2 => hall j (by omega) h2)

/-- A header that is not acceptable ends the loop. -/
theorem Loaded.bad {i sz : Nat} (hi : i < ip.phnum) (hno : ¬ ip.HdrOk i) :
    Loaded ip i s (false, sz) s' :=
  ⟨nofun, fun _ hall => absurd (hall i (Nat.le_refl i) hi) hno⟩

/-- **The header loop leaves the address space**, from header `i` on: it
comes to a segment that ends beyond `MAXVA`, with a frame for every
table page up to there. -/
def Overruns (ip : Inode) (i : Nat) (s : Sys) : Prop :=
  ∃ j, i ≤ j ∧ j < ip.phnum ∧ (∀ k, i ≤ k → k ≤ j → ip.HdrOk k) ∧ (ip.hdr j).type = 1 ∧
    maxva < (ip.hdr j).vaddr + (ip.hdr j).memsz ∧
    s.grants ((ip.spots j ∪ (ip.hdr j).spotsBelow) \ ip.spots i).card = true

/-- A header that is not acceptable comes first. -/
theorem Overruns.hdrOk {i : Nat} (h : Overruns ip i s) : ip.HdrOk i := by
  obtain ⟨j, hij, -, hok, -⟩ := h
  exact hok i (Nat.le_refl i) hij

/-- At least the part of the next segment below `MAXVA` is marked first. -/
theorem Overruns.granted {i : Nat} (h : Overruns ip i s) (htype : (ip.hdr i).type = 1) :
    s.grants ((ip.hdr i).spotsBelow \ ip.spots i).card = true := by
  obtain ⟨j, hij, -, -, -, -, hgrant⟩ := h
  refine grants_of_le (Finset.card_le_card (Finset.sdiff_subset_sdiff ?_ subset_rfl)) hgrant
  rcases Nat.lt_or_eq_of_le hij with hlt | rfl
  · refine Finset.Subset.trans ?_ ((ip.spots_mono hlt).trans Finset.subset_union_left)
    rw [Inode.spots, if_pos htype]
    exact (tablesForPages_mono _ (Nat.min_le_left _ _)).trans Finset.subset_union_right
  · exact Finset.subset_union_right

/-- One header more. -/
theorem overruns_succ {i : Nat} {s₁ : Sys} (hi : i < ip.phnum) (hok : ip.HdrOk i)
    (hafter : After (ip.spots (i + 1) \ ip.spots i).card s s₁)
    (hempty : (ip.hdr i).type = 1 → maxva < (ip.hdr i).vaddr + (ip.hdr i).memsz →
      (ip.hdr i).memsz = 0) :
    (maxva < ip.segEnd (i + 1) ∨ Overruns ip (i + 1) s₁) ↔
      (maxva < ip.segEnd i ∨ Overruns ip i s) := by
  have hcard : ∀ j, i < j → ((ip.spots j ∪ (ip.hdr j).spotsBelow) \ ip.spots i).card =
      (ip.spots (i + 1) \ ip.spots i).card +
        ((ip.spots j ∪ (ip.hdr j).spotsBelow) \ ip.spots (i + 1)).card := by
    intro j hj
    have h1 : ip.spots (i + 1) ∪ (ip.spots j ∪ (ip.hdr j).spotsBelow) =
        ip.spots j ∪ (ip.hdr j).spotsBelow :=
      Finset.union_eq_right.mpr ((ip.spots_mono hj).trans Finset.subset_union_left)
    have h2 : ip.spots i ∪ ip.spots (i + 1) = ip.spots (i + 1) :=
      Finset.union_eq_right.mpr (ip.spots_mono (Nat.le_succ i))
    rw [← h1, card_union_sdiff, h1, h2]
  constructor
  · rintro (hend | ⟨j, hij, hj, hall, htype, hbeyond, hgrant⟩)
    · rw [Inode.segEnd] at hend
      split at hend
      · rename_i htype
        rcases lt_max_iff.mp hend with h | h
        · exact .inl h
        · -- an empty segment out there
          refine .inr ⟨i, Nat.le_refl i, hi, fun k h1 h2 => ?_, htype, h, ?_⟩
          · obtain rfl : k = i := by omega
            exact hok
          · rw [ProgHdr.spotsBelow, hempty htype h, pagesBelow, Nat.zero_add,
              show 4095 / 4096 = 0 from rfl, Nat.zero_min, tablesForPages, Finset.range_zero,
              Finset.biUnion_empty, Finset.union_empty, Finset.sdiff_self, Finset.card_empty]
            rfl
      · exact .inl hend
    · refine .inr ⟨j, by omega, hj, fun k h1 h2 => ?_, htype, hbeyond, ?_⟩
      · rcases Nat.lt_or_eq_of_le h1 with h | rfl
        · exact hall k h h2
        · exact hok
      · rw [hcard j hij, hafter]
        exact hgrant
  · rintro (hend | ⟨j, hij, hj, hall, htype, hbeyond, hgrant⟩)
    · exact .inl (hend.trans_le (ip.segEnd_le (Nat.le_succ i)))
    · rcases Nat.lt_or_eq_of_le hij with hlt | rfl
      · refine .inr ⟨j, hlt, hj, fun k h1 h2 => hall k (by omega) h2, htype, hbeyond, ?_⟩
        rw [hcard j hlt, hafter] at hgrant
        exact hgrant
      · refine .inl ?_
        rw [Inode.segEnd, if_pos htype]
        exact lt_max_of_lt_right hbeyond

/-- What is known when the header loop ends or panics. -/
abbrev LoadEnd (ip : Inode) (i : Nat) (s : Sys) : Post Sys (Bool × Nat) :=
  ⟨fun r s' => Loaded ip i s r s' ∧ (maxva < r.2 ↔ maxva < ip.segEnd i ∨ Overruns ip i s),
    fun _ => False, fun _ => maxva < ip.segEnd i ∨ Overruns ip i s⟩

/-- **The header loop gets through exactly when** the remaining headers
are acceptable and there is a frame for every table page they need, and
panics only where it leaves the address space. -/
theorem loadHeaders_counts {n i : Nat} (hn : i + n = ip.phnum)
    (hoff : ip.phoff + 56 * i < 4294967296) (h : TableOk root s) (hT : Built root (ip.spots i) s) :
    wp A (loadHeaders root ip n (ip.phoff + 56 * i) (ip.segEnd i)) (LoadEnd ip i s) s := by
  induction n generalizing i s with
  | zero =>
      obtain rfl : i = ip.phnum := by omega
      refine wp_pure.mpr ⟨⟨fun _ => ⟨rfl, fun j h1 h2 => by omega, ?_⟩, by simp⟩, ?_⟩
      · rw [Inode.imageSpots, Finset.sdiff_self, Finset.card_empty]
        exact .refl s
      · refine ⟨.inl, fun hor => hor.resolve_right ?_⟩
        rintro ⟨j, h1, h2, -⟩
        omega
  | succ n ih =>
      have hi : i < ip.phnum := by omega
      have hdr : ProgHdr.decode (fun k => ip.data (ip.phoff + 56 * i + k)) = ip.hdr i := by
        rw [Inode.hdr, phdrAt, Nat.mod_eq_of_lt hoff]
      obtain ⟨hv, hm⟩ : (ip.hdr i).vaddr < 18446744073709551616 ∧
          (ip.hdr i).memsz < 18446744073709551616 := ProgHdr.decode_lt _
      have hbad : ¬ ip.HdrOk i → wp A (pure (false, ip.segEnd i)) (LoadEnd ip i s) s := fun hno =>
        wp_pure.mpr ⟨.bad hi hno, ⟨.inl, fun hor => hor.resolve_right fun ho => hno ho.hdrOk⟩⟩
      rw [loadHeaders, hdr]
      split
      · rename_i hread
        refine hbad fun hok => hread ?_
        have h1 := hok.inFile
        have h2 := hok.fits
        exact (readi_full (by decide) (by decide)).mpr ⟨by omega, by omega⟩
      rename_i hread
      obtain ⟨hin, hwrap⟩ := (readi_full (by decide) (by decide)).mp (not_not.mp hread)
      have hnext : (ip.phoff + 56 * i + 56) % 4294967296 = ip.phoff + 56 * (i + 1) := by omega
      have hlt : ip.phoff + 56 * (i + 1) < 4294967296 := by omega
      rw [hnext]
      split
      · -- not a segment
        rename_i htype
        have hok : ip.HdrOk i := ⟨by omega, hlt, fun h1 => absurd h1 htype⟩
        have hend : ip.segEnd (i + 1) = ip.segEnd i := by rw [Inode.segEnd, if_neg htype]
        have hspots : ip.spots (i + 1) = ip.spots i := by rw [Inode.spots, if_neg htype]
        have hafter : After (ip.spots (i + 1) \ ip.spots i).card s s := by
          rw [hspots, Finset.sdiff_self, Finset.card_empty]
          exact .refl s
        have hover := overruns_succ hi hok hafter fun h1 => absurd h1 htype
        rw [← hend]
        refine (ih (by omega) hlt h (hspots ▸ hT)).mono
          (fun r s₁ hr => ⟨hr.1.cons hi hok hafter, hr.2.trans ?_⟩) (fun _ h => h)
          fun _ hpanic => ?_
        · exact hend.symm ▸ hover
        · exact hover.mp hpanic
      rename_i htype
      have htype : (ip.hdr i).type = 1 := not_not.mp htype
      split
      · rename_i hc
        exact hbad fun hok => absurd (hok.seg htype).filesz_le (by omega)
      split
      · rename_i _ hc
        refine hbad fun hok => ?_
        have := (hok.seg htype).fits
        unfold u64 at hc
        omega
      split
      · rename_i hc
        exact hbad fun hok => hc (hok.seg htype).aligned
      rename_i hfile hwrap' hal
      have hfit : (ip.hdr i).vaddr + (ip.hdr i).memsz < 18446744073709551616 := by
        unfold u64 at hwrap'
        omega
      have hend : u64 ((ip.hdr i).vaddr + (ip.hdr i).memsz) = (ip.hdr i).vaddr + (ip.hdr i).memsz :=
        Nat.mod_eq_of_lt hfit
      rw [hend, wp_bind]
      by_cases hpos : 0 < (ip.hdr i).vaddr + (ip.hdr i).memsz
      · have hload : (ip.hdr i).Loadable := ⟨by omega, hfit, not_not.mp hal, hpos⟩
        have hok : ip.HdrOk i := ⟨by omega, hlt, fun _ => hload⟩
        have hspots : ip.spots (i + 1) = ip.spots i ∪ tablesForPages (ip.hdr i).vaddr
            (((ip.hdr i).memsz + 4095) / 4096) := by rw [Inode.spots, if_pos htype]
        refine (ulazymalloc_counts hload h hT).mono ?_ (fun _ h => h) fun _ hpanic => ?_
        · rintro r s₁ ⟨hok₁, hsome, hnone⟩
          dsimp only
          split
          · -- too few frames
            rename_i hr
            refine wp_pure.mpr ⟨⟨by simp, fun _ _ => ?_⟩, .inl, fun hor => hor.resolve_right ?_⟩
            · rw [ip.card_spots hi, hspots, Finset.union_sdiff_left]
              refine refused_of_le (Nat.le_trans ?_ (Nat.le_add_right _ _)) (hnone hr)
              exact Finset.card_le_card (Finset.sdiff_subset_sdiff
                (tablesForPages_mono _ (Nat.min_le_left _ _)) subset_rfl)
            · intro ho
              rw [ho.granted htype] at hnone
              cases hnone hr
          · rename_i hr
            obtain ⟨hbelow, hbuilt, hafter⟩ := hsome hr
            have hmax : max (ip.segEnd i) ((ip.hdr i).vaddr + (ip.hdr i).memsz) =
                ip.segEnd (i + 1) := by rw [Inode.segEnd, if_pos htype]
            have hafter : After (ip.spots (i + 1) \ ip.spots i).card s s₁ := by
              rw [hspots, Finset.union_sdiff_left]
              exact hafter
            have hover := overruns_succ hi hok hafter fun _ h1 => hbelow.resolve_left (by omega)
            rw [hmax]
            exact (ih (by omega) hlt hok₁ (hspots ▸ hbuilt)).mono
              (fun r s₂ hr₂ => ⟨hr₂.1.cons hi hok hafter, hr₂.2.trans hover⟩) (fun _ h => h)
              fun _ => hover.mp
        · refine .inr ⟨i, Nat.le_refl i, hi, fun k h1 h2 => ?_, htype, hpanic.1, ?_⟩
          · obtain rfl : k = i := by omega
            exact hok
          · rw [Finset.union_sdiff_left]
            exact hpanic.2
      · -- an empty segment at 0
        obtain ⟨h0, hm0⟩ : (ip.hdr i).vaddr = 0 ∧ (ip.hdr i).memsz = 0 := by omega
        have hup : pgroundup 0 = 0 := by decide
        simp only [h0, hm0, ulazymalloc, hup, Nat.lt_irrefl, if_false, Nat.add_zero, Nat.sub_self,
          Nat.zero_add, Nat.reduceDiv, lazyLoop, wp_bind, wp_pure, if_true]
        exact wp_pure.mp (hbad fun hok => hpos (hok.seg htype).pos)

/-! ## Nobody else's memory -/

/-- No user page is mapped. -/
def NoUser (m : Mem) (root : Frame) : Prop :=
  ∀ b, b % 4096 = 0 → b < trapframeVa → (leaf m root b).v = false

/-- A table as `proc_pagetable` makes it. -/
theorem NoUser.of_top {m : Mem} {tf tramp : Frame}
    (h : ∀ a, a % 4096 = 0 → a < maxva → leaf m root a
      = if a = trapframeVa then trapframePte tf
        else if a = trampolineVa then trampPte tramp else Pte.zero) : NoUser m root := by
  intro b hal hb
  rw [h b hal (hb.trans (by decide)), if_neg hb.ne, if_neg (hb.trans (by decide)).ne]
  rfl

/-- The two top pages of a new table. -/
theorem top_leaf {tf tramp : Frame} {b : Nat} (hal : b % 4096 = 0) (hle : trapframeVa ≤ b)
    (hmax : b < maxva) :
    let pte := if b = trapframeVa then trapframePte tf
      else if b = trampolineVa then trampPte tramp else Pte.zero
    pte.v = true ∧ pte.perm.u = false := by
  unfold trapframeVa at *
  unfold trampolineVa maxva at *
  dsimp only
  split
  · exact ⟨rfl, rfl⟩
  · rw [if_pos (by omega)]
    exact ⟨rfl, rfl⟩

/-- A size the header loop can arrive at. Beyond `MAXVA` only empty
segments are accepted. -/
def SizeOk (sz : Nat) : Prop := sz ≤ maxva ∨ (sz % 4096 = 0 ∧ sz < 18446744073709551616)

/-- What the header loop does to the table and to `sz`. -/
structure Marks (root : Frame) (role role' : Frame → Role) (s s' : Sys) (sz : Nat)
    (r : Bool × Nat) : Prop where
  step : PtStep root role role' s s'
  noUser : NoUser s'.mem root
  size : SizeOk r.2
  le : sz ≤ r.2
  leaf : r.1 = true → ∀ b, b % 4096 = 0 → r.2 ≤ b → b < maxva →
    leaf s'.mem root b = leaf s.mem root b

variable {role role' role'' : Frame → Role}

theorem Marks.refl {sz : Nat} (h : SysInv role s) (hw : PtWf role s.mem root)
    (hno : NoUser s.mem root) (hsz : SizeOk sz) (ok : Bool) :
    Marks root role role s s sz (ok, sz) :=
  ⟨.refl h hw, hno, hsz, Nat.le_refl sz, fun _ _ _ _ _ => rfl⟩

/-- **The header loop** marks entries of its own table. -/
theorem loadHeaders_spec {n off sz : Nat} (h : SysInv role s) (hw : PtWf role s.mem root)
    (hno : NoUser s.mem root) (hsz : SizeOk sz) :
    wp A (loadHeaders root ip n off sz) ⟨fun r s' => ∃ role', Marks root role role' s s' sz r,
      fun _ => False, fun _ => True⟩ s := by
  induction n generalizing off s sz role with
  | zero => exact wp_pure.mpr ⟨role, .refl h hw hno hsz _⟩
  | succ n ih =>
      have hbad : wp A (pure (false, sz)) ⟨fun r s' => ∃ role', Marks root role role' s s' sz r,
          fun _ => False, fun _ => True⟩ s := wp_pure.mpr ⟨role, .refl h hw hno hsz _⟩
      rw [loadHeaders]
      generalize hph : ProgHdr.decode (fun k => ip.data (off + k)) = ph
      obtain ⟨hv, hm⟩ := hph ▸ ProgHdr.decode_lt _
      split
      · exact hbad
      split
      · exact ih h hw hno hsz
      split
      · exact hbad
      split
      · exact hbad
      split
      · exact hbad
      rename_i hwrap hal
      have hfit : ph.vaddr + ph.memsz < 18446744073709551616 := by
        unfold u64 at hwrap
        omega
      rw [u64, Nat.mod_eq_of_lt hfit, wp_bind]
      refine (ulazymalloc_spec h hw (not_not.mp hal) (Nat.le_add_right _ _) hfit).mono ?_
        (fun _ h => h) (fun _ h => h)
      rintro r s₁ ⟨role₁, hstep, hleaf, hsize⟩
      have hno₁ : NoUser s₁.mem root := by
        intro b hbal hb
        rcases hleaf b hbal (Nat.lt_trans hb (by decide)) with he | ⟨-, he⟩
        · rw [he]
          exact hno b hbal hb
        · exact he
      dsimp only
      split
      · exact wp_pure.mpr ⟨role₁, hstep, hno₁, hsz, Nat.le_refl sz, nofun⟩
      · rename_i hr
        have hsz₁ : SizeOk (max sz (ph.vaddr + ph.memsz)) := by
          have hor := hsize hr
          unfold SizeOk at hsz ⊢
          omega
        refine (ih hstep.inv hstep.wf hno₁ hsz₁).weaken fun r s₂ hr₂ => ?_
        obtain ⟨role₂, hm₂⟩ := hr₂
        refine ⟨role₂, hstep.trans hm₂.step, hm₂.noUser, hm₂.size, ?_, fun hok b hbal hb hmax => ?_⟩
        · exact (Nat.le_max_left _ _).trans hm₂.le
        · have hle := (Nat.le_max_right sz (ph.vaddr + ph.memsz)).trans hm₂.le
          rw [hm₂.leaf hok b hbal hb hmax]
          exact (hleaf b hbal hmax).resolve_right fun hc => by omega

/-! ## Giving up -/

/-- There is no way back from **`proc_freepagetable`** with a size beyond
`MAXVA`. -/
theorem procFreepagetable_beyond {sz : Nat} (hmax : maxva < pgroundup sz) :
    wp A (procFreepagetable root sz) ⟨fun _ _ => False, fun _ => True, fun _ => True⟩ s := by
  have hround := pgroundup_aligned sz
  have hpos : 0 < sz := by
    rcases Nat.eq_zero_or_pos sz with rfl | hpos
    · exact absurd hmax (by decide)
    · exact hpos
  simp only [procFreepagetable, uvmfree, wp_bind, if_pos hpos]
  refine .of_forall (fun _ s₁ => ?_) (fun _ => trivial) fun _ => trivial
  refine .of_forall (fun _ s₂ => ?_) (fun _ => trivial) fun _ => trivial
  unfold uvmunmap
  rw [if_neg (by decide)]
  exact (unmapLoop_beyond (by decide) (by decide) (by omega)).mono (fun _ _ h => h.elim)
    (fun _ _ => trivial) fun _ _ => trivial

/-- **`uvmalloc`** of a stack that starts beyond the last page: the first
frame it gets is its last. -/
theorem uvmalloc_beyond {sz : Nat} {perm : Perm} (hal : sz % 4096 = 0) (hmax : maxva ≤ sz)
    (hlt : sz < 18446744073709551616) :
    wp A (uvmalloc root sz (u64 (sz + 24576)) perm)
      ⟨fun r _ => (r = 0 ∧ s.grants 1 = false) ∨ (r = sz ∧ maxva + 24576 < sz),
        fun _ => False, fun _ => s.grants 1 = true⟩ s := by
  unfold uvmalloc
  by_cases hwrap : sz + 24576 < 18446744073709551616
  · have hu : u64 (sz + 24576) = sz + 24576 := by unfold u64; omega
    have hround : pgroundup sz = sz := by unfold pgroundup u64; omega
    rw [hu, if_neg (by omega)]
    dsimp only
    rw [hround, show (sz + 24576 - sz + 4095) / 4096 = 5 + 1 by omega, allocLoop, wp_bind]
    refine kalloc_grants.mono ?_ (fun _ h => h) fun _ h => h.elim
    rintro r s₁ ⟨hsome, hnone⟩
    cases r with
    | none =>
        rw [uvmdealloc, if_pos (Nat.le_refl _)]
        simp only [wp_bind, wp_pure]
        exact .inl ⟨trivial, hnone rfl⟩
    | some f =>
        simp only [wp_bind, wp_zeroFrame]
        exact mapOrFree_beyond hmax fun _ => (hsome f rfl).granted
  · rw [if_pos (by unfold u64; omega), wp_pure]
    exact .inr ⟨rfl, by unfold maxva; omega⟩

end

end OsSuite.Xv6
