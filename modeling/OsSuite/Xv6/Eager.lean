import OsSuite.Xv6.Segments
import OsSuite.Xv6.Args

/-!
# Eager — the loader that was there before

`exec.c` still has the body of `loadseg` in a comment: with `uvmalloc` it
was the loader that read every segment at once. `eagerLoad` is that
loader, with the header tests of `kexec`; it is the yardstick for demand
loading, nothing calls it. What it leaves in memory is the image of
`Segments`: `eagerLoad_spec`.
-/

namespace OsSuite.Xv6

/-! ## The loader -/

/-- `readi(ip, 0, pa, off, n)` to the start of a frame. -/
def readFrame (pa : Frame) (ip : Inode) (off n : Nat) : Prog Sys Event Unit :=
  Prog.modify fun s => s.setCell pa (.bytes fun k =>
    if k.val < Fs.readi ip off n then ip.data (off + k.val) else (s.mem pa).page k)

/-- The loop of `loadseg`. -/
def loadsegLoop (root : Frame) (va : Nat) (ip : Inode) (offset sz : Nat) :
    Nat → Nat → Prog Sys Event Int
  | 0, _ => pure 0
  | rounds + 1, i => do
      match ← walkaddr root (u64 (va + i)) with
      | none => Prog.panic "loadseg: address should exist"
      | some pa =>
          let n := if sz - i < 4096 then sz - i else 4096
          let off := (offset + i) % 4294967296
          readFrame pa ip off n
          if Fs.readi ip off n ≠ n then pure (-1)
          else loadsegLoop root va ip offset sz rounds (i + 4096)

/-- `loadseg(pagetable, va, ip, offset, sz)`; `offset` and `sz` are
`uint`s. -/
def loadseg (root : Frame) (va : Nat) (ip : Inode) (offset sz : Nat) : Prog Sys Event Int :=
  loadsegLoop root va ip (offset % 4294967296) (sz % 4294967296) ((sz % 4294967296 + 4095) / 4096) 0

/-- The header loop of an eager `kexec`. -/
def eagerHeaders (root : Frame) (ip : Inode) : Nat → Nat → Nat → Prog Sys Event (Bool × Nat)
  | 0, _, sz => pure (true, sz)
  | n + 1, off, sz =>
      let ph := ProgHdr.decode fun k => ip.data (off + k)
      let next := (off + 56) % 4294967296
      if Fs.readi ip off 56 ≠ 56 then pure (false, sz)
      else if ph.type ≠ 1 then eagerHeaders root ip n next sz
      else if ph.memsz < ph.filesz then pure (false, sz)
      else if u64 (ph.vaddr + ph.memsz) < ph.vaddr then pure (false, sz)
      else if ph.vaddr % 4096 ≠ 0 then pure (false, sz)
      else do
        let sz1 ← uvmalloc root sz (u64 (ph.vaddr + ph.memsz))
          { flags2perm ph.flags with r := true, u := true }
        if sz1 = 0 then pure (false, sz)
        else if (← loadseg root ph.vaddr ip ph.off ph.filesz) < 0 then pure (false, sz1)
        else eagerHeaders root ip n next sz1

/-- **Load a whole file** into a new page table: the table and the end of
the image. -/
def eagerLoad (tf : Frame) (ip : Inode) : Prog Sys Event (Option (Frame × Nat)) := do
  match ← procPagetable tf with
  | none => pure none
  | some root =>
      let r ← eagerHeaders root ip ip.phnum ip.phoff 0
      pure (if r.1 then some (root, r.2) else none)

/-! ## What it leaves in memory -/

/-- Memory behind the first `k` headers: their segments, and zeroes. -/
def Inode.loadedPage (ip : Inode) : Nat → Nat → Page
  | 0, _ => fun _ => 0
  | k + 1, va => if (ip.hdr k).HasPage va then ip.segPage (ip.hdr k) va else ip.loadedPage k va

/-- A page of the last segment that has it. -/
theorem WellLaid.loadedPage_eq {ip : Inode} {i va k : Nat} (h : WellLaid ip) (hk : k ≤ ip.phnum)
    (hi : i < k) (hp : (ip.hdr i).HasPage va) : ip.loadedPage k va = ip.segPage (ip.hdr i) va := by
  induction k with
  | zero => omega
  | succ k ih =>
      rw [Inode.loadedPage]
      split
      · rename_i hk'
        rw [h.apart k i va (by omega) (by omega) hk' hp]
      · rename_i hk'
        refine ih (by omega) (Nat.lt_of_le_of_ne (by omega) ?_)
        rintro rfl
        exact hk' hp

/-- A page of no segment so far. -/
theorem Inode.loadedPage_zero (ip : Inode) {va k : Nat} (h : ∀ i, i < k → ¬ (ip.hdr i).HasPage va) :
    ip.loadedPage k va = fun _ => 0 := by
  induction k with
  | zero => rfl
  | succ k ih =>
      rw [Inode.loadedPage, if_neg (h k (Nat.lt_succ_self k))]
      exact ih fun i hi => h i (by omega)

/-- **A table while it is filled.** The pages below `sz` hold `c`, for the
user, and there are no others. -/
structure Filling (root : Frame) (role : Frame → Role) (s : Sys) (sz : Nat) (c : Nat → Page) :
    Prop where
  inv : SysInv role s
  wf : PtWf role s.mem root
  top : ∀ b, b % 4096 = 0 → trapframeVa ≤ b → b < maxva → (leaf s.mem root b).v = true
  le : sz ≤ trapframeVa
  user : ∀ b, b % 4096 = 0 → b < trapframeVa → (leaf s.mem root b).v = true →
    (leaf s.mem root b).perm.u = true
  page : ∀ b, b % 4096 = 0 → b < trapframeVa →
    (pageAt s.mem root b).map Prod.snd = if b < sz then some (c b) else none

section
variable {A : Event → Prop} {root : Frame} {role : Frame → Role} {s : Sys} {sz : Nat}
  {c : Nat → Page}

theorem Filling.valid (h : Filling root role s sz c) {b : Nat} (hal : b % 4096 = 0) (hb : b < sz) :
    (leaf s.mem root b).v = true := by
  have hp := h.page b hal (hb.trans_le h.le)
  rw [if_pos hb] at hp
  obtain ⟨x, hx, -⟩ := Option.map_eq_some_iff.mp hp
  exact (pageAt_eq_some.mp hx).1

/-- One page is written. -/
theorem Filling.store (h : Filling root role s sz c) {va : Nat} (hal : va % 4096 = 0)
    (hva : va < sz) (pg : Page) :
    Filling root role (s.setCell (leaf s.mem root va).pa (.bytes pg)) sz (Function.update c va pg) := by
  have hlt : va < trapframeVa := hva.trans_le h.le
  have hv := h.valid hal hva
  have hrole := h.wf.page va hal hlt hv
  obtain ⟨hstep, hleaf⟩ := h.wf.storePage h.inv hrole (.bytes pg)
  refine ⟨hstep.inv, hstep.wf, ?_, h.le, ?_, fun b hbal hb => ?_⟩
  · simp only [hleaf]
    exact h.top
  · simp only [hleaf]
    exact h.user
  · have hp := h.page b hbal hb
    unfold pageAt at hp ⊢
    rw [hleaf]
    by_cases hbv : b = va
    · subst hbv
      rw [if_pos hv, if_pos hva, Function.update_self]
      simp [Sys.setCell, Cell.page]
    · rw [Function.update_of_ne hbv, ← hp]
      split
      · rename_i hv'
        -- two user pages do not share a frame
        have hne : (leaf s.mem root b).pa ≠ (leaf s.mem root va).pa := by
          intro he
          have hrb := h.wf.page b hbal hb hv'
          rw [he, hrole] at hrb
          cases hrb
          exact hbv rfl
        rw [show (s.setCell (leaf s.mem root va).pa (.bytes pg)).mem (leaf s.mem root b).pa
          = s.mem (leaf s.mem root b).pa from Function.update_of_ne hne _ _]
      · rfl

/-- A table that is filled with other pages, as far as it goes. -/
theorem Filling.congr {c' : Nat → Page} (h : Filling root role s sz c)
    (hc : ∀ b, b % 4096 = 0 → b < sz → c' b = c b) : Filling root role s sz c' := by
  refine { h with page := fun b hbal hb => ?_ }
  rw [h.page b hbal hb]
  split
  · rw [hc b hbal ‹_›]
  · rfl

/-- **`loadseg`**, from byte `i` of the segment on. The pages it reads into
are zeroed, so the last one is right as well. -/
theorem loadsegLoop_spec {ip : Inode} {ph : ProgHdr} (hsize : ip.size ≤ maxfileBytes)
    (hin : ph.off + ph.filesz ≤ ip.size) (hfile : ph.filesz ≤ ph.memsz) (htype : ph.type = 1)
    (hal : ph.vaddr % 4096 = 0) (hend : ph.vaddr + ph.memsz ≤ sz) {rounds i : Nat}
    (hi : i % 4096 = 0) (hr : rounds = (ph.filesz - i + 4095) / 4096)
    (h : Filling root role s sz c)
    (hzero : ∀ b, ph.HasPage b → ph.vaddr + i ≤ b → c b = fun _ => 0) :
    wp A (loadsegLoop root ph.vaddr ip ph.off ph.filesz rounds i) ⟨fun r s' => r = 0 ∧
        Filling root role s' sz
          (fun b => if ph.HasPage b ∧ ph.vaddr + i ≤ b then ip.segPage ph b else c b),
      fun _ => False, fun _ => False⟩ s := by
  induction rounds generalizing i s c with
  | zero =>
      refine wp_pure.mpr ⟨rfl, h.congr fun b hbal hb => ?_⟩
      split
      · rename_i hp
        -- behind the file data
        rw [hzero b hp.1 hp.2]
        funext j
        unfold Inode.segPage Inode.segByte
        rw [if_neg (by omega)]
      · rfl
  | succ rounds ih =>
      have hlt : i < ph.filesz := by omega
      have hva : ph.vaddr + i < sz := by omega
      have hbal : (ph.vaddr + i) % 4096 = 0 := by omega
      have hbt := hva.trans_le h.le
      have hu : u64 (ph.vaddr + i) = ph.vaddr + i := by
        unfold trapframeVa at hbt
        unfold u64
        omega
      have hv := h.valid hbal hva
      have hpa : userPa s.mem root (ph.vaddr + i) = some (leaf s.mem root (ph.vaddr + i)).pa := by
        unfold userPa
        rw [if_pos ⟨hbt.trans (by decide), hv, h.user _ hbal hbt hv⟩]
      have hold : (s.mem (leaf s.mem root (ph.vaddr + i)).pa).page = fun _ => 0 := by
        have hp := h.page _ hbal hbt
        rw [if_pos hva, hzero _ ⟨htype, hbal, by omega, by omega⟩ (Nat.le_refl _)] at hp
        unfold pageAt at hp
        rw [if_pos hv] at hp
        exact Option.some.inj hp
      obtain ⟨hread, hpage⟩ := ProgHdr.filePage_eq hsize hin (Nat.le_add_right ph.vaddr i)
      have hoff : ph.fileOffset (ph.vaddr + i) = (ph.off + i) % 4294967296 := by
        unfold ProgHdr.fileOffset
        rw [Nat.add_sub_cancel_left]
      have hn : ph.fileSize (ph.vaddr + i) = if ph.filesz - i < 4096 then ph.filesz - i else 4096 := by
        unfold maxfileBytes at hsize
        unfold ProgHdr.fileSize
        rw [Nat.add_sub_cancel_left, if_pos hlt, Nat.mod_eq_of_lt (by omega)]
        split <;> omega
      rw [hoff, hn] at hread hpage
      rw [loadsegLoop, hu, wp_bind, wp_walkaddr, hpa]
      dsimp only
      rw [readFrame, wp_modify_bind, hold, if_neg (not_not.mpr hread)]
      have hst := h.store hbal hva (ip.segPage ph (ph.vaddr + i))
      rw [← hpage] at hst
      refine (ih (by omega) (by omega) hst fun b hp hb => ?_).weaken fun r s' hr' => ?_
      · rw [Function.update_of_ne (by omega)]
        exact hzero b hp (by omega)
      · refine ⟨hr'.1, hr'.2.congr fun b hbal' _ => ?_⟩
        by_cases hb : b = ph.vaddr + i
        · subst hb
          rw [if_pos ⟨⟨htype, hbal, by omega, by omega⟩, Nat.le_refl _⟩, if_neg (by omega),
            Function.update_self, hpage]
        · rw [Function.update_of_ne hb]
          by_cases hp : ph.HasPage b ∧ ph.vaddr + i ≤ b
          · rw [if_pos hp, if_pos ⟨hp.1, by omega⟩]
          · rw [if_neg hp, if_neg fun hc => hp ⟨hc.1, by omega⟩]

/-- The pages `uvmalloc` adds are those between the two sizes. -/
theorem mem_grown {sz newsz b : Nat} (hsz : sz ≤ trapframeVa) (hal : b % 4096 = 0) :
    pgroundup sz ≤ b ∧ b < pgroundup sz + 4096 * ((newsz - pgroundup sz + 4095) / 4096) ↔
      sz ≤ b ∧ b < newsz := by
  unfold trapframeVa at hsz
  unfold pgroundup u64
  omega

/-- **`uvmalloc`** adds zeroed pages, and never shrinks the image. -/
theorem Filling.uvmalloc {newsz : Nat} {perm : Perm} (h : Filling root role s sz c)
    (hu : perm.u = true) :
    wp A (Xv6.uvmalloc root sz newsz perm) ⟨fun r s' => r ≠ 0 → r = max sz newsz ∧
        ∃ role', Filling root role' s' r (fun b => if b < sz then c b else fun _ => 0),
      fun _ => False, fun _ => True⟩ s := by
  unfold Xv6.uvmalloc
  split
  · refine wp_pure.mpr fun _ => ⟨by omega, role, h.congr fun b _ hb => ?_⟩
    rw [if_pos hb]
  · rename_i hle
    have hpg := pgroundup_le_trapframe h.le
    have hbase : ∀ b, b % 4096 = 0 → b < trapframeVa → pgroundup sz ≤ b →
        pageAt s.mem root b = none := by
      intro b hal hb hge
      have hp := h.page b hal hb
      rw [if_neg (not_lt.mpr ((le_pgroundup h.le).trans hge))] at hp
      exact Option.map_eq_none_iff.mp hp
    have hz : ZeroedIn (pageAt s.mem root) s.mem root (pgroundup sz) (pgroundup sz) perm := by
      intro b _ _
      rw [if_neg (by omega)]
    dsimp only
    refine (allocLoop_spec h.inv h.wf (pgroundup_aligned sz) (pgroundup_aligned sz) (Nat.le_refl _)
      (.inr rfl) hbase hz fun b hal _ => h.top b hal).mono ?_ (fun _ hf => hf) (fun _ _ => trivial)
    rintro r s' ⟨role', hstep, hsame, ⟨rfl, hbound, hz'⟩ | ⟨rfl, -⟩⟩ hr
    · have hnew : ∀ b, b % 4096 = 0 → b < trapframeVa → pageAt s'.mem root b =
          if sz ≤ b ∧ b < r then some (perm, fun _ => 0) else pageAt s.mem root b := by
        intro b hal hb
        rw [hz' b hal hb]
        simp only [mem_grown h.le hal]
      refine ⟨by omega, role', hstep.inv, hstep.wf, fun b hal hb hm => ?_, ?_, fun b hal hb hv => ?_,
        fun b hal hb => ?_⟩
      · rw [hsame b hal hb hm]
        exact h.top b hal hb hm
      · generalize pgroundup sz = pg at hbound hpg
        omega
      · have hp := hnew b hal hb
        split at hp
        · rw [(pageAt_eq_some.mp hp).2.1]
          exact hu
        · unfold pageAt at hp
          rw [if_pos hv] at hp
          obtain ⟨hv', hperm, -⟩ := pageAt_eq_some.mp hp.symm
          dsimp only at hperm
          rw [← hperm]
          exact h.user b hal hb hv'
      · rw [hnew b hal hb]
        by_cases hlt : b < sz
        · rw [if_neg (by omega), h.page b hal hb, if_pos hlt, if_pos (by omega), if_pos hlt]
        · by_cases hin : b < r
          · rw [if_pos ⟨by omega, hin⟩, if_pos hin, if_neg hlt]
            rfl
          · rw [if_neg (by omega), h.page b hal hb, if_neg hlt, if_neg hin]
    · exact absurd rfl hr

/-- **The eager header loop**: behind header `k` memory holds what the
first `k` headers describe. -/
theorem eagerHeaders_spec {ip : Inode} (hip : WellLaid ip) {n k : Nat} (hn : k + n = ip.phnum)
    (h : Filling root role s sz (ip.loadedPage k))
    (hsz : ∀ i, i < k → (ip.hdr i).type = 1 → (ip.hdr i).vaddr + (ip.hdr i).memsz ≤ sz) :
    wp A (eagerHeaders root ip n (ip.phoff + 56 * k) sz) ⟨fun r s' => r.1 = true →
        (∀ i, i < ip.phnum → (ip.hdr i).type = 1 → (ip.hdr i).vaddr + (ip.hdr i).memsz ≤ r.2) ∧
        ∃ role', Filling root role' s' r.2 (ip.loadedPage ip.phnum),
      fun _ => False, fun _ => True⟩ s := by
  induction n generalizing k s sz role with
  | zero =>
      obtain rfl : k = ip.phnum := by omega
      exact wp_pure.mpr fun _ => ⟨hsz, role, h⟩
  | succ n ih =>
      have hk : k < ip.phnum := by omega
      have hok := hip.hdr k hk
      have hfits := hok.fits
      have hdr : ProgHdr.decode (fun j => ip.data (ip.phoff + 56 * k + j)) = ip.hdr k := by
        rw [Inode.hdr, phdrAt, Nat.mod_eq_of_lt (by omega)]
      have hnext : (ip.phoff + 56 * k + 56) % 4294967296 = ip.phoff + 56 * (k + 1) := by omega
      have hbad : ∀ sz' s', wp A (pure (false, sz')) ⟨fun r s' => r.1 = true →
          (∀ i, i < ip.phnum → (ip.hdr i).type = 1 → (ip.hdr i).vaddr + (ip.hdr i).memsz ≤ r.2) ∧
          ∃ role', Filling root role' s' r.2 (ip.loadedPage ip.phnum),
          fun _ => False, fun _ => True⟩ s' := fun _ _ => wp_pure.mpr (by simp)
      rw [eagerHeaders, hdr, hnext]
      split
      · exact hbad _ _
      split
      · -- not a segment
        rename_i htype
        refine ih (by omega) (h.congr fun b _ _ => ?_) fun i hi ht => ?_
        · rw [Inode.loadedPage, if_neg fun hp => htype hp.1]
        · rcases Nat.lt_succ_iff_lt_or_eq.mp hi with hi | rfl
          · exact hsz i hi ht
          · exact absurd ht htype
      rename_i htype
      have htype : (ip.hdr k).type = 1 := not_not.mp htype
      have hseg := hok.seg htype
      have hend : u64 ((ip.hdr k).vaddr + (ip.hdr k).memsz) = (ip.hdr k).vaddr + (ip.hdr k).memsz :=
        Nat.mod_eq_of_lt hseg.fits
      split
      · exact hbad _ _
      split
      · exact hbad _ _
      split
      · exact hbad _ _
      rw [hend, wp_bind]
      refine (h.uvmalloc rfl).mono ?_ (fun _ hf => hf) (fun _ hf => hf)
      rintro sz₁ s₁ hr
      dsimp only
      split
      · exact hbad _ _
      rename_i hne
      obtain ⟨rfl, role₁, hfill⟩ := hr hne
      have hin := hip.inFile k hk htype
      have hsize := hip.size_le
      have hmod : (ip.hdr k).off % 4294967296 = (ip.hdr k).off ∧
          (ip.hdr k).filesz % 4294967296 = (ip.hdr k).filesz := by
        unfold maxfileBytes at hsize
        omega
      rw [loadseg, hmod.1, hmod.2, wp_bind]
      refine (loadsegLoop_spec hsize hin hseg.filesz_le htype hseg.aligned (Nat.le_max_right _ _)
        rfl (by rw [Nat.sub_zero]) hfill fun b hp _ => ?_).mono ?_ (fun _ hf => hf) fun _ hf => hf.elim
      · -- no earlier segment has a page of this one
        split
        · refine ip.loadedPage_zero fun i hi hp' => ?_
          have := hip.apart i k b (by omega) hk hp' hp
          omega
        · rfl
      · rintro r s₂ ⟨rfl, hfill₂⟩
        dsimp only
        rw [if_neg (by decide)]
        refine ih (by omega) (hfill₂.congr fun b hal hb => ?_) fun i hi ht => ?_
        · rw [Inode.loadedPage]
          by_cases hp : (ip.hdr k).HasPage b
          · rw [if_pos hp, if_pos ⟨hp, by have := hp.2.2.1; omega⟩]
          · rw [if_neg hp, if_neg fun hc => hp hc.1]
            split
            · rfl
            · -- between the segments
              rename_i hge
              refine ip.loadedPage_zero fun i hi hp' => ?_
              have h1 := hsz i hi hp'.1
              have h2 := hp'.2.2.2
              omega
        · rcases Nat.lt_succ_iff_lt_or_eq.mp hi with hi | rfl
          · exact (hsz i hi ht).trans (Nat.le_max_left _ _)
          · exact Nat.le_max_right _ _

/-- **The image of the eager loader.** -/
theorem eagerLoad_spec {ip : Inode} {tf : Frame} (hip : WellLaid ip) (h : PoolOk s) :
    wp A (eagerLoad tf ip) ⟨fun r s' => ∀ root sz, r = some (root, sz) →
        ∀ i va, i < ip.phnum → (ip.hdr i).HasPage va →
          ∃ perm, pageAt s'.mem root va = some (perm, ip.segPage (ip.hdr i) va),
      fun _ => False, fun _ => True⟩ s := by
  unfold eagerLoad
  rw [wp_bind]
  refine (procPagetable_spec h.inv).mono ?_ (fun _ hf => hf) (fun _ hf => hf.elim)
  rintro r s₁ hr
  cases r with
  | none => exact wp_pure.mpr nofun
  | some root =>
      obtain ⟨role₁, hstep, -, hleaf⟩ := hr
      have hno := NoUser.of_top hleaf
      have hempty : Filling root role₁ s₁ 0 (ip.loadedPage 0) := by
        refine ⟨hstep.inv, hstep.wf, fun b hal hb hm => ?_, Nat.zero_le _, fun b hal hb hv => ?_,
          fun b hal hb => ?_⟩
        · rw [hleaf b hal hm]
          exact (top_leaf hal hb hm).1
        · rw [hno b hal hb] at hv
          cases hv
        · rw [pageAt_eq_none.mpr (hno b hal hb), if_neg (Nat.not_lt_zero b)]
          rfl
      have hloop := eagerHeaders_spec (A := A) hip (Nat.zero_add _) hempty nofun
      rw [Nat.mul_zero, Nat.add_zero] at hloop
      dsimp only
      rw [wp_bind]
      refine hloop.mono ?_ (fun _ hf => hf) (fun _ hf => hf)
      rintro ⟨ok, sz⟩ s₂ hr
      refine wp_pure.mpr fun root' sz' hsome i va hi hp => ?_
      cases ok with
      | false => cases hsome
      | true =>
          cases hsome
          obtain ⟨hsz, role₂, hfill⟩ := hr rfl
          have hva := hp.2.2.2.trans_le (hsz i hi hp.1)
          have hpage := hfill.page va hp.2.1 (hva.trans_le hfill.le)
          rw [if_pos hva, hip.loadedPage_eq (Nat.le_refl _) hi hp] at hpage
          obtain ⟨⟨perm, pg⟩, hx, rfl⟩ := Option.map_eq_some_iff.mp hpage
          exact ⟨perm, hx⟩

end

end OsSuite.Xv6
