import OsSuite.Xv6.ByteCopy

/-!
# Sbrk — the arithmetic of `sys_sbrk`

The size of a process is a `uint64` of at most `TRAPFRAME`, the increment
an `int`. A sum that falls below zero wraps to a number far above any
size; `uvmdealloc` takes that for a request to grow and does nothing. No
other sum wraps, neither does a page rounding, and the page count fits
into the `int` it passes through (`sbrk_sums`).
-/

namespace OsSuite.Xv6

/-- The call shrinks the process, and `a` lies in
`[PGROUNDUP(sz + n), PGROUNDUP(sz))`. -/
def CutBy (sz : Nat) (n : Int) (a : Nat) : Prop :=
  (0 ≤ (sz : Int) + n ∧ (sz : Int) + n < sz) ∧
    pgroundup ((sz : Int) + n).toNat ≤ a ∧ a < pgroundup sz

instance (sz : Nat) (n : Int) (a : Nat) : Decidable (CutBy sz n a) :=
  inferInstanceAs (Decidable (_ ∧ _))

/-- **The machine sums are the mathematical ones**, where the new size is
a size. -/
structure SbrkSums (sz : Nat) (n : Int) : Prop where
  /-- `addr + n` -/
  grow : 0 < n → (u64 (sz + n.toNat) : Int) = sz + n
  shrink : n < 0 → 0 ≤ (sz : Int) + n →
    (u64 (18446744073709551616 + sz - n.natAbs) : Int) = sz + n
  /-- The one sum that wraps is not a size. -/
  below : (sz : Int) + n < 0 → sz < u64 (18446744073709551616 + sz - n.natAbs)
  roundOld : pgroundup sz = (sz + 4095) / 4096 * 4096
  roundNew : (sz : Int) + n ≤ trapframeVa →
    pgroundup ((sz : Int) + n).toNat = (((sz : Int) + n).toNat + 4095) / 4096 * 4096
  /-- `int npages` -/
  count : intCount (shrinkCount sz ((sz : Int) + n).toNat) = shrinkCount sz ((sz : Int) + n).toNat
  count_lt : shrinkCount sz ((sz : Int) + n).toNat < 2147483648
  /-- `va + npages*PGSIZE` -/
  stop : (sz : Int) + n ≤ trapframeVa → pgroundup ((sz : Int) + n).toNat +
    shrinkCount sz ((sz : Int) + n).toNat * 4096 < 18446744073709551616

theorem sbrk_sums {sz : Nat} {n : Int} (hsz : sz ≤ trapframeVa)
    (hn : -2147483648 ≤ n ∧ n < 2147483648) : SbrkSums sz n := by
  have hround := pgroundup_le_trapframe hsz
  have hcount : shrinkCount sz ((sz : Int) + n).toNat ≤ userPages := by
    unfold shrinkCount userPages
    unfold trapframeVa at hround
    omega
  have hcount' := hcount
  unfold userPages at hcount'
  unfold trapframeVa at *
  refine ⟨fun h => ?_, fun h h' => ?_, fun h => ?_, ?_, fun h => ?_, intCount_of_lt hcount, ?_,
    fun h => ?_⟩
  · unfold u64
    omega
  · unfold u64
    omega
  · unfold u64
    omega
  · unfold pgroundup u64
    omega
  · unfold pgroundup u64
    omega
  · omega
  · unfold pgroundup u64
    omega

/-- **What a call of `sys_sbrk` does.** -/
structure Sbrked (n : Int) (st : St) (r : Int) (st' : St) : Prop where
  size : (st'.p.sz : Int) =
    if 0 ≤ (st.p.sz : Int) + n ∧ (st.p.sz : Int) + n ≤ trapframeVa then st.p.sz + n else st.p.sz
  result : r = if 0 < n ∧ (trapframeVa : Int) < st.p.sz + n then -1 else (st.p.sz : Int)
  le : st'.p.sz ≤ trapframeVa
  proc : st'.p = { st.p with sz := st'.p.sz }
  leaves : ∀ a, a % 4096 = 0 → a < maxva → leaf st'.sys.mem st.p.pagetable a =
    if CutBy st.p.sz n a ∧ (leaf st.sys.mem st.p.pagetable a).v = true then Pte.zero
    else leaf st.sys.mem st.p.pagetable a
  frames : ∃ l : List Frame, st'.sys.freelist = l ++ st.sys.freelist ∧ l.Nodup ∧
    ∀ f, f ∈ l ↔ ∃ a, a % 4096 = 0 ∧ CutBy st.p.sz n a ∧
      (leaf st.sys.mem st.p.pagetable a).v = true ∧ (leaf st.sys.mem st.p.pagetable a).pa = f
  inv : ∃ role, SysInv role st'.sys ∧ PtWf role st'.sys.mem st'.p.pagetable

section
variable {A : Event → Prop} {role : Frame → Role} {st : St} {n : Int}

/-- Only the size changes. -/
theorem Sbrked.of_size {r : Int} {sz : Nat} (h : SysInv role st.sys)
    (hw : PtWf role st.sys.mem st.p.pagetable) (hcut : ∀ a, ¬ CutBy st.p.sz n a)
    (hsize : (sz : Int) = if 0 ≤ (st.p.sz : Int) + n ∧ (st.p.sz : Int) + n ≤ trapframeVa
      then st.p.sz + n else st.p.sz)
    (hr : r = if 0 < n ∧ (trapframeVa : Int) < st.p.sz + n then -1 else (st.p.sz : Int))
    (hle : sz ≤ trapframeVa) : Sbrked n st r { st with p := { st.p with sz := sz } } where
  size := hsize
  result := hr
  le := hle
  proc := rfl
  leaves a _ _ := by rw [if_neg fun hc => hcut a hc.1]
  frames := by
    refine ⟨[], rfl, List.nodup_nil, fun f => ⟨nofun, ?_⟩⟩
    rintro ⟨a, -, hc, -⟩
    exact (hcut a hc).elim
  inv := ⟨role, h, hw⟩

/-- The pages of a shrinking call are those that `uvmdealloc` counts. -/
theorem cutBy_iff {a : Nat} (hneg : n < 0) (hpos : 0 ≤ (st.p.sz : Int) + n) (hal : a % 4096 = 0) :
    CutBy st.p.sz n a ↔ pgroundup ((st.p.sz : Int) + n).toNat ≤ a ∧
      a < pgroundup ((st.p.sz : Int) + n).toNat +
        4096 * shrinkCount st.p.sz ((st.p.sz : Int) + n).toNat := by
  have h₁ := pgroundup_aligned st.p.sz
  have h₂ := pgroundup_aligned ((st.p.sz : Int) + n).toNat
  unfold CutBy shrinkCount
  omega

theorem sysSbrk_shrinks (h : SysInv role st.sys) (hw : PtWf role st.sys.mem st.p.pagetable)
    (hsz : st.p.sz ≤ trapframeVa) (hn : -2147483648 ≤ n) (hneg : n < 0) :
    wp A (sysSbrk n) ⟨fun r st' => Sbrked n st r st', fun _ => False, fun _ => False⟩ st := by
  have hsums : SbrkSums st.p.sz n := sbrk_sums hsz ⟨hn, by omega⟩
  unfold sysSbrk
  rw [wp_get_bind, if_neg (by omega), if_pos hneg]
  simp only [wp_bind, onSys, wp_zoom]
  refine (uvmdealloc_spec h hw hsz).mono (fun r s' hr => ?_) (fun _ h => h) fun _ h => h
  simp only [modifyProc, wp_modify, wp_pure]
  rcases hr with ⟨hle, rfl, rfl⟩ | ⟨hlt, rfl, role', hstep, hfreed, hleaf, -⟩
  · -- the sum wrapped
    have hbelow : (st.p.sz : Int) + n < 0 := by
      by_contra hc
      have := hsums.shrink hneg (by omega)
      omega
    refine .of_size h hw (fun a hc => ?_) ?_ ?_ hsz
    · have := hc.1.1
      omega
    · rw [if_neg (by omega)]
    · rw [if_neg (by omega)]
  · have hpos : 0 ≤ (st.p.sz : Int) + n := by
      by_contra hc
      have := hsums.below (by omega)
      omega
    have hnew := hsums.shrink hneg hpos
    have heq : u64 (18446744073709551616 + st.p.sz - n.natAbs) = ((st.p.sz : Int) + n).toNat := by
      omega
    rw [heq] at hleaf hfreed hlt ⊢
    refine ⟨?_, ?_, ?_, rfl, fun a hal ha => ?_, ⟨_, hfreed.freelist, ?_, fun f => ?_⟩,
      role', hstep.inv, hstep.wf⟩
    · rw [if_pos ⟨hpos, by omega⟩]
      exact Int.toNat_of_nonneg hpos
    · rw [if_neg (by omega)]
    · show ((st.p.sz : Int) + n).toNat ≤ trapframeVa
      omega
    · refine (hleaf a hal ha).trans (if_congr ?_ rfl rfl)
      rw [← and_assoc, cutBy_iff hneg hpos hal]
    · refine List.nodup_reverse.mpr (hw.mappedIn_nodup (pgroundup_aligned _) ?_)
      have h₁ := pgroundup_aligned st.p.sz
      have h₂ := pgroundup_aligned ((st.p.sz : Int) + n).toNat
      have h₃ := pgroundup_le_trapframe hsz
      have h₄ := pgroundup_le_trapframe (Nat.le_trans (Nat.le_of_lt hlt) hsz)
      unfold shrinkCount
      omega
    · rw [List.mem_reverse, mem_mappedIn]
      have h₂ := pgroundup_aligned ((st.p.sz : Int) + n).toNat
      constructor
      · rintro ⟨k, hk, hv, hf⟩
        have hal : (pgroundup ((st.p.sz : Int) + n).toNat + 4096 * k) % 4096 = 0 := by omega
        exact ⟨_, hal, (cutBy_iff hneg hpos hal).mpr ⟨by omega, by omega⟩, hv, hf⟩
      · rintro ⟨a, hal, hc, hv, hf⟩
        have hc := (cutBy_iff hneg hpos hal).mp hc
        have ha : pgroundup ((st.p.sz : Int) + n).toNat +
            4096 * ((a - pgroundup ((st.p.sz : Int) + n).toNat) / 4096) = a := by omega
        refine ⟨(a - pgroundup ((st.p.sz : Int) + n).toNat) / 4096, by omega, ?_⟩
        rw [ha]
        exact ⟨hv, hf⟩

/-- **`sys_sbrk`**, for every increment. -/
theorem sysSbrk_spec (h : SysInv role st.sys) (hw : PtWf role st.sys.mem st.p.pagetable)
    (hsz : st.p.sz ≤ trapframeVa) (hn : -2147483648 ≤ n ∧ n < 2147483648) :
    wp A (sysSbrk n) ⟨fun r st' => Sbrked n st r st', fun _ => False, fun _ => False⟩ st := by
  have hsums : SbrkSums st.p.sz n := sbrk_sums hsz hn
  rcases lt_trichotomy n 0 with hneg | rfl | hpos
  · exact sysSbrk_shrinks h hw hsz hn.1 hneg
  · unfold sysSbrk
    rw [wp_get_bind, if_neg (by decide), if_neg (by decide), wp_pure]
    refine .of_size h hw (fun a hc => ?_) ?_ ?_ hsz
    · have := hc.1.2
      omega
    · rw [Int.add_zero, ite_self]
    · rw [if_neg (fun hc => absurd hc.1 (by decide))]
  · have hgrow := hsums.grow hpos
    have hcut : ∀ a, ¬ CutBy st.p.sz n a := fun a hc => by
      have := hc.1.2
      omega
    unfold sysSbrk
    rw [wp_get_bind, if_pos hpos]
    dsimp only
    split
    · rename_i hover
      refine wp_pure.mpr (.of_size h hw hcut ?_ ?_ hsz)
      · rw [if_neg (by omega)]
      · rw [if_pos (by omega)]
    · rename_i hfits
      simp only [wp_bind, modifyProc, wp_modify, wp_pure]
      refine .of_size h hw hcut ?_ ?_ (by omega)
      · rw [if_pos (by omega), hgrow]
      · rw [if_neg (by omega)]

/-- **THE ARITHMETIC OF `sbrk`.** For every size up to `TRAPFRAME` and
every `int`: the call returns, its sums do not wrap, and size, result,
leaves and freed frames are those of `Sbrked`. -/
theorem sbrk_arithmetic (h : SysInv role st.sys) (hw : PtWf role st.sys.mem st.p.pagetable)
    (hsz : st.p.sz ≤ trapframeVa) (hn : -2147483648 ≤ n ∧ n < 2147483648) :
    SbrkSums st.p.sz n ∧ ∃ r st' w, sysSbrk n st = .ret r st' w ∧ Sbrked n st r st' :=
  ⟨sbrk_sums hsz hn, (sysSbrk_spec (A := fun _ => True) h hw hsz hn).exists_ret⟩

end

/-- The owners of the frames of `twoPages`. -/
def twoPagesRole (f : Frame) : Role :=
  if f = 524301 then .owned 524301 .top
  else if f = 524302 then .owned 524301 (.mid 0)
  else if f = 524303 then .owned 524301 (.low 0 0)
  else if f = 524304 then .owned 524301 (.page 0)
  else if f = 524305 then .owned 524301 (.page 4096)
  else .kernel

theorem sysInv_twoPages : SysInv twoPagesRole twoPages.sys where
  free_nodup := List.nodup_nil
  mem_free f := by
    refine ⟨nofun, fun h => ?_⟩
    unfold twoPagesRole at h
    split_ifs at h
  held_nodup := List.nodup_nil
  mem_held f := by
    refine ⟨nofun, fun h => ?_⟩
    unfold twoPagesRole at h
    split_ifs at h
  valid f h := by
    unfold twoPagesRole at h
    show 524300 ≤ f ∧ f < phystop
    split_ifs at h
    all_goals first
      | exact absurd rfl h
      | rename_i hf
        rw [hf]
        decide
  kend_le := by decide

theorem pte_twoPages (i : Nat) :
    (twoPages.sys.mem 524301).pte i = (if i = 0 then Pte.table 524302 else Pte.zero) ∧
    (twoPages.sys.mem 524302).pte i = (if i = 0 then Pte.table 524303 else Pte.zero) ∧
    (twoPages.sys.mem 524303).pte i =
      if i < 2 then ⟨true, ⟨true, true, false, true⟩, 524304 + i⟩ else Pte.zero := ⟨rfl, rfl, rfl⟩

theorem leaf_twoPages {va : Nat} (h : (leaf twoPages.sys.mem 524301 va).v = true) :
    px 2 va = 0 ∧ px 1 va = 0 ∧ px 0 va < 2 ∧
      leaf twoPages.sys.mem 524301 va = ⟨true, ⟨true, true, false, true⟩, 524304 + px 0 va⟩ := by
  unfold leaf leafAddr at h ⊢
  rw [(pte_twoPages _).1] at h ⊢
  by_cases h₂ : px 2 va = 0
  · simp only [h₂, if_true, Pte.table_v, Pte.table_pa, (pte_twoPages _).2.1] at h ⊢
    by_cases h₁ : px 1 va = 0
    · simp only [h₁, if_true, Pte.table_v, Pte.table_pa, (pte_twoPages _).2.2] at h ⊢
      by_cases h₀ : px 0 va < 2
      · rw [if_pos h₀]
        exact ⟨trivial, trivial, h₀, rfl⟩
      · rw [if_neg h₀] at h
        cases h
    · simp [h₁, Pte.zero] at h
  · simp [h₂, Pte.zero] at h

theorem ptWf_twoPages : PtWf twoPagesRole twoPages.sys.mem 524301 := by
  have hmid : ∀ i, ((twoPages.sys.mem 524301).pte i).v = true → i = 0 := by
    intro i hv
    rw [(pte_twoPages i).1] at hv
    split at hv
    · assumption
    · cases hv
  refine ⟨rfl, fun i _ hv => ?_, fun i _ hv => ?_, fun i j _ _ hv hv' => ?_, fun va hal hva hv => ?_⟩
  · rw [hmid i hv]
    decide
  · obtain rfl := hmid i hv
    exact ⟨rfl, rfl⟩
  · obtain rfl := hmid i hv
    change ((twoPages.sys.mem 524302).pte j).v = true at hv'
    rw [(pte_twoPages j).2.1] at hv'
    split at hv'
    · rename_i hj
      subst hj
      exact ⟨rfl, rfl⟩
    · cases hv'
  · obtain ⟨h₂, h₁, h₀, hl⟩ := leaf_twoPages hv
    have hpage : va = 0 ∨ va = 4096 := by
      unfold px trapframeVa at *
      simp only [Nat.reduceMul, Nat.reduceAdd, Nat.reducePow] at h₂ h₁ h₀
      omega
    rw [hl]
    rcases hpage with rfl | rfl <;> rfl

/-- A process of two pages gives back all but 100 bytes: the second page
goes, the first one stays. -/
theorem sbrk_arithmetic_two_pages :
    ∃ r st' w, sysSbrk (-8092) twoPages = .ret r st' w ∧
      r = 8192 ∧ st'.p.sz = 100 ∧ leaf st'.sys.mem 524301 4096 = Pte.zero ∧
      (leaf st'.sys.mem 524301 0).pa = 524304 ∧ 524305 ∈ st'.sys.freelist := by
  obtain ⟨-, r, st', w, hrun, hs⟩ :=
    sbrk_arithmetic (n := -8092) sysInv_twoPages ptWf_twoPages (by decide) (by decide)
  have hleaf : ∀ a, a % 4096 = 0 → a < maxva → leaf st'.sys.mem 524301 a = _ := hs.leaves
  refine ⟨r, st', w, hrun, hs.result.trans (if_neg (by decide)), ?_, ?_, ?_, ?_⟩
  · exact Int.ofNat_inj.mp (hs.size.trans (if_pos (by decide)))
  · exact (hleaf 4096 (by decide) (by decide)).trans (if_pos ⟨by decide, rfl⟩)
  · rw [hleaf 0 (by decide) (by decide), if_neg (fun hc => absurd hc.1 (by decide))]
    rfl
  · obtain ⟨l, hl, -, hmem⟩ := hs.frames
    rw [hl]
    exact List.mem_append_left _ ((hmem _).mpr ⟨4096, by decide, by decide, rfl, rfl⟩)

end OsSuite.Xv6
