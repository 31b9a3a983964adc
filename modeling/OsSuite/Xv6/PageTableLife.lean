import OsSuite.Xv6.PageTableFree

/-!
# PageTableLife — making, growing and copying a page table

`procPagetable` makes a table with the two top pages; `kexec` and
`kfork` fill it. Until it is complete nobody else knows of it, and a
failure on the way gives every frame back. `Others` is what the rest of
the machine sees of all this: nothing.
-/

namespace OsSuite.Xv6

section
variable {A : Event → Prop} {role role' : Frame → Role} {s s' : Sys} {root : Frame}

/-! ## A new table -/

/-- Every page table but those in `X` keeps its frames, and so does
everybody who holds frames that are in no table. -/
structure Others (X : Frame → Prop) (role role' : Frame → Role) (m m' : Mem) : Prop where
  owned : ∀ r, ¬ X r → role r = .owned r .top → ∀ f u, role f = .owned r u →
    role' f = role f ∧ m' f = m f
  busy : ∀ f, (role f).idle = false → (∀ r u, role f ≠ .owned r u) →
    role' f = role f ∧ m' f = m f

theorem Others.refl (X : Frame → Prop) (role : Frame → Role) (m : Mem) :
    Others X role role m m :=
  ⟨fun _ _ _ _ _ _ => ⟨rfl, rfl⟩, fun _ _ _ => ⟨rfl, rfl⟩⟩

theorem Others.of_foreign {m m' : Mem} (h : Kept (Role.foreign root) role role' m m') :
    Others (· = root) role role' m m' where
  owned r hr _ f u hf := by
    have : (role f).foreign root = true := by rw [hf]; simpa [Role.foreign] using hr
    exact ⟨h.role_eq f this, h.mem_eq f this⟩
  busy f hf hn := by
    have hfor : (role f).foreign root = true := by
      cases hr : role f with
      | owned r u => exact absurd hr (hn r u)
      | free => rw [hr] at hf; cases hf
      | held => rw [hr] at hf; cases hf
      | _ => rfl
    exact ⟨h.role_eq f hfor, h.mem_eq f hfor⟩

/-- A table whose root was idle before is nobody's. -/
theorem Others.of_new {m m' : Mem} (h : Kept (Role.foreign root) role role' m m')
    (hidle : (role root).idle = true) : Others (fun _ => False) role role' m m' where
  owned r _ htop := by
    refine (of_foreign h).owned r ?_ htop
    rintro rfl
    rw [htop] at hidle
    cases hidle
  busy := (of_foreign h).busy

theorem Others.of_busy {m m' : Mem} (h : Kept (fun r => !r.idle) role role' m m') :
    Others (fun _ => False) role role' m m' where
  owned r _ _ f u hf := ⟨h.role_eq f (by rw [hf]; rfl), h.mem_eq f (by rw [hf]; rfl)⟩
  busy f hf _ := ⟨h.role_eq f (by simp [hf]), h.mem_eq f (by simp [hf])⟩

/-- **`uvmcreate`**: an empty table. -/
theorem uvmcreate_spec (h : SysInv role s) :
    wp A uvmcreate ⟨fun r s' => match r with
        | none => ∃ role', SysInv role' s' ∧ SameConf s s' ∧
            Others (fun _ => False) role role' s.mem s'.mem
        | some root => ∃ role', PtStep root role role' s s' ∧ (role root).idle = true ∧
            ∀ a, leaf s'.mem root a = Pte.zero,
      fun _ => False, fun _ => False⟩ s := by
  unfold uvmcreate
  simp only [wp_bind]
  refine (kalloc_spec h).mono ?_ (fun _ h => h) (fun _ h => h)
  rintro r s₁ ⟨role₁, h₁, hc, hk, hr⟩
  cases r with
  | none =>
      simp only [wp_pure]
      exact ⟨role₁, h₁, hc, .of_busy hk⟩
  | some f =>
      obtain ⟨hidle, hlost⟩ := hr
      simp only [wp_bind, wp_zeroFrame, wp_pure]
      have hempty : ∀ i, ((s₁.setCell f (Cell.fill 0)).mem f).pte i = Pte.zero := fun i => by
        show (Function.update s₁.mem f (Cell.fill 0) f).pte i = _
        rw [Function.update_self, Cell.pte_fill_zero]
      have hleaf : ∀ a, leaf (s₁.setCell f (Cell.fill 0)).mem f a = Pte.zero := fun a =>
        leaf_of_none (by unfold leafAddr; rw [hempty]; rfl)
      have hother : ∀ g, (role g).foreign f = true → g ≠ f ∧ (!(role g).idle) = true := by
        intro g hg
        refine ⟨?_, by simp [Role.not_idle_of_foreign hg]⟩
        rintro rfl
        rw [Role.not_idle_of_foreign hg] at hidle
        cases hidle
      refine ⟨Function.update role₁ f (.owned f .top),
        ⟨h₁.update (by rw [hlost]; rfl) (by rw [hlost]; simp) rfl _, ?_, ⟨?_, ?_⟩,
          hc.trans (.setCell _ _ _)⟩, hidle, hleaf⟩
      · refine ⟨Function.update_self .., fun i _ hv => ?_, fun i _ hv => ?_,
          fun i j _ _ hv => ?_, fun a _ _ hv => ?_⟩
        · rw [hempty] at hv; cases hv
        · rw [hempty] at hv; cases hv
        · rw [hempty] at hv; cases hv
        · rw [hleaf] at hv; cases hv
      · intro g hg
        rw [Function.update_of_ne (hother g hg).1, hk.role_eq g (hother g hg).2]
      · intro g hg
        show Function.update s₁.mem f _ g = _
        rw [Function.update_of_ne (hother g hg).1, hk.mem_eq g (hother g hg).2]

/-- The two top entries of a process's table. -/
def trampPte (tramp : Frame) : Pte := ⟨true, ⟨true, false, true, false⟩, tramp⟩

def trapframePte (tf : Frame) : Pte := ⟨true, ⟨true, true, false, false⟩, tf⟩

/-- A failed construction gives everything back. -/
theorem uvmfree_new_spec {role₀ : Frame → Role} {s₀ : Sys} (hstep : PtStep root role₀ role s₀ s)
    (hidle : (role₀ root).idle = true) (hn : NoLeaf s.mem root) :
    wp A (uvmfree root 0) ⟨fun _ s' => ∃ role', SysInv role' s' ∧ SameConf s₀ s' ∧
        Others (fun _ => False) role₀ role' s₀.mem s'.mem,
      fun _ => False, fun _ => False⟩ s := by
  refine (uvmfree_spec hstep.inv hstep.wf (by decide) fun a hal ha hv => ?_).mono ?_
    (fun _ h => h) (fun _ h => h)
  · rw [hn a hal ha] at hv
    cases hv
  · rintro _ s' ⟨role', h', hc', hf'⟩
    have hkept := hf'.kept fun f hf => by
      have hz : pgroundup 0 / 4096 = 0 := by decide
      rw [hz, mappedIn, List.nil_append] at hf
      obtain ⟨u, hu, _⟩ := hstep.wf.tablePages_role hf
      exact ⟨u, hu⟩
    exact ⟨role', h', hstep.conf.trans hc', .of_new (hstep.kept.trans hkept) hidle⟩

/-- **`proc_pagetable`**: a table with the two top pages only. -/
theorem procPagetable_spec {tf : Frame} (h : SysInv role s) :
    wp A (procPagetable tf) ⟨fun r s' => match r with
        | none => ∃ role', SysInv role' s' ∧ SameConf s s' ∧
            Others (fun _ => False) role role' s.mem s'.mem
        | some root => ∃ role', PtStep root role role' s s' ∧ (role root).idle = true ∧
            ∀ a, a % 4096 = 0 → a < maxva → leaf s'.mem root a
              = if a = trapframeVa then trapframePte tf
                else if a = trampolineVa then trampPte s.tramp else Pte.zero,
      fun _ => False, fun _ => False⟩ s := by
  unfold procPagetable
  simp only [wp_bind]
  refine (uvmcreate_spec h).mono ?_ (fun _ h => h) (fun _ h => h)
  rintro r s₁ hr
  cases r with
  | none => simpa only [wp_pure] using hr
  | some root =>
      obtain ⟨role₁, hstep₁, hidle, hl₁⟩ := hr
      simp only [wp_bind, wp_get]
      refine (mappages_spec hstep₁.inv hstep₁.wf (by decide) (by decide) ?_).mono ?_
        (fun _ h => h) (fun _ h => h)
      · intro _ hlt; exact absurd hlt (by decide)
      rintro r s₂ ⟨role₂, hpost₂⟩
      have hstep₂ := hstep₁.trans hpost₂.step
      rcases hpost₂.result with ⟨rfl, _, hl₂⟩ | ⟨rfl, hl₂, _⟩
      · -- the trampoline is mapped
        simp only [Int.reduceLT, if_false, wp_bind]
        refine (mappages_spec hpost₂.step.inv hpost₂.step.wf (by decide) (by decide) ?_).mono ?_
          (fun _ h => h) (fun _ h => h)
        · intro _ hlt; exact absurd hlt (by decide)
        rintro r s₃ ⟨role₃, hpost₃⟩
        have hstep₃ := hstep₂.trans hpost₃.step
        rcases hpost₃.result with ⟨rfl, _, hl₃⟩ | ⟨rfl, hl₃, _⟩
        · simp only [Int.reduceLT, if_false, wp_pure]
          refine ⟨role₃, hstep₃, hidle, fun a hal ha => ?_⟩
          rw [hl₃ a hal ha, hl₂ a hal ha, hl₁, hstep₁.conf.tramp]
          rfl
        · simp only [Int.reduceNeg, Int.reduceLT, if_true, wp_bind]
          refine (uvmunmap_keep_spec hstep₃.inv hstep₃.wf (by decide) (by decide)).mono ?_
            (fun _ h => h) (fun _ h => h)
          rintro _ s₄ ⟨hstep₄, _, hl₄, _⟩
          have hn : NoLeaf s₄.mem root := by
            intro a hal ha
            rw [hl₄ a hal ha, unmapped, hl₃, hl₂ a hal ha, hl₁]
            by_cases he : a = trampolineVa
            · have hlt : a < trampolineVa + 4096 * 1 := by
                rw [he]
                exact Nat.lt_add_of_pos_right (by decide)
              rw [if_pos he, if_pos ⟨Nat.le_of_eq he.symm, hlt, rfl⟩]
              rfl
            · rw [if_neg he, ite_self]
              rfl
          refine (uvmfree_new_spec (hstep₃.trans hstep₄) hidle hn).mono ?_ (fun _ h => h)
            (fun _ h => h)
          rintro _ s₅ hs₅
          simpa only [wp_pure] using hs₅
      · simp only [Int.reduceNeg, Int.reduceLT, if_true, wp_bind]
        have hn : NoLeaf s₂.mem root := fun a _ _ => by rw [hl₂, hl₁]; rfl
        refine (uvmfree_new_spec hstep₂ hidle hn).mono ?_ (fun _ h => h) (fun _ h => h)
        rintro _ s₃ hs₃
        simpa only [wp_pure] using hs₃

/-! ## Growing and shrinking -/

theorem intCount_of_lt {n : Nat} (h : n ≤ userPages) : intCount n = n := by
  unfold userPages at h
  unfold intCount
  rw [if_pos (by omega)]
  omega

/-- The pages of `[pgroundup newsz, pgroundup oldsz)`. -/
def shrinkCount (oldsz newsz : Nat) : Nat := (pgroundup oldsz - pgroundup newsz) / 4096

/-- **`uvmdealloc`** -/
theorem uvmdealloc_spec {oldsz newsz : Nat} (h : SysInv role s) (hw : PtWf role s.mem root)
    (hold : oldsz ≤ trapframeVa) :
    wp A (uvmdealloc root oldsz newsz) ⟨fun r s' =>
        (oldsz ≤ newsz ∧ r = oldsz ∧ s' = s) ∨
        (newsz < oldsz ∧ r = newsz ∧ ∃ role', PtStep root role role' s s' ∧
          Freed (Role.fixed root) (mappedIn s.mem root (shrinkCount oldsz newsz)
            (pgroundup newsz)) role role' s s' ∧
          (∀ b, b % 4096 = 0 → b < maxva → leaf s'.mem root b
            = unmapped s.mem root (shrinkCount oldsz newsz) (pgroundup newsz) b) ∧
          ∀ b, leafAddr s'.mem root b = leafAddr s.mem root b),
      fun _ => False, fun _ => False⟩ s := by
  unfold uvmdealloc
  by_cases hle : oldsz ≤ newsz
  · rw [if_pos hle, wp_pure]
    exact .inl ⟨hle, rfl, rfl⟩
  · rw [if_neg hle]
    have hlt := Nat.not_le.mp hle
    have h1 := pgroundup_le_trapframe hold
    have h2 := pgroundup_aligned oldsz
    have h3 := pgroundup_aligned newsz
    have hcount : (pgroundup oldsz - pgroundup newsz) / 4096 ≤ userPages := by
      unfold trapframeVa at h1; unfold userPages; omega
    have hmax : trapframeVa ≤ maxva := by decide
    by_cases hgo : pgroundup newsz < pgroundup oldsz
    · simp only [if_pos hgo, wp_bind, wp_pure]
      rw [intCount_of_lt hcount]
      refine (uvmunmap_free_spec h hw h3 (by omega) fun k hk _ => by omega).mono ?_
        (fun _ h => h) (fun _ h => h)
      rintro _ s' hs'
      exact .inr ⟨hlt, trivial, hs'⟩
    · simp only [if_neg hgo, wp_pure]
      have hz : shrinkCount oldsz newsz = 0 := by unfold shrinkCount; omega
      rw [hz]
      refine .inr ⟨hlt, trivial, role, .refl h hw, .nil rfl rfl rfl fun _ _ => rfl,
        fun b _ _ => ?_, fun _ => trivial⟩
      rw [unmapped, if_neg (by omega)]

/-- The user pages are those of `[lo, hi)`, all zero. -/
def ZeroMapped (m : Mem) (root : Frame) (lo hi : Nat) (perm : Perm) : Prop :=
  ∀ b, b % 4096 = 0 → b < trapframeVa →
    pageAt m root b = if lo ≤ b ∧ b < hi then some (perm, fun _ => 0) else none

/-- Zeroed pages in `[lo, hi)`; the others are those of `base`. -/
def ZeroedIn (base : Nat → Option (Perm × Page)) (m : Mem) (root : Frame) (lo hi : Nat)
    (perm : Perm) : Prop :=
  ∀ b, b % 4096 = 0 → b < trapframeVa →
    pageAt m root b = if lo ≤ b ∧ b < hi then some (perm, fun _ => 0) else base b

/-- The entries of the two top pages. -/
def SameTop (root : Frame) (m m' : Mem) : Prop :=
  ∀ b, b % 4096 = 0 → trapframeVa ≤ b → b < maxva → leaf m' root b = leaf m root b

/-- The loop of `uvmalloc`, in a table where the two top pages are taken:
it maps all pages or none. It panics only if it starts beyond the last
page. -/
theorem allocLoop_spec {base : Nat → Option (Perm × Page)} {oldsz newsz n a : Nat} {perm : Perm}
    (h : SysInv role s) (hw : PtWf role s.mem root) (hal : a % 4096 = 0) (hold : oldsz % 4096 = 0)
    (hle : oldsz ≤ a) (hbound : a ≤ trapframeVa ∨ a = oldsz)
    (hbase : ∀ b, b % 4096 = 0 → b < trapframeVa → oldsz ≤ b → base b = none)
    (hz : ZeroedIn base s.mem root oldsz a perm)
    (htop : ∀ b, b % 4096 = 0 → oldsz ≤ b → trapframeVa ≤ b → b < maxva →
      (leaf s.mem root b).v = true) :
    wp A (allocLoop root oldsz newsz perm n a) ⟨fun r s' => ∃ role',
        PtStep root role role' s s' ∧ SameTop root s.mem s'.mem ∧
        ((r = newsz ∧ (a + 4096 * n ≤ trapframeVa ∨ n = 0) ∧
            ZeroedIn base s'.mem root oldsz (a + 4096 * n) perm) ∨
          (r = 0 ∧ ZeroedIn base s'.mem root oldsz oldsz perm)),
      fun _ => False, fun _ => maxva ≤ oldsz⟩ s := by
  induction n generalizing a s role with
  | zero =>
      rw [allocLoop, wp_pure]
      exact ⟨role, .refl h hw, fun _ _ _ _ => rfl, .inl ⟨rfl, .inr rfl, hz⟩⟩
  | succ n ih =>
      rw [allocLoop, wp_bind]
      -- giving up: the pages mapped so far are freed
      have hfail : ∀ {role₁ : Frame → Role} {s₁ : Sys}, PtStep root role role₁ s s₁ →
          SameTop root s.mem s₁.mem → ZeroedIn base s₁.mem root oldsz a perm →
          wp A (do let _ ← uvmdealloc root a oldsz; pure 0) ⟨fun r s' => ∃ role',
            PtStep root role role' s s' ∧ SameTop root s.mem s'.mem ∧
            ((r = newsz ∧ (a + 4096 * (n + 1) ≤ trapframeVa ∨ n + 1 = 0) ∧
                ZeroedIn base s'.mem root oldsz (a + 4096 * (n + 1)) perm) ∨
              (r = 0 ∧ ZeroedIn base s'.mem root oldsz oldsz perm)),
          fun _ => False, fun _ => maxva ≤ oldsz⟩ s₁ := by
        intro role₁ s₁ hstep hsame hz₁
        rcases hbound with hb | rfl
        · simp only [wp_bind, wp_pure]
          refine (uvmdealloc_spec hstep.inv hstep.wf hb).mono ?_ (fun _ h => h) (fun _ h => h.elim)
          rintro r s₂ (⟨h1, rfl, rfl⟩ | ⟨h1, rfl, role₂, hstep₂, hf, hl, _⟩)
          · rw [show r = oldsz by omega] at hz₁
            exact ⟨role₁, hstep, hsame, .inr ⟨trivial, hz₁⟩⟩
          · have hra : pgroundup a = a := by
              unfold trapframeVa at hb; unfold pgroundup u64; omega
            have hro : pgroundup r = r := by
              unfold trapframeVa at hb; unfold pgroundup u64; omega
            have hsc : r + 4096 * shrinkCount a r = a := by
              unfold shrinkCount; rw [hra, hro]; omega
            rw [hro] at hf hl
            refine ⟨role₂, hstep.trans hstep₂, fun b hbal hbt hbm => ?_,
              .inr ⟨trivial, fun b hbal hbt => ?_⟩⟩
            · rw [hl b hbal hbm, unmapped, if_neg (by omega), hsame b hbal hbt hbm]
            · rw [hstep.wf.pageAt_unmapped hold hf (by omega) hl hbal hbt, hsc, hz₁ b hbal hbt]
              by_cases hin : r ≤ b ∧ b < a
              · rw [if_pos hin, if_neg (by omega), hbase b hbal hbt hin.1]
              · rw [if_neg hin, if_neg hin, if_neg (by omega)]
        · unfold uvmdealloc
          rw [if_pos (Nat.le_refl _)]
          simp only [wp_bind, wp_pure]
          exact ⟨role₁, hstep, hsame, .inr ⟨trivial, hz₁⟩⟩
      refine (kalloc_spec h).mono ?_ (fun _ h => h) (fun _ h => h.elim)
      rintro r s₁ ⟨role₁, h₁, hc, hk, hr⟩
      cases r with
      | none =>
          have hg : GrowStep root role role₁ s s₁ := .of_kept hw h₁ hc hk
          refine hfail hg.toPtStep (fun b _ _ _ => hg.leaf b) fun b hbal hbt => ?_
          rw [hw.pageAt_apart hg.apart hbal hbt (hg.leaf b), hz b hbal hbt]
      | some f =>
          obtain ⟨hidle, hlost⟩ := hr
          simp only [wp_bind, wp_zeroFrame]
          by_cases ham : a < maxva
          · obtain ⟨hstep, hunm, hview⟩ := PtStep.book h₁ hc hk hw hidle hlost a (Cell.fill 0)
            refine (mapOrFree_spec hstep.inv hstep.wf hal ham (Function.update_self ..) hunm).mono ?_
              (fun _ h => h) (fun _ h => h.elim)
            rintro r s₂ ⟨role₂, hres⟩
            have hstep₂ := hstep.trans hres.step
            cases r with
            | false =>
                refine hfail hstep₂ (fun b hbal hbt hbm => ?_) fun b hbal hbt => ?_
                · rw [hres.leaf b hbal hbm, if_neg (by simp), hview.leaf]
                · rw [hres.page b hbal hbt, if_neg (by simp), hview.page b hbal hbt, hz b hbal hbt]
            | true =>
                -- a page that could be mapped is below the trapframe
                have hat : a < trapframeVa := by
                  by_contra hge
                  have hv := htop a hal hle (Nat.not_lt.mp hge) ham
                  have := hres.fresh rfl
                  rw [hview.leaf, hv] at this
                  cases this
                simp only [if_true]
                refine (ih hstep₂.inv hstep₂.wf (by omega) (by omega)
                  (.inl (by unfold trapframeVa at *; omega)) ?_ ?_).mono ?_
                  (fun _ h => h) (fun _ h => h)
                · intro b hbal hbt
                  rw [hres.page b hbal hbt]
                  by_cases he : b = a
                  · subst he
                    rw [if_pos ⟨rfl, rfl⟩, if_pos ⟨hle, by omega⟩]
                    show some (perm, (Function.update s₁.mem f (Cell.fill 0) f).page) = _
                    rw [Function.update_self]
                    rfl
                  · rw [if_neg fun hc => he hc.1, hview.page b hbal hbt, hz b hbal hbt]
                    by_cases hin : oldsz ≤ b ∧ b < a
                    · rw [if_pos hin, if_pos ⟨hin.1, by omega⟩]
                    · rw [if_neg hin, if_neg (by omega)]
                · intro b hbal hbo hbt hbm
                  rw [hres.leaf b hbal hbm, if_neg (by rintro ⟨rfl, _⟩; omega), hview.leaf]
                  exact htop b hbal hbo hbt hbm
                · rintro r s₃ ⟨role₃, hstep₃, hsame₃, hr₃⟩
                  refine ⟨role₃, hstep₂.trans hstep₃, fun b hbal hbt hbm => ?_, ?_⟩
                  · rw [hsame₃ b hbal hbt hbm, hres.leaf b hbal hbm,
                      if_neg (by rintro ⟨rfl, _⟩; omega), hview.leaf]
                  · rw [show a + 4096 * (n + 1) = a + 4096 + 4096 * n by omega]
                    rcases hr₃ with ⟨h1, h2, h3⟩ | h0
                    · refine .inl ⟨h1, .inl ?_, h3⟩
                      unfold trapframeVa at *
                      omega
                    · exact .inr h0
          · -- beyond the last page there is nothing to map
            refine mapOrFree_beyond (Nat.not_lt.mp ham) fun _ => ?_
            have htf : trapframeVa < maxva := by decide
            show maxva ≤ oldsz
            omega

/-- **`uvmalloc`** of the six stack pages in an empty table. If the size
wraps around, the "stack" lies beyond `MAXVA`. -/
theorem uvmalloc_stack_spec {sz : Nat} {perm : Perm} (h : SysInv role s)
    (hw : PtWf role s.mem root) (hal : sz % 4096 = 0) (hlt : sz < 18446744073709551616)
    (hz : ZeroMapped s.mem root sz sz perm)
    (htop : ∀ b, b % 4096 = 0 → sz ≤ b → trapframeVa ≤ b → b < maxva →
      (leaf s.mem root b).v = true) :
    wp A (uvmalloc root sz (u64 (sz + 24576)) perm) ⟨fun r s' => ∃ role',
        PtStep root role role' s s' ∧ SameTop root s.mem s'.mem ∧
        ((r = sz + 24576 ∧ sz + 24576 ≤ trapframeVa ∧
            ZeroMapped s'.mem root sz (sz + 24576) perm) ∨
          (r = 0 ∧ ZeroMapped s'.mem root sz sz perm) ∨
          (r = sz ∧ maxva + 24576 < sz ∧ ZeroMapped s'.mem root sz sz perm)),
      fun _ => False, fun _ => maxva ≤ sz⟩ s := by
  unfold uvmalloc
  by_cases hwrap : sz + 24576 < 18446744073709551616
  · have hu : u64 (sz + 24576) = sz + 24576 := by unfold u64; omega
    have hround : pgroundup sz = sz := by unfold pgroundup u64; omega
    rw [hu, if_neg (by omega)]
    dsimp only
    rw [hround, show (sz + 24576 - sz + 4095) / 4096 = 6 by omega]
    have hz' : ZeroedIn (fun _ => none) s.mem root sz sz perm := hz
    refine (allocLoop_spec h hw hal hal (Nat.le_refl _) (.inr rfl) (fun _ _ _ _ => rfl) hz'
      htop).mono ?_ (fun _ h => h) (fun _ h => h)
    rintro r s' ⟨role', hstep, hsame, hr⟩
    refine ⟨role', hstep, hsame, ?_⟩
    rcases hr with ⟨h1, h2, h3⟩ | h0
    · exact .inl ⟨h1, by omega, h3⟩
    · exact .inr (.inl h0)
  · have hu : u64 (sz + 24576) < sz := by unfold u64; omega
    rw [if_pos hu, wp_pure]
    exact ⟨role, .refl h hw, fun _ _ _ _ => rfl, .inr (.inr ⟨rfl, by unfold maxva; omega, hz⟩)⟩

/-- **`uvmclear`** takes `PTE_U` away from one page. -/
theorem uvmclear_spec {va : Nat} (h : SysInv role s) (hw : PtWf role s.mem root)
    (hal : va % 4096 = 0) (hva : va < trapframeVa) :
    wp A (uvmclear root va) ⟨fun _ s' => PtStep root role role s s' ∧ SameTop root s.mem s'.mem ∧
        ∀ b, b % 4096 = 0 → b < trapframeVa → pageAt s'.mem root b
          = if b = va then (pageAt s.mem root va).map fun x => ({ x.1 with u := false }, x.2)
            else pageAt s.mem root b,
      fun _ => False, fun _ => (leaf s.mem root va).v = false⟩ s := by
  have hmax : va < maxva := Nat.lt_trans hva (by decide)
  unfold uvmclear
  simp only [wp_bind, wp_walk_noalloc hmax]
  cases hla : leafAddr s.mem root va with
  | none =>
      refine wp_panic.mpr ?_
      rw [leaf_of_none hla]
      rfl
  | some x =>
      obtain ⟨pt, i⟩ := x
      simp only [wp_bind, wp_readPte, wp_writePte]
      have hleaf := leaf_of_some hla
      rw [← hleaf]
      obtain ⟨s', hs', hstep, hl, -, hpage⟩ := reprotect_spec h hw hal hmax hla
        { (leaf s.mem root va).perm with u := false }
      rw [← hs']
      refine ⟨hstep, fun b hbal hbt hbm => ?_, fun b hbal hbt => ?_⟩
      · rw [hl b hbal hbm, if_neg (by rintro rfl; omega)]
      · rw [hpage b hbal hbt]
        split
        · cases hp : pageAt s.mem root va with
          | none => rfl
          | some x => rw [Option.map_some, Option.map_some, (pageAt_eq_some.mp hp).2.1]
        · rfl

theorem uvmclear_beyond {va : Nat} {Q : Post Sys Unit} (h : maxva ≤ va) (hQ : ∀ m, Q.panic m) :
    wp A (uvmclear root va) Q s := by
  unfold uvmclear
  rw [wp_bind]
  exact walk_beyond h (hQ _)

/-! ## Marking the segments -/

/-- Entries of `[a, a + 4096 n)` may have been replaced by invalid ones. -/
def Marked (m m' : Mem) (root : Frame) (n a : Nat) : Prop :=
  ∀ b, b % 4096 = 0 → b < maxva → leaf m' root b = leaf m root b ∨
    (a ≤ b ∧ b < a + 4096 * n ∧ (leaf m' root b).v = false)

theorem lazyLoop_spec {n a : Nat} {perm : Perm} (h : SysInv role s) (hw : PtWf role s.mem root)
    (hal : a % 4096 = 0) :
    wp A (lazyLoop root perm n a) ⟨fun r s' => ∃ role', PtStep root role role' s s' ∧
        Marked s.mem s'.mem root n a ∧ (r = true → n = 0 ∨ a + 4096 * n ≤ maxva),
      fun _ => False, fun _ => True⟩ s := by
  induction n generalizing a s role with
  | zero =>
      rw [lazyLoop, wp_pure]
      exact ⟨role, .refl h hw, fun b _ _ => .inl rfl, fun _ => .inl rfl⟩
  | succ n ih =>
      rw [lazyLoop, wp_bind]
      by_cases ham : a < maxva
      · refine (walk_alloc_spec h hw ham).mono ?_ (fun _ h => h) (fun _ h => h.elim)
        rintro r s₁ ⟨role₁, hg, hr⟩
        cases r with
        | none =>
            simp only [wp_pure]
            exact ⟨role₁, hg.toPtStep, fun b _ _ => .inl (hg.leaf b), fun hc => by cases hc⟩
        | some x =>
            obtain ⟨pt, i⟩ := x
            simp only [wp_bind, wp_writePte]
            obtain ⟨hstep, _, hl, _⟩ := writeLeaf_spec hg.inv hg.wf hal ham hr
              ⟨false, { perm with u := true }, 0⟩ (by intro hv; cases hv)
            refine (ih hstep.inv hstep.wf (by omega)).mono ?_ (fun _ h => h) (fun _ h => h)
            rintro r s₂ ⟨role₂, hstep₂, hm₂, hr₂⟩
            refine ⟨role₂, (hg.toPtStep.trans hstep).trans hstep₂, fun b hbal hbm => ?_,
              fun hrt => .inr ?_⟩
            · rcases hm₂ b hbal hbm with he | ⟨h1, h2, h3⟩
              · rw [he, hl b hbal hbm]
                by_cases hba : b = a
                · rw [if_pos hba]
                  exact .inr ⟨by omega, by omega, rfl⟩
                · rw [if_neg hba, hg.leaf]
                  exact .inl rfl
              · exact .inr ⟨by omega, by omega, h3⟩
            · rcases hr₂ hrt with h0 | hle
              · unfold maxva at *
                omega
              · omega
      · exact walk_beyond (Nat.not_lt.mp ham) trivial

/-- **`ulazymalloc`** of a page-aligned segment. A result other than 0
means that the whole segment lies below `MAXVA`, or is empty. -/
theorem ulazymalloc_spec {vaStart vaEnd : Nat} {perm : Perm} (h : SysInv role s)
    (hw : PtWf role s.mem root) (hal : vaStart % 4096 = 0) (hle : vaStart ≤ vaEnd)
    (hlt : vaEnd < 18446744073709551616) :
    wp A (ulazymalloc root vaStart vaEnd perm) ⟨fun r s' => ∃ role', PtStep root role role' s s' ∧
        (∀ b, b % 4096 = 0 → b < maxva → leaf s'.mem root b = leaf s.mem root b ∨
          (b < vaEnd ∧ (leaf s'.mem root b).v = false)) ∧
        (r ≠ 0 → vaEnd = vaStart ∨ vaEnd ≤ maxva),
      fun _ => False, fun _ => True⟩ s := by
  unfold ulazymalloc
  have hround : pgroundup vaStart = vaStart := by unfold pgroundup u64; omega
  rw [if_neg (by omega)]
  simp only [wp_bind, hround]
  refine (lazyLoop_spec h hw hal).mono ?_ (fun _ h => h) (fun _ h => h)
  rintro r s' ⟨role', hstep, hm, hr⟩
  have hmark : ∀ b, b % 4096 = 0 → b < maxva → leaf s'.mem root b = leaf s.mem root b ∨
      (b < vaEnd ∧ (leaf s'.mem root b).v = false) := by
    intro b hbal hbm
    rcases hm b hbal hbm with he | ⟨h1, h2, h3⟩
    · exact .inl he
    · exact .inr ⟨by omega, h3⟩
  cases r with
  | false =>
      simp only [Bool.false_eq_true, if_false, wp_pure]
      exact ⟨role', hstep, hmark, fun hc => absurd rfl hc⟩
  | true =>
      simp only [if_true, wp_pure]
      refine ⟨role', hstep, hmark, fun _ => ?_⟩
      rcases hr rfl with h0 | hle'
      · exact .inl (by omega)
      · exact .inr (by omega)

/-! ## Copying -/

/-- A step of one table is no step of another. -/
theorem PtStep.other {r : Frame} (h : PtStep root role role' s s') (hr : r ≠ root)
    (hw : PtWf role s.mem r) : PtWf role' s'.mem r ∧ SameView r s.mem s'.mem := by
  have hfor : ∀ f u, role f = .owned r u → (role f).foreign root = true := by
    intro f u hf
    rw [hf]
    simpa [Role.foreign] using hr
  have hm : ∀ f u, role f = .owned r u → s'.mem f = s.mem f :=
    fun f u hf => h.kept.mem_eq f (hfor f u hf)
  exact ⟨hw.agree (fun f u hf => by rw [h.kept.role_eq f (hfor f u hf), hf]) fun f u hf _ => hm f u hf,
    hw.sameView hm⟩

end

end OsSuite.Xv6
