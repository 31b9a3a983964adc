import OsSuite.Xv6.PageTableInv

/-!
# PageTableSpec — what the page-table code does

One specification per function of `vm.c`. The state of a page table is
its `leaf` map; ownership is carried by `PtStep`, which every operation
on the table at `root` satisfies: the owners are still right, and no
frame of anybody else has moved or changed.

A frame that is about to be mapped at `va` is already booked as the page
at `va` when `mappages` runs, so `mappages` itself moves no owner.
-/

namespace OsSuite.Xv6

/-- Busy, and not a table page of `root`. -/
def Role.apart (root : Frame) : Role → Bool
  | .free | .held => false
  | .owned _ (.page _) => true
  | .owned r _ => r != root
  | _ => true

/-- Busy, and not a last-level table of `root`. -/
def Role.fixed (root : Frame) : Role → Bool
  | .free | .held => false
  | .owned r (.low _ _) => r != root
  | _ => true

theorem Role.fixed_of_apart {root : Frame} {r : Role} (h : r.apart root = true) :
    r.fixed root = true := by
  cases r with
  | owned r u => cases u <;> simp_all [Role.fixed, Role.apart]
  | _ => simp_all [Role.fixed, Role.apart]

theorem Role.apart_of_foreign {root : Frame} {r : Role} (h : r.foreign root = true) :
    r.apart root = true := by
  cases r with
  | owned r u => cases u <;> simp_all [Role.foreign, Role.apart]
  | _ => simp_all [Role.foreign, Role.apart]

theorem Role.not_idle_of_apart {root : Frame} {r : Role} (h : r.apart root = true) :
    (!r.idle) = true := by
  cases r <;> simp_all [Role.apart, Role.idle]

section
variable {A : Event → Prop} {role role' role'' : Frame → Role} {s s' s'' : Sys} {root : Frame}

/-- **A step of the page table at `root`.** -/
structure PtStep (root : Frame) (role role' : Frame → Role) (s s' : Sys) : Prop where
  inv : SysInv role' s'
  wf : PtWf role' s'.mem root
  kept : Kept (Role.foreign root) role role' s.mem s'.mem
  conf : SameConf s s'

theorem PtStep.refl (h : SysInv role s) (hw : PtWf role s.mem root) :
    PtStep root role role s s :=
  ⟨h, hw, .refl _ _ _, .refl s⟩

theorem PtStep.trans (h : PtStep root role role' s s') (h' : PtStep root role' role'' s' s'') :
    PtStep root role role'' s s'' :=
  ⟨h'.inv, h'.wf, h.kept.trans h'.kept, h.conf.trans h'.conf⟩

/-- A step that adds table pages at most: every translation and every
page is as before. -/
structure GrowStep (root : Frame) (role role' : Frame → Role) (s s' : Sys) : Prop
    extends PtStep root role role' s s' where
  apart : Kept (Role.apart root) role role' s.mem s'.mem
  leaf : ∀ va, leaf s'.mem root va = leaf s.mem root va
  tables : ∀ va, (leafAddr s.mem root va).isSome → leafAddr s'.mem root va = leafAddr s.mem root va

theorem GrowStep.refl (h : SysInv role s) (hw : PtWf role s.mem root) :
    GrowStep root role role s s :=
  ⟨.refl h hw, .refl _ _ _, fun _ => rfl, fun _ _ => rfl⟩

theorem GrowStep.trans (h : GrowStep root role role' s s')
    (h' : GrowStep root role' role'' s' s'') : GrowStep root role role'' s s'' where
  toPtStep := h.toPtStep.trans h'.toPtStep
  apart := h.apart.trans h'.apart
  leaf va := (h'.leaf va).trans (h.leaf va)
  tables va hs := by
    have h1 := h.tables va hs
    rw [h'.tables va (by rw [h1]; exact hs), h1]

/-- What nobody but the allocator touched is still a page table. -/
theorem PtWf.kept {m m' : Mem} (h : PtWf role m root)
    (hk : Kept (fun r => !r.idle) role role' m m') :
    PtWf role' m' root ∧ (∀ va, leafAddr m' root va = leafAddr m root va) ∧
      ∀ va, Xv6.leaf m' root va = Xv6.leaf m root va := by
  have hm : ∀ f u, role f = .owned root u → m' f = m f := fun f u hf =>
    hk.mem_eq f (by rw [hf]; rfl)
  have hr : ∀ f u, role f = .owned root u → role' f = .owned root u := fun f u hf => by
    rw [hk.role_eq f (by rw [hf]; rfl), hf]
  exact ⟨h.agree hr fun f u hf _ => hm f u hf,
    h.leafAddr_agree fun f u hf _ => hm f u hf, h.leaf_agree fun f u hf _ => hm f u hf⟩

/-- The allocator's own movements are a step of every page table. -/
theorem GrowStep.of_kept (hw : PtWf role s.mem root) (h : SysInv role' s')
    (hc : SameConf s s') (hk : Kept (fun r => !r.idle) role role' s.mem s'.mem) :
    GrowStep root role role' s s' := by
  obtain ⟨hw', hla, hl⟩ := hw.kept hk
  exact ⟨⟨h, hw', hk.mono fun r hr => by simp [Role.not_idle_of_foreign hr], hc⟩,
    hk.mono fun r hr => Role.not_idle_of_apart hr, hl, fun va _ => hla va⟩

/-! ## Reading -/

@[simp] theorem wp_readPte {pt : Frame} {i : Nat} {Q : Post Sys Pte} :
    wp A (readPte pt i) Q s ↔ Q.ret ((s.mem pt).pte i) s := by
  simp [wp, readPte, Out.Sat]

@[simp] theorem wp_writePte {pt : Frame} {i : Nat} {e : Pte} {Q : Post Sys Unit} :
    wp A (writePte pt i e) Q s ↔ Q.ret () (s.setCell pt ((s.mem pt).setPte i e)) :=
  wp_modify

@[simp] theorem wp_zeroFrame {f : Frame} {Q : Post Sys Unit} :
    wp A (zeroFrame f) Q s ↔ Q.ret () (s.setCell f (Cell.fill 0)) :=
  wp_modify

/-- Without `alloc`, the software's walk is the hardware's. -/
theorem wp_walk_noalloc {va : Nat} {Q : Post Sys (Option (Frame × Nat))} (h : va < maxva) :
    wp A (walk root va false) Q s ↔ Q.ret (leafAddr s.mem root va) s := by
  unfold walk leafAddr
  rw [if_neg (Nat.not_le.mpr h)]
  simp only [walkFrom, wp_bind, wp_readPte, Bool.not_false, if_true, Nat.reduceAdd]
  by_cases h2 : ((s.mem root).pte (px 2 va)).v = true
  · simp only [h2, if_true, wp_bind, wp_readPte]
    by_cases h1 : ((s.mem ((s.mem root).pte (px 2 va)).pa).pte (px 1 va)).v = true
    · simp only [h1, if_true, wp_pure]
    · rw [if_neg h1, if_neg h1]
      exact wp_pure
  · rw [if_neg h2, if_neg h2]
    exact wp_pure

/-- The frame `walkaddr` finds. -/
def userPa (m : Mem) (root : Frame) (va : Nat) : Option Frame :=
  if va < maxva ∧ (leaf m root va).v = true ∧ (leaf m root va).perm.u = true
  then some (leaf m root va).pa else none

theorem wp_walkaddr {va : Nat} {Q : Post Sys (Option Frame)} :
    wp A (walkaddr root va) Q s ↔ Q.ret (userPa s.mem root va) s := by
  unfold walkaddr userPa
  by_cases h : maxva ≤ va
  · rw [if_pos h, if_neg (by omega)]
    exact wp_pure
  · rw [if_neg h]
    have hva : va < maxva := Nat.not_le.mp h
    simp only [wp_bind, wp_walk_noalloc hva, hva, true_and]
    cases ha : leafAddr s.mem root va with
    | none =>
        simp only [leaf_of_none ha, wp_pure]
        rfl
    | some x =>
        obtain ⟨pt, i⟩ := x
        simp only [leaf_of_some ha, wp_bind, wp_readPte]
        cases ((s.mem pt).pte i).v <;> cases ((s.mem pt).pte i).perm.u <;> simp

/-! ## Walking with allocation -/

/-- A new frame, booked as `r`, is linked into the table `pt`. -/
theorem GrowStep.link {s₁ : Sys} {role₁ : Frame → Role} {f pt : Frame} {i : Nat} {r : Role}
    {u : Use} (h₁ : SysInv role₁ s₁) (hc : SameConf s s₁)
    (hk : Kept (fun r => !r.idle) role role₁ s.mem s₁.mem) (hw : PtWf role s.mem root)
    (hidle : (role f).idle = true) (hf : role₁ f = .lost)
    (hpt : role pt = .owned root u) (hu : ∀ va, u ≠ .page va) (hr : r.idle = false)
    (hwf : PtWf (Function.update role₁ f r) (linkTable s₁.mem pt i f) root)
    (hleaf : ∀ va, Xv6.leaf (linkTable s₁.mem pt i f) root va = Xv6.leaf s₁.mem root va)
    (htab : ∀ va, (leafAddr s₁.mem root va).isSome →
      leafAddr (linkTable s₁.mem pt i f) root va = leafAddr s₁.mem root va) :
    ∃ t, t = (s₁.setCell f (Cell.fill 0)).setCell pt
        (((s₁.setCell f (Cell.fill 0)).mem pt).setPte i (Pte.table f)) ∧
      t.mem = linkTable s₁.mem pt i f ∧ GrowStep root role (Function.update role₁ f r) s t := by
  have hne : pt ≠ f := by
    rintro rfl
    rw [hpt] at hidle
    cases hidle
  have hmem : ((s₁.setCell f (Cell.fill 0)).setCell pt
      (((s₁.setCell f (Cell.fill 0)).mem pt).setPte i (Pte.table f))).mem
      = linkTable s₁.mem pt i f := by
    simp only [Sys.setCell, linkTable, Function.update_of_ne hne]
  obtain ⟨_, hla, hl⟩ := hw.kept hk
  have hmove : ∀ P : Role → Bool, (∀ r, P r = true → r.apart root = true) →
      Kept P role (Function.update role₁ f r) s.mem (linkTable s₁.mem pt i f) := by
    intro P hP
    have hg : ∀ g, P (role g) = true → g ≠ f ∧ g ≠ pt ∧ (!(role g).idle) = true := by
      intro g hg
      have ha := hP _ hg
      refine ⟨?_, ?_, Role.not_idle_of_apart ha⟩
      · rintro rfl
        have := Role.not_idle_of_apart ha
        simp [hidle] at this
      · rintro rfl
        rw [hpt] at ha
        cases u <;> simp_all [Role.apart]
    refine ⟨fun g hPg => ?_, fun g hPg => ?_⟩
    · obtain ⟨h1, _, h3⟩ := hg g hPg
      rw [Function.update_of_ne h1, hk.role_eq g h3]
    · obtain ⟨h1, h2, h3⟩ := hg g hPg
      rw [linkTable_other h2 h1, hk.mem_eq g h3]
  have hinv := (h₁.update (f := f) (r := r) (by rw [hf]; rfl) (by rw [hf]; simp) hr
    (Cell.fill 0)).setCell pt (((s₁.setCell f (Cell.fill 0)).mem pt).setPte i (Pte.table f))
  refine ⟨_, rfl, hmem, ⟨⟨hinv, ?_, ?_, ?_⟩, ?_, ?_, ?_⟩⟩
  · rw [hmem]; exact hwf
  · rw [hmem]; exact hmove _ fun r h => Role.apart_of_foreign h
  · exact hc.trans ((SameConf.setCell _ _ _).trans (SameConf.setCell _ _ _))
  · rw [hmem]; exact hmove _ fun r h => h
  · intro va; rw [hmem, hleaf, hl]
  · intro va hs; rw [hmem, htab va (by rw [hla]; exact hs), hla]

/-- The walk from the middle table. -/
theorem walkFrom_one_spec {va : Nat} (h : SysInv role s) (hw : PtWf role s.mem root)
    (hv : ((s.mem root).pte (px 2 va)).v = true) :
    wp A (walkFrom va true 1 ((s.mem root).pte (px 2 va)).pa) ⟨fun r s' => ∃ role',
        GrowStep root role role' s s' ∧
        (match r with
          | none => leafAddr s.mem root va = none
          | some x => leafAddr s'.mem root va = some x),
      fun _ => False, fun _ => False⟩ s := by
  simp only [walkFrom, wp_bind, wp_readPte, Nat.reduceAdd]
  by_cases hv1 : ((s.mem ((s.mem root).pte (px 2 va)).pa).pte (px 1 va)).v = true
  · rw [if_pos hv1]
    simp only [wp_pure]
    exact ⟨role, .refl h hw, by unfold leafAddr; rw [if_pos hv, if_pos hv1]⟩
  · rw [if_neg hv1]
    have hnone : leafAddr s.mem root va = none := by
      unfold leafAddr; rw [if_pos hv, if_neg hv1]
    simp only [Bool.not_true, Bool.false_eq_true, if_false, wp_bind]
    refine (kalloc_spec h).mono ?_ (fun _ h => h) (fun _ h => h)
    rintro r s₁ ⟨role₁, h₁, hc, hk, hr⟩
    cases r with
    | none =>
        simp only [wp_pure]
        exact ⟨role₁, .of_kept hw h₁ hc hk, hnone⟩
    | some f =>
        obtain ⟨hidle, hlost⟩ := hr
        obtain ⟨hw₁, hla, hl⟩ := hw.kept hk
        have hroot : s₁.mem root = s.mem root := hk.mem_eq _ (by rw [hw.top]; rfl)
        have hmid := (hw.mid _ (px_lt 2 va) hv).1
        have hg : s₁.mem ((s.mem root).pte (px 2 va)).pa = s.mem ((s.mem root).pte (px 2 va)).pa :=
          hk.mem_eq _ (by rw [hmid]; rfl)
        have hext := hw₁.extendLow (i := px 2 va) (j := px 1 va) (px_lt _ _) (px_lt _ _)
          (by rw [hroot]; exact hv) (by rw [hroot, hg]; simpa using hv1) hlost
        rw [hroot] at hext
        obtain ⟨hwf, hla', hl'⟩ := hext
        obtain ⟨t, ht, hmem, hgrow⟩ := GrowStep.link h₁ hc hk hw hidle hlost hmid (by simp) rfl
          hwf hl' (by
            intro a ha
            rw [hla']
            split
            · rename_i hpx
              have : leafAddr s₁.mem root a = none := by
                unfold leafAddr
                rw [hpx.1, hpx.2, hroot, hv, hg, if_pos rfl, if_neg hv1]
              rw [this] at ha
              cases ha
            · rfl)
        simp only [wp_bind, wp_zeroFrame, wp_writePte, wp_pure]
        rw [← ht]
        exact ⟨_, hgrow, by rw [hmem, hla', if_pos ⟨rfl, rfl⟩]⟩

/-- **`walk` with `alloc`.** It fails only where tables were missing. -/
theorem walk_alloc_spec {va : Nat} (h : SysInv role s) (hw : PtWf role s.mem root)
    (hva : va < maxva) :
    wp A (walk root va true) ⟨fun r s' => ∃ role', GrowStep root role role' s s' ∧
        (match r with
          | none => leafAddr s.mem root va = none
          | some x => leafAddr s'.mem root va = some x),
      fun _ => False, fun _ => False⟩ s := by
  unfold walk
  rw [if_neg (Nat.not_le.mpr hva), walkFrom]
  simp only [wp_bind, wp_readPte, Nat.reduceAdd]
  by_cases hv : ((s.mem root).pte (px 2 va)).v = true
  · rw [if_pos hv]
    exact walkFrom_one_spec h hw hv
  · rw [if_neg hv]
    have hnone : leafAddr s.mem root va = none := by unfold leafAddr; rw [if_neg hv]
    simp only [Bool.not_true, Bool.false_eq_true, if_false, wp_bind]
    refine (kalloc_spec h).mono ?_ (fun _ h => h) (fun _ h => h)
    rintro r s₁ ⟨role₁, h₁, hc, hk, hr⟩
    cases r with
    | none =>
        simp only [wp_pure]
        exact ⟨role₁, .of_kept hw h₁ hc hk, hnone⟩
    | some f =>
        obtain ⟨hidle, hlost⟩ := hr
        obtain ⟨hw₁, hla, hl⟩ := hw.kept hk
        have hroot : s₁.mem root = s.mem root := hk.mem_eq _ (by rw [hw.top]; rfl)
        obtain ⟨hwf, hla', hl'⟩ := hw₁.extendMid (i := px 2 va) (f := f)
          (px_two_lt hva) (by rw [hroot]; simpa using hv) hlost
        obtain ⟨t, ht, hmem, hgrow⟩ := GrowStep.link h₁ hc hk hw hidle hlost hw.top (by simp) rfl
          hwf hl' fun a _ => hla' a
        simp only [wp_bind, wp_zeroFrame, wp_writePte]
        rw [← ht]
        -- the rest of the walk starts at the new, empty table
        have hpte : (t.mem root).pte (px 2 va) = Pte.table f := by
          rw [hmem, linkTable_self, Cell.pte_setPte, if_pos rfl]
        have hv' : ((t.mem root).pte (px 2 va)).v = true := by rw [hpte]; rfl
        have hrest := walkFrom_one_spec (A := A) hgrow.inv hgrow.wf hv'
        rw [hpte] at hrest
        refine hrest.mono ?_ (fun _ h => h) (fun _ h => h)
        rintro r s₂ ⟨role₂, hgrow₂, hr⟩
        refine ⟨role₂, hgrow.trans hgrow₂, ?_⟩
        cases r with
        | none => exact hnone
        | some x => exact hr

/-! ## Writing an entry -/

/-- A valid entry written at `va` points to a frame booked for `va`. -/
def Booked (role : Frame → Role) (root : Frame) (va : Nat) (e : Pte) : Prop :=
  e.v = true → va < trapframeVa → role e.pa = .owned root (.page va)

theorem writeLeaf_spec {va : Nat} {pt : Frame} {i : Nat} (h : SysInv role s)
    (hw : PtWf role s.mem root) (hal : va % 4096 = 0) (hva : va < maxva)
    (ha : leafAddr s.mem root va = some (pt, i)) (e : Pte) (he : Booked role root va e) :
    PtStep root role role s (s.setCell pt ((s.mem pt).setPte i e)) ∧
      Kept (Role.fixed root) role role s.mem (s.setCell pt ((s.mem pt).setPte i e)).mem ∧
      (∀ a, a % 4096 = 0 → a < maxva →
        leaf (s.setCell pt ((s.mem pt).setPte i e)).mem root a
          = if a = va then e else leaf s.mem root a) ∧
      ∀ a, leafAddr (s.setCell pt ((s.mem pt).setPte i e)).mem root a = leafAddr s.mem root a := by
  have hpt := (hw.leafAddr_role ha).1
  have hkept : ∀ P : Role → Bool, (∀ r, P r = true → r.fixed root = true) →
      Kept P role role s.mem (Function.update s.mem pt ((s.mem pt).setPte i e)) := by
    intro P hP
    refine ⟨fun _ _ => rfl, fun f hf => Function.update_of_ne ?_ _ _⟩
    rintro rfl
    have := hP _ hf
    rw [hpt] at this
    simp [Role.fixed] at this
  exact ⟨⟨h.setCell _ _, hw.write hal hva ha e he,
      hkept _ fun r h => Role.fixed_of_apart (Role.apart_of_foreign h), .setCell _ _ _⟩,
    hkept _ fun r h => h, fun a hala haa => hw.leaf_write hal hva ha e hala haa,
    hw.leafAddr_write ha _⟩

/-- What `mappages` of one page leaves behind. -/
structure MapPost (root : Frame) (va : Nat) (e : Pte) (role role' : Frame → Role) (s s' : Sys)
    (r : Int) : Prop where
  step : PtStep root role role' s s'
  apart : Kept (Role.apart root) role role' s.mem s'.mem
  tables : ∀ a, (leafAddr s.mem root a).isSome → leafAddr s'.mem root a = leafAddr s.mem root a
  result : (r = 0 ∧ (leaf s.mem root va).v = false ∧ ∀ a, a % 4096 = 0 → a < maxva →
      leaf s'.mem root a = if a = va then e else leaf s.mem root a) ∨
    (r = -1 ∧ (∀ a, leaf s'.mem root a = leaf s.mem root a) ∧
      ((leaf s.mem root va).v = true ∨ leafAddr s.mem root va = none))

/-- **`mappages`** of one page. It fails if the page is already mapped or
if a table is missing and cannot be made. -/
theorem mappages_spec {va : Nat} {pa : Frame} {perm : Perm} (h : SysInv role s)
    (hw : PtWf role s.mem root) (hal : va % 4096 = 0) (hva : va < maxva)
    (hpa : Booked role root va ⟨true, perm, pa⟩) :
    wp A (mappages root va 4096 pa perm) ⟨fun r s' => ∃ role',
        MapPost root va ⟨true, perm, pa⟩ role role' s s' r,
      fun _ => False, fun _ => False⟩ s := by
  unfold mappages
  rw [if_neg (by omega), if_neg (by decide), if_neg (by decide)]
  simp only [Nat.reduceDiv, mapLoop, wp_bind]
  refine (walk_alloc_spec h hw hva).mono ?_ (fun _ h => h) (fun _ h => h)
  rintro r s₁ ⟨role₁, hg, hr⟩
  cases r with
  | none =>
      simp only [wp_pure]
      exact ⟨role₁, hg.toPtStep, hg.apart, hg.tables, .inr ⟨rfl, hg.leaf, .inr hr⟩⟩
  | some x =>
      obtain ⟨pt, i⟩ := x
      simp only [wp_bind, wp_readPte]
      have hleaf := leaf_of_some hr
      by_cases hv : ((s₁.mem pt).pte i).v = true
      · rw [if_pos hv, wp_pure]
        refine ⟨role₁, hg.toPtStep, hg.apart, hg.tables, .inr ⟨rfl, hg.leaf, .inl ?_⟩⟩
        rw [← hg.leaf, hleaf, hv]
      · rw [if_neg hv]
        simp only [wp_bind, wp_writePte, wp_pure]
        have hb : Booked role₁ root va ⟨true, perm, pa⟩ := by
          intro hv' hlt
          have hold := hpa hv' hlt
          rw [hg.apart.role_eq _ (by rw [hold]; rfl), hold]
        obtain ⟨hstep, hk, hl, hla⟩ := writeLeaf_spec hg.inv hg.wf hal hva hr _ hb
        refine ⟨role₁, hg.toPtStep.trans hstep,
          hg.apart.trans (hk.mono fun r h => Role.fixed_of_apart h), fun a hs => ?_,
          .inl ⟨rfl, ?_, fun a hala haa => ?_⟩⟩
        · rw [hla, hg.tables a hs]
        · rw [← hg.leaf, hleaf]
          simpa using hv
        · rw [hl a hala haa, hg.leaf]

/-! ## Unmapping -/

/-- The frames behind the valid entries of `n` pages from `a` on. -/
def mappedIn (m : Mem) (root : Frame) : Nat → Nat → List Frame
  | 0, _ => []
  | n + 1, a =>
      if (leaf m root a).v then (leaf m root a).pa :: mappedIn m root n (a + 4096)
      else mappedIn m root n (a + 4096)

theorem mappedIn_congr {m m' : Mem} : ∀ {n a : Nat},
    (∀ k, k < n → leaf m' root (a + 4096 * k) = leaf m root (a + 4096 * k)) →
    mappedIn m' root n a = mappedIn m root n a := by
  intro n
  induction n with
  | zero => intro a _; rfl
  | succ n ih =>
      intro a h
      have h0 := h 0 (by omega)
      have hrest := ih (a := a + 4096) fun k hk => by
        have := h (k + 1) (by omega)
        rw [show a + 4096 * (k + 1) = a + 4096 + 4096 * k by omega] at this
        exact this
      rw [Nat.mul_zero, Nat.add_zero] at h0
      rw [mappedIn, mappedIn, h0, hrest]

theorem mem_mappedIn {m : Mem} {f : Frame} : ∀ {n a : Nat},
    f ∈ mappedIn m root n a ↔
      ∃ k, k < n ∧ (leaf m root (a + 4096 * k)).v = true ∧ (leaf m root (a + 4096 * k)).pa = f := by
  intro n
  induction n with
  | zero => intro a; simp [mappedIn]
  | succ n ih =>
      intro a
      have hshift : ∀ k, a + 4096 + 4096 * k = a + 4096 * (k + 1) := fun k => by omega
      have hsplit : (∃ k, k < n + 1 ∧ (leaf m root (a + 4096 * k)).v = true ∧
            (leaf m root (a + 4096 * k)).pa = f) ↔
          ((leaf m root a).v = true ∧ (leaf m root a).pa = f) ∨
            f ∈ mappedIn m root n (a + 4096) := by
        rw [ih]
        simp only [hshift]
        constructor
        · rintro ⟨k, hk, hkv⟩
          cases k with
          | zero => exact .inl (by simpa using hkv)
          | succ k => exact .inr ⟨k, by omega, hkv⟩
        · rintro (h0 | ⟨k, hk, hkv⟩)
          · exact ⟨0, by omega, by simpa using h0⟩
          · exact ⟨k + 1, by omega, hkv⟩
      rw [hsplit, mappedIn]
      split
      · rename_i hv
        rw [List.mem_cons]
        simp only [hv, true_and]
        rw [eq_comm]
      · rename_i hv
        simp [hv]

theorem mappedIn_add (m : Mem) (root : Frame) (n k a : Nat) :
    mappedIn m root (n + k) a = mappedIn m root n a ++ mappedIn m root k (a + 4096 * n) := by
  induction n generalizing a with
  | zero => simp [mappedIn]
  | succ n ih =>
      rw [show n + 1 + k = n + k + 1 by omega, mappedIn, mappedIn, ih,
        show a + 4096 + 4096 * n = a + 4096 * (n + 1) by omega]
      split <;> rfl

theorem mappedIn_eq_nil {m : Mem} {n a : Nat}
    (h : ∀ k, k < n → (leaf m root (a + 4096 * k)).v = false) : mappedIn m root n a = [] := by
  rw [List.eq_nil_iff_forall_not_mem]
  intro f hf
  obtain ⟨k, hk, hv, _⟩ := mem_mappedIn.mp hf
  rw [h k hk] at hv
  cases hv

/-- **The frames `l` were put on the free list**, the last one first, and
no other frame with a role in `P` changed. -/
structure Freed (P : Role → Bool) (l : List Frame) (role role' : Frame → Role) (s s' : Sys) :
    Prop where
  role_eq : ∀ f, role' f = if f ∈ l then .free else role f
  freelist : s'.freelist = l.reverse ++ s.freelist
  held : s'.held = s.held
  script : s'.script = s.script
  mem_eq : ∀ f, f ∉ l → P (role f) = true → s'.mem f = s.mem f

section
variable {P : Role → Bool}

theorem Freed.nil (hf : s'.freelist = s.freelist) (hh : s'.held = s.held)
    (hs : s'.script = s.script) (hm : ∀ f, P (role f) = true → s'.mem f = s.mem f) :
    Freed P [] role role s s' :=
  ⟨fun f => by simp, by simpa using hf, hh, hs, fun f _ ha => hm f ha⟩

theorem Freed.trans {l l' : List Frame} (h : Freed P l role role' s s')
    (h' : Freed P l' role' role'' s' s'') : Freed P (l ++ l') role role'' s s'' where
  role_eq f := by
    rw [h'.role_eq, h.role_eq]
    by_cases h1 : f ∈ l <;> by_cases h2 : f ∈ l' <;> simp [h1, h2]
  freelist := by rw [h'.freelist, h.freelist, List.reverse_append, List.append_assoc]
  held := h'.held.trans h.held
  script := h'.script.trans h.script
  mem_eq f hf ha := by
    rw [List.mem_append, not_or] at hf
    rw [h'.mem_eq f hf.2, h.mem_eq f hf.1 ha]
    rw [h.role_eq, if_neg hf.1]
    exact ha

theorem Freed.mono {Q : Role → Bool} {l : List Frame} (h : Freed P l role role' s s')
    (hQ : ∀ r, Q r = true → P r = true) : Freed Q l role role' s s' :=
  ⟨h.role_eq, h.freelist, h.held, h.script, fun f hf ha => h.mem_eq f hf (hQ _ ha)⟩

end

/-- No user page of the table is the frame `f`. -/
def Unmapped (m : Mem) (root f : Frame) : Prop :=
  ∀ a, a % 4096 = 0 → a < trapframeVa → (leaf m root a).v = true → (leaf m root a).pa ≠ f

/-- A frame that no entry points to can be given away. -/
theorem PtWf.drop {m : Mem} {f : Frame} {va : Nat} (hw : PtWf role m root)
    (hf : role f = .owned root (.page va)) (hu : Unmapped m root f) (r : Role) (c : Cell) :
    PtWf (Function.update role f r) (Function.update m f c) root ∧
      (∀ a, leafAddr (Function.update m f c) root a = leafAddr m root a) ∧
      ∀ a, leaf (Function.update m f c) root a = leaf m root a := by
  have hne : ∀ g u, role g = .owned root u → (∀ va, u ≠ .page va) → g ≠ f := by
    rintro g u hg hgu rfl
    rw [hf] at hg
    simp only [Role.owned.injEq, true_and] at hg
    exact hgu va hg.symm
  have hm : ∀ g u, role g = .owned root u → (∀ va, u ≠ .page va) →
      Function.update m f c g = m g :=
    fun g u hg hgu => Function.update_of_ne (hne g u hg hgu) _ _
  have hl := hw.leaf_agree hm
  have h0 : Function.update m f c root = m root := hm root _ hw.top (by simp)
  refine ⟨⟨?_, fun i hi hv => hw.high i hi (by rwa [h0] at hv), fun i hi hv => ?_,
    fun i j hi hj hv hv' => ?_, fun a hal ha hv => ?_⟩, hw.leafAddr_agree hm, hl⟩
  · rw [Function.update_of_ne (hne root _ hw.top (by simp)), hw.top]
  · rw [h0] at hv ⊢
    have hmid := hw.mid i hi hv
    rw [Function.update_of_ne (hne _ _ hmid.1 (by simp))]
    exact hmid
  · rw [h0] at hv hv' ⊢
    have hmid := hw.mid i hi hv
    rw [hm _ _ hmid.1 (by simp)] at hv' ⊢
    have hlow := hw.low i j hi hj hv hv'
    rw [Function.update_of_ne (hne _ _ hlow.1 (by simp))]
    exact hlow
  · rw [hl] at hv ⊢
    rw [Function.update_of_ne (hu a hal ha hv)]
    exact hw.page a hal ha hv

/-- The state after `kfree(pa); *pte = 0`. -/
def Sys.unmapFree (s : Sys) (pt : Frame) (i : Nat) (pa : Frame) : Sys :=
  let s₁ := { s with freelist := pa :: s.freelist }.setCell pa (Cell.fill 1)
  s₁.setCell pt ((s₁.mem pt).setPte i Pte.zero)

theorem unmapFree_spec {a : Nat} {pt : Frame} {i : Nat} (h : SysInv role s)
    (hw : PtWf role s.mem root) (hal : a % 4096 = 0) (ha : a < trapframeVa)
    (hla : leafAddr s.mem root a = some (pt, i)) (hv : (leaf s.mem root a).v = true) :
    ∃ role', PtStep root role role' s (s.unmapFree pt i (leaf s.mem root a).pa) ∧
      Freed (Role.fixed root) [(leaf s.mem root a).pa] role role' s
        (s.unmapFree pt i (leaf s.mem root a).pa) ∧
      (∀ b, b % 4096 = 0 → b < maxva →
        leaf (s.unmapFree pt i (leaf s.mem root a).pa).mem root b
          = if b = a then Pte.zero else leaf s.mem root b) ∧
      ∀ b, leafAddr (s.unmapFree pt i (leaf s.mem root a).pa).mem root b
        = leafAddr s.mem root b := by
  have hpage := hw.page a hal ha hv
  have hmax : a < maxva := Nat.lt_trans ha (by decide)
  have hpt := (hw.leafAddr_role hla).1
  have hne : pt ≠ (leaf s.mem root a).pa := by
    intro he
    rw [he, hpage] at hpt
    simp at hpt
  -- clear the entry first: then the frame is unmapped and can be dropped
  obtain ⟨hstep, hk, hl, hla'⟩ := writeLeaf_spec h hw hal hmax hla Pte.zero (by intro hz; cases hz)
  have hunm : Unmapped (s.setCell pt ((s.mem pt).setPte i Pte.zero)).mem root
      (leaf s.mem root a).pa := by
    intro b hbal hb hbv heq
    have hbmax : b < maxva := Nat.lt_trans hb (by decide)
    rw [hl b hbal hbmax] at hbv heq
    split at hbv
    · cases hbv
    · rename_i hba
      rw [if_neg hba] at heq
      have := hw.page b hbal hb hbv
      rw [heq, hpage] at this
      simp only [Role.owned.injEq, Use.page.injEq, true_and] at this
      exact hba this.symm
  obtain ⟨hwf, hlad, hld⟩ := hstep.wf.drop hpage hunm .free (Cell.fill 1)
  have hmem : (s.unmapFree pt i (leaf s.mem root a).pa).mem
      = Function.update (s.setCell pt ((s.mem pt).setPte i Pte.zero)).mem (leaf s.mem root a).pa
        (Cell.fill 1) := by
    simp only [Sys.unmapFree, Sys.setCell, Function.update_of_ne hne]
    exact Function.update_comm hne.symm _ _ _
  have hinv := (h.push (f := (leaf s.mem root a).pa) (by rw [hpage]; rfl) (by rw [hpage]; simp)
    (Cell.fill 1)).setCell pt ((({ s with
      freelist := (leaf s.mem root a).pa :: s.freelist }.setCell (leaf s.mem root a).pa
        (Cell.fill 1)).mem pt).setPte i Pte.zero)
  have hother : ∀ f, f ≠ (leaf s.mem root a).pa → (role f).fixed root = true →
      (s.unmapFree pt i (leaf s.mem root a).pa).mem f = s.mem f := by
    intro f hf hap
    rw [hmem, Function.update_of_ne hf, hk.mem_eq f hap]
  refine ⟨Function.update role (leaf s.mem root a).pa .free, ⟨hinv, ?_, ⟨?_, ?_⟩, ?_⟩,
    ⟨?_, rfl, rfl, rfl, ?_⟩, ?_, ?_⟩
  · rw [hmem]; exact hwf
  · intro f hf
    rw [Function.update_of_ne]
    rintro rfl
    rw [hpage] at hf
    simp [Role.foreign] at hf
  · intro f hf
    refine hother f ?_ (Role.fixed_of_apart (Role.apart_of_foreign hf))
    rintro rfl
    rw [hpage] at hf
    simp [Role.foreign] at hf
  · exact ⟨rfl, rfl, rfl, rfl⟩
  · intro f
    rw [Function.update_apply]
    simp only [List.mem_singleton]
  · intro f hf hap
    exact hother f (by simpa using hf) hap
  · intro b hbal hb
    rw [hmem, hld, hl b hbal hb]
  · intro b
    rw [hmem, hlad, hla']

/-- What is left of the entries after an unmapping of `n` pages from `a`. -/
def unmapped (m : Mem) (root : Frame) (n a b : Nat) : Pte :=
  if a ≤ b ∧ b < a + 4096 * n ∧ (leaf m root b).v then Pte.zero else leaf m root b

/-- Apart from its first page, an unmapping is that of the other pages. -/
theorem unmapped_succ {m : Mem} {n a b : Nat} (hal : a % 4096 = 0) (hbal : b % 4096 = 0)
    (hne : b ≠ a) : unmapped m root n (a + 4096) b = unmapped m root (n + 1) a b := by
  have h1 : a + 4096 ≤ b ↔ a ≤ b := by omega
  have h2 : b < a + 4096 + 4096 * n ↔ b < a + 4096 * (n + 1) := by omega
  simp only [unmapped, h1, h2]

/-- **`uvmunmap` with `do_free`.** -/
theorem unmapLoop_free_spec {n a : Nat} (h : SysInv role s) (hw : PtWf role s.mem root)
    (hal : a % 4096 = 0) (hmax : a + 4096 * n ≤ maxva)
    (hlow : ∀ k, k < n → (leaf s.mem root (a + 4096 * k)).v = true →
      a + 4096 * k < trapframeVa) :
    wp A (unmapLoop root true n a) ⟨fun _ s' => ∃ role', PtStep root role role' s s' ∧
        Freed (Role.fixed root) (mappedIn s.mem root n a) role role' s s' ∧
        (∀ b, b % 4096 = 0 → b < maxva → leaf s'.mem root b = unmapped s.mem root n a b) ∧
        ∀ b, leafAddr s'.mem root b = leafAddr s.mem root b,
      fun _ => False, fun _ => False⟩ s := by
  induction n generalizing a s role with
  | zero =>
      rw [unmapLoop, wp_pure]
      refine ⟨role, .refl h hw, .nil rfl rfl rfl fun _ _ => rfl, fun b _ _ => ?_, fun _ => rfl⟩
      rw [unmapped, if_neg (by omega)]
  | succ n ih =>
      have ha : a < maxva := by omega
      simp only [unmapLoop, wp_bind, wp_walk_noalloc ha]
      have hshift : ∀ k, a + 4096 + 4096 * k = a + 4096 * (k + 1) := fun k => by omega
      -- a page without a valid entry is passed over
      have hskip : (leaf s.mem root a).v = false →
          wp A (unmapLoop root true n (a + 4096)) ⟨fun _ s' => ∃ role',
            PtStep root role role' s s' ∧
            Freed (Role.fixed root) (mappedIn s.mem root (n + 1) a) role role' s s' ∧
            (∀ b, b % 4096 = 0 → b < maxva →
              leaf s'.mem root b = unmapped s.mem root (n + 1) a b) ∧
            ∀ b, leafAddr s'.mem root b = leafAddr s.mem root b,
          fun _ => False, fun _ => False⟩ s := by
        intro hv
        refine (ih (a := a + 4096) h hw (by omega) (by omega) fun k hk hkv => ?_).mono ?_
          (fun _ h => h) (fun _ h => h)
        · rw [hshift] at hkv ⊢
          exact hlow (k + 1) (by omega) hkv
        · rintro _ s' ⟨role', hstep, hfreed, hl, hla⟩
          refine ⟨role', hstep, ?_, fun b hbal hb => ?_, hla⟩
          · rw [mappedIn, if_neg (by simp [hv])]
            exact hfreed
          · rw [hl b hbal hb]
            by_cases hba : b = a
            · subst hba
              simp [unmapped, hv]
            · exact unmapped_succ hal hbal hba
      cases hla : leafAddr s.mem root a with
      | none =>
          dsimp only
          exact hskip (by rw [leaf_of_none hla]; rfl)
      | some x =>
          obtain ⟨pt, i⟩ := x
          have hleaf := leaf_of_some hla
          simp only [wp_bind, wp_readPte]
          by_cases hv : ((s.mem pt).pte i).v = true
          · have hva : (leaf s.mem root a).v = true := by rw [hleaf]; exact hv
            have hat : a < trapframeVa := by simpa using hlow 0 (by omega) (by simpa using hva)
            have hpage := hw.page a hal hat hva
            simp only [hv, Bool.not_true, Bool.false_eq_true, if_false, if_true, wp_bind,
              wp_writePte]
            refine kfree_spec h (by rw [← hleaf, hpage]; rfl) (by rw [← hleaf, hpage]; simp) ?_
            intro _
            obtain ⟨role₁, hstep₁, hfreed₁, hl₁, hla₁⟩ := unmapFree_spec h hw hal hat hla hva
            rw [hleaf] at hstep₁ hfreed₁ hl₁ hla₁
            show wp A _ _ (s.unmapFree pt i ((s.mem pt).pte i).pa)
            have hsame : ∀ b, b % 4096 = 0 → b < maxva → b ≠ a →
                leaf (s.unmapFree pt i ((s.mem pt).pte i).pa).mem root b = leaf s.mem root b :=
              fun b hbal hb hne => by rw [hl₁ b hbal hb, if_neg hne]
            refine (ih (a := a + 4096) hstep₁.inv hstep₁.wf (by omega) (by omega)
              fun k hk hkv => ?_).mono ?_ (fun _ h => h) (fun _ h => h)
            · rw [hsame _ (by omega) (by omega) (by omega), hshift] at hkv
              rw [hshift]
              exact hlow (k + 1) (by omega) hkv
            · rintro _ s' ⟨role', hstep, hfreed, hl, hla'⟩
              refine ⟨role', hstep₁.trans hstep, ?_, fun b hbal hb => ?_, fun b => ?_⟩
              · rw [mappedIn, if_pos hva, hleaf]
                have hrest := hfreed₁.trans hfreed
                rwa [mappedIn_congr fun k hk => hsame _ (by omega) (by omega) (by omega)] at hrest
              · rw [hl b hbal hb]
                by_cases hba : b = a
                · subst hba
                  rw [unmapped, unmapped, if_neg (by omega), hl₁ b hbal hb, if_pos rfl,
                    if_pos ⟨Nat.le_refl b, by omega, hva⟩]
                · rw [← unmapped_succ hal hbal hba, unmapped, unmapped, hsame b hbal hb hba]
              · rw [hla', hla₁]
          · have hvf : ((s.mem pt).pte i).v = false := by simpa using hv
            simp only [hvf, Bool.not_false, if_true]
            exact hskip (by rw [hleaf]; exact hvf)

theorem uvmunmap_free_spec {n a : Nat} (h : SysInv role s) (hw : PtWf role s.mem root)
    (hal : a % 4096 = 0) (hmax : a + 4096 * n ≤ maxva)
    (hlow : ∀ k, k < n → (leaf s.mem root (a + 4096 * k)).v = true →
      a + 4096 * k < trapframeVa) :
    wp A (uvmunmap root a n true) ⟨fun _ s' => ∃ role', PtStep root role role' s s' ∧
        Freed (Role.fixed root) (mappedIn s.mem root n a) role role' s s' ∧
        (∀ b, b % 4096 = 0 → b < maxva → leaf s'.mem root b = unmapped s.mem root n a b) ∧
        ∀ b, leafAddr s'.mem root b = leafAddr s.mem root b,
      fun _ => False, fun _ => False⟩ s := by
  unfold uvmunmap
  rw [if_neg (by omega)]
  exact unmapLoop_free_spec h hw hal hmax hlow

/-- `uvmunmap` of one page without `do_free`. -/
theorem uvmunmap_keep_spec {a : Nat} (h : SysInv role s) (hw : PtWf role s.mem root)
    (hal : a % 4096 = 0) (ha : a < maxva) :
    wp A (uvmunmap root a 1 false) ⟨fun _ s' => PtStep root role role s s' ∧
        Freed (Role.fixed root) [] role role s s' ∧
        (∀ b, b % 4096 = 0 → b < maxva → leaf s'.mem root b = unmapped s.mem root 1 a b) ∧
        ∀ b, leafAddr s'.mem root b = leafAddr s.mem root b,
      fun _ => False, fun _ => False⟩ s := by
  unfold uvmunmap
  rw [if_neg (by omega)]
  simp only [unmapLoop, wp_bind, wp_walk_noalloc ha]
  have hskip : (leaf s.mem root a).v = false →
      PtStep root role role s s ∧ Freed (Role.fixed root) [] role role s s ∧
        (∀ b, b % 4096 = 0 → b < maxva → leaf s.mem root b = unmapped s.mem root 1 a b) ∧
        ∀ b, leafAddr s.mem root b = leafAddr s.mem root b := by
    intro hv
    refine ⟨.refl h hw, .nil rfl rfl rfl fun _ _ => rfl, fun b hbal hb => ?_, fun _ => rfl⟩
    rw [unmapped]
    split
    · rename_i hc
      have : b = a := by omega
      rw [this, hv] at hc
      exact absurd hc.2.2 (by simp)
    · rfl
  cases hla : leafAddr s.mem root a with
  | none =>
      dsimp only
      rw [wp_pure]
      exact hskip (by rw [leaf_of_none hla]; rfl)
  | some x =>
      obtain ⟨pt, i⟩ := x
      have hleaf := leaf_of_some hla
      simp only [wp_bind, wp_readPte]
      cases hv : ((s.mem pt).pte i).v with
      | false =>
          simp only [Bool.not_false, if_true]
          rw [wp_pure]
          exact hskip (by rw [hleaf]; exact hv)
      | true =>
          simp only [Bool.not_true, Bool.false_eq_true, if_false, wp_bind, wp_writePte, wp_pure]
          obtain ⟨hstep, hk, hl, hla'⟩ :=
            writeLeaf_spec h hw hal ha hla Pte.zero (by intro hz; cases hz)
          refine ⟨hstep, .nil rfl rfl rfl hk.mem_eq, fun b hbal hb => ?_, hla'⟩
          rw [hl b hbal hb, unmapped]
          by_cases hba : b = a
          · subst hba
            rw [if_pos rfl, if_pos ⟨Nat.le_refl b, by omega, by rw [hleaf]; exact hv⟩]
          · rw [if_neg hba, if_neg]
            rintro ⟨h1, h2, _⟩
            exact hba (by omega)

/-- Beyond `MAXVA` there is no way back from `uvmunmap`. -/
theorem unmapLoop_beyond {n a : Nat} {doFree : Bool} (hal : a % 4096 = 0) (ha : a ≤ maxva)
    (hmax : maxva < a + 4096 * n) :
    wp A (unmapLoop root doFree n a) ⟨fun _ _ => False, fun _ => False, fun _ => True⟩ s := by
  induction n generalizing a s with
  | zero => omega
  | succ n ih =>
      rw [unmapLoop, wp_bind]
      rcases Nat.lt_or_eq_of_le ha with hlt | rfl
      · have hrest : ∀ s, wp A (unmapLoop root doFree n (a + 4096))
            ⟨fun _ _ => False, fun _ => False, fun _ => True⟩ s := fun s =>
          ih (by omega) (by unfold maxva at *; omega) (by omega)
        rw [wp_walk_noalloc hlt]
        cases leafAddr s.mem root a with
        | none => exact hrest s
        | some x =>
            simp only [wp_bind, wp_readPte]
            split
            · exact hrest s
            · cases doFree with
              | false =>
                  simp only [Bool.false_eq_true, if_false, wp_bind, wp_writePte]
                  exact hrest _
              | true =>
                  simp only [if_true, wp_bind, wp_writePte]
                  exact kfree_any (fun s' => hrest _) fun _ => trivial
      · unfold walk
        rw [if_pos (Nat.le_refl _)]
        exact wp_panic.mpr trivial

/-! ## The same in terms of pages -/

theorem PtWf.pageAt_apart {m m' : Mem} (hw : PtWf role m root)
    (hk : Kept (Role.apart root) role role' m m') {b : Nat} (hal : b % 4096 = 0)
    (hb : b < trapframeVa) (hl : leaf m' root b = leaf m root b) :
    pageAt m' root b = pageAt m root b := by
  unfold pageAt
  rw [hl]
  split
  · rename_i hv
    rw [hk.mem_eq _ (by rw [hw.page b hal hb hv]; rfl)]
  · rfl

/-- A successful `mappages` adds one page. -/
theorem MapPost.pageAt {va : Nat} {pa : Frame} {perm : Perm}
    (h : MapPost root va ⟨true, perm, pa⟩ role role' s s' 0) (hw : PtWf role s.mem root)
    (hpa : (role pa).apart root = true) {b : Nat} (hal : b % 4096 = 0) (hb : b < trapframeVa) :
    Xv6.pageAt s'.mem root b
      = if b = va then some (perm, (s.mem pa).page) else Xv6.pageAt s.mem root b := by
  have hmax : b < maxva := Nat.lt_trans hb (by decide)
  rcases h.result with ⟨_, _, hl⟩ | ⟨h0, _⟩
  · split
    · rename_i he
      have := hl b hal hmax
      rw [if_pos he] at this
      unfold Xv6.pageAt
      rw [this, h.apart.mem_eq _ hpa]
      rfl
    · rename_i he
      exact hw.pageAt_apart h.apart hal hb (by rw [hl b hal hmax, if_neg he])
  · cases h0

/-- An unmapping removes the pages in its range. -/
theorem PtWf.pageAt_unmapped {n a : Nat} (hw : PtWf role s.mem root) (hal : a % 4096 = 0)
    (hf : Freed (Role.fixed root) (mappedIn s.mem root n a) role role' s s')
    (hmax : a + 4096 * n ≤ trapframeVa)
    (hl : ∀ b, b % 4096 = 0 → b < maxva → leaf s'.mem root b = unmapped s.mem root n a b)
    {b : Nat} (hbal : b % 4096 = 0) (hb : b < trapframeVa) :
    pageAt s'.mem root b
      = if a ≤ b ∧ b < a + 4096 * n then none else pageAt s.mem root b := by
  have hbmax : b < maxva := Nat.lt_trans hb (by decide)
  have hlb := hl b hbal hbmax
  unfold unmapped at hlb
  unfold pageAt
  by_cases hv : (leaf s.mem root b).v = true
  · by_cases hin : a ≤ b ∧ b < a + 4096 * n
    · rw [if_pos ⟨hin.1, hin.2, hv⟩] at hlb
      rw [hlb, if_pos hin]
      rfl
    · rw [if_neg fun hc => hin ⟨hc.1, hc.2.1⟩] at hlb
      rw [hlb, if_neg hin, hf.mem_eq _ ?_ (by rw [hw.page b hbal hb hv]; rfl)]
      intro hm
      obtain ⟨k, hk, hkv, hkp⟩ := mem_mappedIn.mp hm
      have h1 := hw.page _ (by omega) (by omega) hkv
      rw [hkp, hw.page b hbal hb hv] at h1
      simp only [Role.owned.injEq, Use.page.injEq, true_and] at h1
      exact hin ⟨by omega, by omega⟩
  · rw [if_neg fun hc => hv hc.2.2] at hlb
    rw [hlb, if_neg hv]
    split <;> rfl

/-! ## A new frame, on its way into the table -/

/-- **Other permissions for one page**: its contents and all other pages
are as before. -/
theorem reprotect_spec {va : Nat} {pt : Frame} {i : Nat} (h : SysInv role s)
    (hw : PtWf role s.mem root) (hal : va % 4096 = 0) (hva : va < maxva)
    (ha : leafAddr s.mem root va = some (pt, i)) (perm : Perm) :
    ∃ s', s' = s.setCell pt ((s.mem pt).setPte i { leaf s.mem root va with perm := perm }) ∧
      PtStep root role role s s' ∧
      (∀ b, b % 4096 = 0 → b < maxva → leaf s'.mem root b
        = if b = va then { leaf s.mem root va with perm := perm } else leaf s.mem root b) ∧
      (∀ b, leafAddr s'.mem root b = leafAddr s.mem root b) ∧
      ∀ b, b % 4096 = 0 → b < trapframeVa → pageAt s'.mem root b
        = if b = va then (pageAt s.mem root va).map fun x => (perm, x.2)
          else pageAt s.mem root b := by
  obtain ⟨hstep, hk, hl, hla⟩ := writeLeaf_spec h hw hal hva ha
    { leaf s.mem root va with perm := perm } fun hv hlt => hw.page va hal hlt hv
  refine ⟨_, rfl, hstep, hl, hla, fun b hbal hbt => ?_⟩
  have hbm : b < maxva := Nat.lt_trans hbt (by decide)
  by_cases he : b = va
  · subst he
    rw [if_pos rfl]
    unfold pageAt
    rw [hl b hbal hbm, if_pos rfl]
    by_cases hv : (leaf s.mem root b).v = true
    · rw [if_pos hv, if_pos hv, hk.mem_eq _ (by rw [hw.page b hbal hbt hv]; rfl)]
      rfl
    · rw [if_neg hv, if_neg hv]
      rfl
  · rw [if_neg he]
    exact hw.pageAt_apart (hk.mono fun r h => Role.fixed_of_apart h) hbal hbt
      (by rw [hl b hbal hbm, if_neg he])

/-- The view of a page table: entries and pages. -/
structure SameView (root : Frame) (m m' : Mem) : Prop where
  leaf : ∀ a, leaf m' root a = leaf m root a
  addr : ∀ a, leafAddr m' root a = leafAddr m root a
  page : ∀ a, a % 4096 = 0 → a < trapframeVa → pageAt m' root a = pageAt m root a

/-- What the table owns is untouched, so its view is the same. -/
theorem PtWf.sameView {m m' : Mem} (hw : PtWf role m root)
    (hm : ∀ f u, role f = .owned root u → m' f = m f) : SameView root m m' :=
  ⟨hw.leaf_agree fun f u hf _ => hm f u hf, hw.leafAddr_agree fun f u hf _ => hm f u hf,
    fun _ hal ha => hw.pageAt_agree hm hal ha⟩

/-- **Booking**: a frame fresh from `kalloc` is filled and booked as the
page at `va`. -/
theorem PtStep.book {s₁ : Sys} {role₁ : Frame → Role} {f : Frame} (h₁ : SysInv role₁ s₁)
    (hc : SameConf s s₁) (hk : Kept (fun r => !r.idle) role role₁ s.mem s₁.mem)
    (hw : PtWf role s.mem root) (hidle : (role f).idle = true) (hf : role₁ f = .lost) (va : Nat)
    (c : Cell) :
    PtStep root role (Function.update role₁ f (.owned root (.page va))) s (s₁.setCell f c) ∧
      Unmapped (s₁.setCell f c).mem root f ∧ SameView root s.mem (s₁.setCell f c).mem := by
  have hne : ∀ g, (role g).idle = false → g ≠ f := by
    rintro g hg rfl
    rw [hg] at hidle
    cases hidle
  have hrole : ∀ g, (role g).idle = false →
      Function.update role₁ f (.owned root (.page va)) g = role g := fun g hg => by
    rw [Function.update_of_ne (hne g hg), hk.role_eq g (by simp [hg])]
  have hmem : ∀ g, (role g).idle = false → (s₁.setCell f c).mem g = s.mem g := fun g hg => by
    show Function.update s₁.mem f c g = _
    rw [Function.update_of_ne (hne g hg), hk.mem_eq g (by simp [hg])]
  have hown : ∀ g u, role g = .owned root u → (s₁.setCell f c).mem g = s.mem g :=
    fun g u hg => hmem g (by rw [hg]; rfl)
  have hview := hw.sameView hown
  refine ⟨⟨h₁.update (by rw [hf]; rfl) (by rw [hf]; simp) rfl c, ?_, ⟨?_, ?_⟩, ?_⟩, ?_, hview⟩
  · exact hw.agree (fun g u hg => by rw [hrole g (by rw [hg]; rfl), hg]) fun g u hg _ => hown g u hg
  · exact fun g hg => hrole g (Role.not_idle_of_foreign hg)
  · exact fun g hg => hmem g (Role.not_idle_of_foreign hg)
  · exact hc.trans (.setCell _ _ _)
  · intro a hal ha hv
    rw [hview.leaf] at hv ⊢
    exact hne _ (by rw [hw.page a hal ha hv]; rfl)

/-- A booked frame that was not mapped is given back. -/
theorem kfree_booked_spec {f : Frame} {va : Nat} (h : SysInv role s) (hw : PtWf role s.mem root)
    (hf : role f = .owned root (.page va)) (hu : Unmapped s.mem root f) :
    wp A (kfree f) ⟨fun _ s' => ∃ role', PtStep root role role' s s' ∧ SameView root s.mem s'.mem ∧
        s'.freelist = f :: s.freelist,
      fun _ => False, fun _ => False⟩ s := by
  refine kfree_spec h (by rw [hf]; rfl) (by rw [hf]; simp) fun hinv => ?_
  obtain ⟨hwf, hla, hl⟩ := hw.drop hf hu .free (Cell.fill 1)
  have hother : ∀ g, (role g).foreign root = true → g ≠ f := by
    rintro g hg rfl
    rw [hf] at hg
    simp [Role.foreign] at hg
  refine ⟨_, ⟨hinv, hwf, ⟨fun g hg => Function.update_of_ne (hother g hg) _ _,
    fun g hg => Function.update_of_ne (hother g hg) _ _⟩, ⟨rfl, rfl, rfl, rfl⟩⟩,
    ⟨hl, hla, fun a hal ha => ?_⟩, rfl⟩
  show pageAt (Function.update s.mem f (Cell.fill 1)) root a = _
  unfold pageAt
  rw [hl]
  split
  · rename_i hv
    rw [Function.update_of_ne (hu a hal ha hv)]
  · rfl

/-- What `mapOrFree` of a booked frame leaves behind. -/
structure MapResult (root : Frame) (va : Nat) (f : Frame) (perm : Perm)
    (role role' : Frame → Role) (s s' : Sys) (r : Bool) : Prop where
  step : PtStep root role role' s s'
  tables : ∀ a, (leafAddr s.mem root a).isSome → leafAddr s'.mem root a = leafAddr s.mem root a
  leaf : ∀ a, a % 4096 = 0 → a < maxva → leaf s'.mem root a
    = if a = va ∧ r = true then ⟨true, perm, f⟩ else leaf s.mem root a
  page : ∀ a, a % 4096 = 0 → a < trapframeVa → pageAt s'.mem root a
    = if a = va ∧ r = true then some (perm, (s.mem f).page) else pageAt s.mem root a
  fresh : r = true → (Xv6.leaf s.mem root va).v = false
  failed : r = false → (Xv6.leaf s.mem root va).v = true ∨ leafAddr s.mem root va = none

theorem mapOrFree_spec {va : Nat} {f : Frame} {perm : Perm} (h : SysInv role s)
    (hw : PtWf role s.mem root) (hal : va % 4096 = 0) (hva : va < maxva)
    (hf : role f = .owned root (.page va)) (hu : Unmapped s.mem root f) :
    wp A (mapOrFree root va f perm) ⟨fun r s' => ∃ role',
        MapResult root va f perm role role' s s' r,
      fun _ => False, fun _ => False⟩ s := by
  unfold mapOrFree
  simp only [wp_bind]
  have hap : (role f).apart root = true := by rw [hf]; rfl
  refine (mappages_spec h hw hal hva fun _ _ => hf).mono ?_ (fun _ h => h) (fun _ h => h)
  rintro r s₁ ⟨role₁, hpost⟩
  rcases hpost.result with ⟨rfl, hfresh, hl⟩ | ⟨rfl, hl, hwhy⟩
  · simp only [ne_eq, not_true, if_false, wp_pure]
    refine ⟨role₁, hpost.step, hpost.tables, ?_, ?_, fun _ => hfresh, (fun hc => by cases hc)⟩
    · intro a hala ha
      rw [hl a hala ha]
      simp
    · intro a hala ha
      rw [hpost.pageAt hw hap hala ha]
      simp
  · dsimp only
    rw [if_pos (show (-1 : Int) ≠ 0 by decide)]
    simp only [wp_bind, wp_pure]
    have hf₁ : role₁ f = .owned root (.page va) := by rw [hpost.apart.role_eq f hap, hf]
    have hu₁ : Unmapped s₁.mem root f := by
      intro a hala ha hv
      rw [hl] at hv ⊢
      exact hu a hala ha hv
    refine (kfree_booked_spec hpost.step.inv hpost.step.wf hf₁ hu₁).mono ?_ (fun _ h => h)
      (fun _ h => h)
    rintro _ s₂ ⟨role₂, hstep, hview, _⟩
    refine ⟨role₂, hpost.step.trans hstep, ?_, ?_, ?_, (fun hc => by cases hc), fun _ => hwhy⟩
    · intro a hs
      rw [hview.addr, hpost.tables a hs]
    · intro a _ _
      rw [hview.leaf, hl]
      simp
    · intro a hala ha
      rw [hview.page a hala ha, hw.pageAt_apart hpost.apart hala ha (hl a)]
      simp

theorem walk_beyond {va : Nat} {alloc : Bool} {Q : Post Sys (Option (Frame × Nat))}
    (h : maxva ≤ va) (hQ : Q.panic "walk") : wp A (walk root va alloc) Q s := by
  unfold walk
  rw [if_pos h]
  exact wp_panic.mpr hQ

/-- Beyond `MAXVA` nothing is mapped. -/
theorem mapOrFree_beyond {va : Nat} {f : Frame} {perm : Perm} {Q : Post Sys Bool}
    (h : maxva ≤ va) (hQ : ∀ m, Q.panic m) : wp A (mapOrFree root va f perm) Q s := by
  unfold mapOrFree mappages
  rw [wp_bind]
  split
  · exact wp_panic.mpr (hQ _)
  · rw [if_neg (by decide), if_neg (by decide)]
    simp only [Nat.reduceDiv, mapLoop, wp_bind]
    exact walk_beyond h (hQ _)

end

end OsSuite.Xv6
