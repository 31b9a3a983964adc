import OsSuite.Xv6.PageTree

/-!
# PageTableInv — the three-level table as a map of pages

`leaf m root va` is the entry a translation of `va` ends at (the zero
entry, where tables are missing) and `pageAt m root va` the page behind
a valid one. `PtWf role m root` ties the tables under `root` to their
owners: a table page is reached along one path only, and a user page is
mapped at one address only.

Each operation then has one specification: what it does to `leaf` and
`pageAt`, and `PtStep`, which says that ownership is still right and
that nothing outside this page table was touched.
-/

namespace OsSuite.Xv6

/-- The permissions and contents of the page mapped at `va`. -/
def pageAt (m : Mem) (root : Frame) (va : Nat) : Option (Perm × Page) :=
  if (leaf m root va).v then some ((leaf m root va).perm, (m (leaf m root va).pa).page) else none

/-- **Well-formed page table**: every table page and every user page has
the owner its position asks for. -/
structure PtWf (role : Frame → Role) (m : Mem) (root : Frame) : Prop where
  top : role root = .owned root .top
  high : ∀ i, i < 512 → ((m root).pte i).v = true → i < 256
  mid : ∀ i, i < 512 → ((m root).pte i).v = true →
    role ((m root).pte i).pa = .owned root (.mid i) ∧ ((m root).pte i).perm = Perm.none
  low : ∀ i j, i < 512 → j < 512 → ((m root).pte i).v = true →
    ((m ((m root).pte i).pa).pte j).v = true →
    role ((m ((m root).pte i).pa).pte j).pa = .owned root (.low i j) ∧
      ((m ((m root).pte i).pa).pte j).perm = Perm.none
  page : ∀ va, va % 4096 = 0 → va < trapframeVa → (leaf m root va).v = true →
    role (leaf m root va).pa = .owned root (.page va)

theorem leaf_of_some {m : Mem} {root pt : Frame} {va i : Nat}
    (h : leafAddr m root va = some (pt, i)) : leaf m root va = (m pt).pte i := by
  simp only [leaf, h]

theorem leaf_of_none {m : Mem} {root : Frame} {va : Nat}
    (h : leafAddr m root va = none) : leaf m root va = Pte.zero := by
  simp only [leaf, h]

theorem leafAddr_of_valid {m : Mem} {root : Frame} {va : Nat}
    (h : (leaf m root va).v = true) : (leafAddr m root va).isSome := by
  cases ha : leafAddr m root va with
  | none => rw [leaf_of_none ha] at h; cases h
  | some x => rfl

theorem pageAt_eq_none {m : Mem} {root : Frame} {va : Nat} :
    pageAt m root va = none ↔ (leaf m root va).v = false := by
  unfold pageAt
  split <;> simp_all

theorem pageAt_eq_some {m : Mem} {root : Frame} {va : Nat} {x : Perm × Page} :
    pageAt m root va = some x ↔ (leaf m root va).v = true ∧ (leaf m root va).perm = x.1 ∧
      (m (leaf m root va).pa).page = x.2 := by
  unfold pageAt
  split
  · rename_i h
    rw [Option.some.injEq, Prod.ext_iff]
    simp [h]
  · rename_i h
    simp [h]

/-- Addresses on one page walk alike. -/
theorem leafAddr_pgrounddown (m : Mem) (root : Frame) (va : Nat) :
    leafAddr m root (pgrounddown va) = leafAddr m root va := by
  have h : ∀ level, level < 3 → px level (pgrounddown va) = px level va := by
    intro level hl
    unfold px pgrounddown
    have : level = 0 ∨ level = 1 ∨ level = 2 := by omega
    rcases this with rfl | rfl | rfl <;>
      simp only [Nat.reduceMul, Nat.reduceAdd, Nat.reducePow] <;> omega
  simp only [leafAddr, h 0 (by decide), h 1 (by decide), h 2 (by decide)]

theorem leaf_pgrounddown (m : Mem) (root : Frame) (va : Nat) :
    leaf m root (pgrounddown va) = leaf m root va := by
  simp only [leaf, leafAddr_pgrounddown]

/-! ## The owner of a table fixes the path to it -/

section
variable {role : Frame → Role} {m : Mem} {root : Frame}

/-- What the table page at a spot is used for. -/
def Spot.use : Spot → Use
  | .top => .top
  | .mid i => .mid i
  | .low i j => .low i j

theorem Spot.use_inj {p q : Spot} (h : p.use = q.use) : p = q := by
  cases p <;> cases q <;> simp_all [Spot.use]

theorem child_eq_some {t f : Frame} {i : Nat} :
    child m t i = some f ↔ i < 512 ∧ ((m t).pte i).v = true ∧ ((m t).pte i).pa = f := by
  unfold child
  split <;> simp_all

theorem PtWf.role_at (h : PtWf role m root) {p : Spot} {f : Frame}
    (hp : tableAt m root p = some f) : role f = .owned root p.use := by
  cases p with
  | top =>
      cases hp
      exact h.top
  | mid i =>
      obtain ⟨hi, hv, rfl⟩ := child_eq_some.mp hp
      exact (h.mid i hi hv).1
  | low i j =>
      obtain ⟨t, ht, hf⟩ := Option.bind_eq_some_iff.mp hp
      obtain ⟨hi, hv, rfl⟩ := child_eq_some.mp ht
      obtain ⟨hj, hv', rfl⟩ := child_eq_some.mp hf
      exact (h.low i j hi hj hv hv').1

theorem PtWf.tableTree (h : PtWf role m root) : TableTree m root := by
  intro p q f hp hq
  have := (h.role_at hp).symm.trans (h.role_at hq)
  rw [Role.owned.injEq] at this
  exact Spot.use_inj this.2

theorem PtWf.unlinked (h : PtWf role m root) {f : Frame} (hf : role f = .lost) :
    Unlinked m root f := by
  intro p hp
  rw [h.role_at hp] at hf
  cases hf

theorem PtWf.leafAddr_role (h : PtWf role m root) {va i : Nat} {pt : Frame}
    (ha : leafAddr m root va = some (pt, i)) :
    role pt = .owned root (.low (px 2 va) (px 1 va)) ∧ i = px 0 va := by
  obtain ⟨hpt, hi⟩ := leafAddr_eq_some.mp ha
  exact ⟨h.role_at hpt, hi⟩

/-- Memory that agrees on the frames of a page table gives the same
translations. -/
theorem PtWf.leafAddr_agree (h : PtWf role m root) {m' : Mem}
    (hm : ∀ f u, role f = .owned root u → (∀ va, u ≠ .page va) → m' f = m f) (va : Nat) :
    leafAddr m' root va = leafAddr m root va := by
  have h0 : m' root = m root := hm root _ h.top (by simp)
  unfold leafAddr
  rw [h0]
  split
  · rename_i h2
    have h1 : m' ((m root).pte (px 2 va)).pa = m ((m root).pte (px 2 va)).pa :=
      hm _ _ (h.mid _ (px_lt _ _) h2).1 (by simp)
    rw [h1]
  · rfl

theorem PtWf.leaf_agree (h : PtWf role m root) {m' : Mem}
    (hm : ∀ f u, role f = .owned root u → (∀ va, u ≠ .page va) → m' f = m f) (va : Nat) :
    leaf m' root va = leaf m root va := by
  unfold leaf
  rw [h.leafAddr_agree hm]
  cases ha : leafAddr m root va with
  | none => rfl
  | some x =>
      obtain ⟨pt, i⟩ := x
      have hr := (h.leafAddr_role ha).1
      dsimp only
      rw [hm _ _ hr (by simp)]

/-- Both halves: translations and page contents. -/
theorem PtWf.pageAt_agree (h : PtWf role m root) {m' : Mem}
    (hm : ∀ f u, role f = .owned root u → m' f = m f) {va : Nat} (hal : va % 4096 = 0)
    (hva : va < trapframeVa) : pageAt m' root va = pageAt m root va := by
  unfold pageAt
  rw [h.leaf_agree fun f u hf _ => hm f u hf]
  split
  · rename_i hv
    rw [hm _ _ (h.page va hal hva hv)]
  · rfl

/-- A well-formed table stays well-formed while its frames are left
alone. -/
theorem PtWf.agree (h : PtWf role m root) {role' : Frame → Role} {m' : Mem}
    (hr : ∀ f u, role f = .owned root u → role' f = .owned root u)
    (hm : ∀ f u, role f = .owned root u → (∀ va, u ≠ .page va) → m' f = m f) :
    PtWf role' m' root := by
  have h0 : m' root = m root := hm root _ h.top (by simp)
  refine ⟨hr _ _ h.top, fun i hi hv => h.high i hi (by rwa [h0] at hv), fun i hi hv => ?_,
    fun i j hi hj hv hv' => ?_, fun va hal hva hv => ?_⟩
  · rw [h0] at hv ⊢
    exact ⟨hr _ _ (h.mid i hi hv).1, (h.mid i hi hv).2⟩
  · rw [h0] at hv hv' ⊢
    have h1 : m' ((m root).pte i).pa = m ((m root).pte i).pa :=
      hm _ _ (h.mid i hi hv).1 (by simp)
    rw [h1] at hv' ⊢
    exact ⟨hr _ _ (h.low i j hi hj hv hv').1, (h.low i j hi hj hv hv').2⟩
  · rw [h.leaf_agree hm] at hv ⊢
    exact hr _ _ (h.page va hal hva hv)

/-! ## Writing a leaf entry -/

theorem PtWf.leafAddr_write (h : PtWf role m root) {va i : Nat} {pt : Frame}
    (ha : leafAddr m root va = some (pt, i)) (c : Cell) (va' : Nat) :
    leafAddr (Function.update m pt c) root va' = leafAddr m root va' := by
  rw [leafAddr_eq, leafAddr_eq, h.tableTree.tableAt_write (leafAddr_eq_some.mp ha).1]

theorem PtWf.leaf_write (h : PtWf role m root) {va i : Nat} {pt : Frame}
    (hal : va % 4096 = 0) (hva : va < maxva) (ha : leafAddr m root va = some (pt, i)) (e : Pte)
    {va' : Nat} (hal' : va' % 4096 = 0) (hva' : va' < maxva) :
    leaf (Function.update m pt ((m pt).setPte i e)) root va'
      = if va' = va then e else leaf m root va' := by
  obtain ⟨hpt, rfl⟩ := leafAddr_eq_some.mp ha
  exact h.tableTree.leaf_write hal hva hpt e hal' hva'

theorem PtWf.write (h : PtWf role m root) {va i : Nat} {pt : Frame}
    (hal : va % 4096 = 0) (hva : va < maxva) (ha : leafAddr m root va = some (pt, i)) (e : Pte)
    (he : e.v = true → va < trapframeVa → role e.pa = .owned root (.page va)) :
    PtWf role (Function.update m pt ((m pt).setPte i e)) root := by
  have hpt := (h.leafAddr_role ha).1
  have hne : ∀ f u, role f = .owned root u → (∀ a b, u ≠ .low a b) → f ≠ pt := by
    rintro f u hf hu rfl
    rw [hf] at hpt
    simp only [Role.owned.injEq, true_and] at hpt
    exact hu _ _ hpt
  have h0 := hne root _ h.top (by simp)
  refine ⟨h.top, fun j hj hv => h.high j hj (by rwa [Function.update_of_ne h0] at hv),
    fun j hj hv => ?_, fun j k hj hk hv hv' => ?_, fun va' hal' hva' hv => ?_⟩
  · rw [Function.update_of_ne h0] at hv ⊢
    exact h.mid j hj hv
  · rw [Function.update_of_ne h0] at hv hv' ⊢
    have h1 := hne _ _ (h.mid j hj hv).1 (by simp)
    rw [Function.update_of_ne h1] at hv' ⊢
    exact h.low j k hj hk hv hv'
  · have hlt : va' < maxva := Nat.lt_trans hva' (by decide)
    rw [h.leaf_write hal hva ha e hal' hlt] at hv ⊢
    split at hv
    · rename_i hvv
      subst hvv
      rw [if_pos rfl]
      exact he hv hva'
    · rename_i hvv
      rw [if_neg hvv]
      exact h.page va' hal' hva' hv

/-! ## Adding a table page -/

/-- A new middle table below the root: no translation changes. -/
theorem PtWf.extendMid (h : PtWf role m root) {i : Nat} {f : Frame} (hi : i < 256)
    (hv : ((m root).pte i).v = false) (hf : role f = .lost) :
    PtWf (Function.update role f (.owned root (.mid i)))
        (linkTable m root i f) root ∧
      (∀ va, leafAddr (linkTable m root i f) root va = leafAddr m root va) ∧
      ∀ va, leaf (linkTable m root i f) root va = leaf m root va := by
  have hroot : root ≠ f := by
    rintro rfl
    rw [h.top] at hf
    cases hf
  have hold : ∀ g u, role g = .owned root u → u ≠ .top →
      linkTable m root i f g = m g := by
    intro g u hg hu
    have h1 : g ≠ root := by
      rintro rfl
      rw [h.top] at hg
      simp only [Role.owned.injEq, true_and] at hg
      exact hu hg.symm
    have h2 : g ≠ f := by
      rintro rfl
      rw [hf] at hg
      cases hg
    exact linkTable_other h1 h2
  have hnew : linkTable m root i f f = Cell.fill 0 :=
    linkTable_new hroot.symm
  have hkeep : ∀ g u, role g = .owned root u →
      Function.update role f (.owned root (.mid i)) g = .owned root u := by
    intro g u hg
    rw [Function.update_of_ne, hg]
    rintro rfl
    rw [hf] at hg
    cases hg
  have hnone : child m root i = none := by simp [child, hv]
  have hleafAddr : ∀ va, leafAddr (linkTable m root i f) root va = leafAddr m root va := by
    intro va
    rw [leafAddr_eq, leafAddr_eq,
      h.tableTree.tableAt_link (h.unlinked hf) (by omega) (p := .top) rfl rfl hnone, if_neg (by exact nofun)]
  have hleaf := h.tableTree.leaf_link (h.unlinked hf) (by omega) (p := .top) rfl rfl hnone
  refine ⟨⟨hkeep _ _ h.top, fun j hj hvj => ?_, fun j hj hvj => ?_,
    fun j k hj hk hvj hvk => ?_, fun va hal hva hvl => ?_⟩, hleafAddr, hleaf⟩
  · rw [linkTable_self, Cell.pte_setPte] at hvj
    split at hvj
    · omega
    · exact h.high j hj hvj
  · rw [linkTable_self, Cell.pte_setPte] at hvj ⊢
    split
    · rename_i he
      subst he
      exact ⟨Function.update_self .., rfl⟩
    · rename_i he
      rw [if_neg he] at hvj
      exact ⟨hkeep _ _ (h.mid j hj hvj).1, (h.mid j hj hvj).2⟩
  · rw [linkTable_self, Cell.pte_setPte] at hvj hvk ⊢
    by_cases he : j = i
    · rw [if_pos he] at hvk
      simp [hnew] at hvk
    · rw [if_neg he] at hvj hvk ⊢
      rw [hold _ _ (h.mid j hj hvj).1 (by simp)] at hvk ⊢
      exact ⟨hkeep _ _ (h.low j k hj hk hvj hvk).1, (h.low j k hj hk hvj hvk).2⟩
  · rw [hleaf] at hvl ⊢
    exact hkeep _ _ (h.page va hal hva hvl)

/-- A new last-level table: no translation changes, and the walk now
ends in it. -/
theorem PtWf.extendLow (h : PtWf role m root) {i j : Nat} {f : Frame} (hi : i < 512)
    (hj : j < 512) (hv : ((m root).pte i).v = true)
    (hv' : ((m ((m root).pte i).pa).pte j).v = false) (hf : role f = .lost) :
    PtWf (Function.update role f (.owned root (.low i j)))
        (linkTable m ((m root).pte i).pa j f) root ∧
      (∀ va, leafAddr (linkTable m ((m root).pte i).pa j f) root va
        = if px 2 va = i ∧ px 1 va = j then some (f, px 0 va) else leafAddr m root va) ∧
      ∀ va, leaf (linkTable m ((m root).pte i).pa j f) root va = leaf m root va := by
  have hmid := (h.mid i hi hv).1
  generalize hg : ((m root).pte i).pa = g at hmid hv' ⊢
  have hgf : g ≠ f := by
    rintro rfl
    rw [hmid] at hf
    cases hf
  have hold : ∀ x u, role x = .owned root u → u ≠ .mid i →
      linkTable m g j f x = m x := by
    intro x u hx hu
    have h1 : x ≠ g := by
      rintro rfl
      rw [hmid] at hx
      simp only [Role.owned.injEq, true_and] at hx
      exact hu hx.symm
    have h2 : x ≠ f := by
      rintro rfl
      rw [hf] at hx
      cases hx
    exact linkTable_other h1 h2
  have hnew : linkTable m g j f f = Cell.fill 0 :=
    linkTable_new hgf.symm
  have hkeep : ∀ x u, role x = .owned root u →
      Function.update role f (.owned root (.low i j)) x = .owned root u := by
    intro x u hx
    rw [Function.update_of_ne, hx]
    rintro rfl
    rw [hf] at hx
    cases hx
  have hroot := hold root _ h.top (by simp)
  have hat : tableAt m root (.mid i) = some g := child_eq_some.mpr ⟨hi, hv, hg⟩
  have hnone : child m g j = none := by simp [child, hv']
  have hleafAddr : ∀ va, leafAddr (linkTable m g j f) root va
        = if px 2 va = i ∧ px 1 va = j then some (f, px 0 va) else leafAddr m root va := by
    intro va
    rw [leafAddr_eq, leafAddr_eq, h.tableTree.tableAt_link (h.unlinked hf) hj hat rfl hnone]
    simp only [Spot.low.injEq]
    split <;> rfl
  have hleaf := h.tableTree.leaf_link (h.unlinked hf) hj hat rfl hnone
  refine ⟨⟨hkeep _ _ h.top, fun k hk hvk => h.high k hk (by rwa [hroot] at hvk),
    fun k hk hvk => ?_, fun k l hk hl hvk hvl => ?_,
    fun va hal hva hvl => ?_⟩, hleafAddr, hleaf⟩
  · rw [hroot] at hvk ⊢
    exact ⟨hkeep _ _ (h.mid k hk hvk).1, (h.mid k hk hvk).2⟩
  · rw [hroot] at hvk hvl ⊢
    by_cases hki : k = i
    · subst hki
      rw [hg, linkTable_self, Cell.pte_setPte] at hvl ⊢
      split
      · rename_i hlj
        subst hlj
        exact ⟨Function.update_self .., rfl⟩
      · rename_i hlj
        rw [if_neg hlj] at hvl
        have hlow := h.low k l hk hl hvk
        rw [hg] at hlow
        exact ⟨hkeep _ _ (hlow hvl).1, (hlow hvl).2⟩
    · have hne : (Use.mid k) ≠ .mid i := fun hc => hki (Use.mid.inj hc)
      rw [hold _ _ (h.mid k hk hvk).1 hne] at hvl ⊢
      exact ⟨hkeep _ _ (h.low k l hk hl hvk hvl).1, (h.low k l hk hl hvk hvl).2⟩
  · rw [hleaf] at hvl ⊢
    exact hkeep _ _ (h.page va hal hva hvl)

end

end OsSuite.Xv6
