import OsSuite.Xv6.PageTableSpec

/-!
# PageTableFree — giving a page table back

`freewalk` frees what it can reach. `tablePages` lists those pages in the
order they are freed; on a well-formed table without valid leaves they
are exactly its table pages, each once. `procFreepagetable_spec` then
says that the whole table is given back.
-/

namespace OsSuite.Xv6

/-! ## Freeing the tables -/

/-- The table pages at and below `pt`, a table at level `l`, in the order
`freewalk` frees them. -/
def tablePages (m : Mem) : Nat → Frame → List Frame
  | 0, pt => [pt]
  | l + 1, pt =>
      ((List.range 512).flatMap fun i =>
        if ((m pt).pte i).isTable then tablePages m l ((m pt).pte i).pa else []) ++ [pt]

/-- The table pages below entry `i` of `pt`. -/
def tablesBelow (m : Mem) : Nat → Frame → Nat → List Frame
  | 0, _, _ => []
  | l + 1, pt, i => if ((m pt).pte i).isTable then tablePages m l ((m pt).pte i).pa else []

/-- Pointers to tables at the upper levels, none at the last. -/
def Tree (m : Mem) : Nat → Frame → Prop
  | 0, pt => ∀ i, i < 512 → ((m pt).pte i).isTable = false
  | l + 1, pt => ∀ i, i < 512 → ((m pt).pte i).isTable = true → Tree m l ((m pt).pte i).pa

theorem tablePages_eq (m : Mem) (l : Nat) (pt : Frame) :
    tablePages m l pt = (List.range 512).flatMap (tablesBelow m l pt) ++ [pt] := by
  cases l with
  | zero =>
      have h : (List.range 512).flatMap (tablesBelow m 0 pt) = [] := by
        rw [List.flatMap_eq_nil_iff]
        exact fun i _ => rfl
      rw [h]
      rfl
  | succ l => rfl

theorem mem_tablePages_self (m : Mem) (l : Nat) (pt : Frame) : pt ∈ tablePages m l pt := by
  rw [tablePages_eq]
  simp

theorem mem_tablePages_below {m : Mem} {l i : Nat} {pt f : Frame} (hi : i < 512)
    (h : f ∈ tablesBelow m l pt i) : f ∈ tablePages m l pt := by
  rw [tablePages_eq, List.mem_append]
  exact .inl (List.mem_flatMap.mpr ⟨i, List.mem_range.mpr hi, h⟩)

/-- The list and the shape depend on the listed pages only. -/
theorem tablePages_congr {m m' : Mem} {l : Nat} {pt : Frame}
    (h : ∀ f ∈ tablePages m l pt, m' f = m f) :
    tablePages m' l pt = tablePages m l pt ∧ (Tree m l pt → Tree m' l pt) := by
  induction l generalizing pt with
  | zero =>
      have h0 := h pt (mem_tablePages_self m 0 pt)
      exact ⟨rfl, fun ht i hi => by rw [h0]; exact ht i hi⟩
  | succ l ih =>
      have h0 := h pt (mem_tablePages_self m (l + 1) pt)
      have hsub : ∀ i, i < 512 → ((m pt).pte i).isTable = true →
          tablePages m' l ((m pt).pte i).pa = tablePages m l ((m pt).pte i).pa ∧
          (Tree m l ((m pt).pte i).pa → Tree m' l ((m pt).pte i).pa) := by
        intro i hi ht
        refine ih fun f hf => h f (mem_tablePages_below hi ?_)
        rw [tablesBelow, if_pos ht]
        exact hf
      constructor
      · rw [tablePages, tablePages, h0]
        refine congrArg (· ++ [pt]) (List.flatMap_congr fun i hi => ?_)
        split
        · rename_i ht
          exact (hsub i (List.mem_range.mp hi) ht).1
        · rfl
      · intro htree i hi ht
        rw [h0] at ht ⊢
        exact (hsub i hi ht).2 (htree i hi ht)

section
variable {A : Event → Prop} {role role' : Frame → Role} {s s' : Sys} {root : Frame}

/-- Frames that may be given back. -/
def Freeable (role : Frame → Role) (l : List Frame) : Prop :=
  ∀ f ∈ l, (role f).idle = false ∧ role f ≠ .kernel

/-- The table pages freed before round `i` of the loop. -/
def freedBefore (m : Mem) (l : Nat) (pt : Frame) (i : Nat) : List Frame :=
  (List.range i).flatMap (tablesBelow m l pt)

theorem freedBefore_succ (m : Mem) (l : Nat) (pt : Frame) (i : Nat) :
    freedBefore m l pt (i + 1) = freedBefore m l pt i ++ tablesBelow m l pt i := by
  simp [freedBefore, List.range_succ]

theorem tablePages_eq_freedBefore (m : Mem) (l : Nat) (pt : Frame) :
    tablePages m l pt = freedBefore m l pt 512 ++ [pt] := by
  rw [freedBefore, tablePages_eq]

theorem freedBefore_nodup {m : Mem} {l i : Nat} {pt : Frame} (hi : i ≤ 512)
    (h : (tablePages m l pt).Nodup) :
    (freedBefore m l pt i).Nodup ∧ pt ∉ freedBefore m l pt i := by
  rw [tablePages_eq, List.nodup_append] at h
  have hsub : (freedBefore m l pt i).Sublist ((List.range 512).flatMap (tablesBelow m l pt)) :=
    (List.range_sublist.mpr hi).flatMap _
  exact ⟨h.1.sublist hsub, fun hm => h.2.2 pt (hsub.subset hm) pt (by simp) rfl⟩

/-- What holds of the state before round `i`: the tables below the
earlier entries are freed, the later entries are as they were. -/
structure FreewalkInv (l : Nat) (pt : Frame) (role : Frame → Role) (s : Sys) (i : Nat)
    (s' : Sys) : Prop where
  inv : SysInv (fun f => if f ∈ freedBefore s.mem l pt i then .free else role f) s'
  conf : SameConf s s'
  freelist : s'.freelist = (freedBefore s.mem l pt i).reverse ++ s.freelist
  held : s'.held = s.held
  script : s'.script = s.script
  mem_eq : ∀ f, f ∉ freedBefore s.mem l pt i → f ≠ pt → s'.mem f = s.mem f
  entries : ∀ j, i ≤ j → (s'.mem pt).pte j = (s.mem pt).pte j

/-- `freewalk` on a table whose lower tables it frees correctly. -/
theorem freewalk_level {l fuel : Nat} {pt : Frame} (h : SysInv role s)
    (hnd : (tablePages s.mem l pt).Nodup) (hfree : Freeable role (tablePages s.mem l pt))
    (hsub : ∀ i, i < 512 → ((s.mem pt).pte i).isTable = true →
      ∀ role₁ s₁, SysInv role₁ s₁ → (∀ f ∈ tablesBelow s.mem l pt i, s₁.mem f = s.mem f) →
        Freeable role₁ (tablesBelow s.mem l pt i) →
        wp A (freewalk fuel ((s.mem pt).pte i).pa) ⟨fun _ s' => ∃ role', SysInv role' s' ∧
            SameConf s₁ s' ∧ Freed (fun _ => true) (tablesBelow s.mem l pt i) role₁ role' s₁ s',
          fun _ => False, fun _ => False⟩ s₁)
    (hnone : ∀ i, i < 512 → ((s.mem pt).pte i).isTable = false → tablesBelow s.mem l pt i = []) :
    wp A (freewalk (fuel + 1) pt) ⟨fun _ s' => ∃ role', SysInv role' s' ∧ SameConf s s' ∧
        Freed (fun _ => true) (tablePages s.mem l pt) role role' s s',
      fun _ => False, fun _ => False⟩ s := by
  rw [freewalk, wp_bind]
  have hstart : FreewalkInv l pt role s 0 s :=
    ⟨by simpa [freedBefore] using h, .refl s, by simp [freedBefore], rfl, rfl,
      fun _ _ _ => rfl, fun _ _ => rfl⟩
  refine (wp_upTo (n := 512) (FreewalkInv l pt role s) hstart ?_).mono ?_ (fun _ h => h)
    (fun _ h => h)
  · -- one round
    intro i s₁ hi hI
    simp only [wp_bind, wp_readPte]
    rw [hI.entries i (Nat.le_refl i)]
    by_cases ht : ((s.mem pt).pte i).isTable = true
    · rw [if_pos ht]
      simp only [wp_bind, wp_writePte]
      have hnd' := freedBefore_nodup (l := l) (show i + 1 ≤ 512 by omega) hnd
      rw [freedBefore_succ, List.nodup_append, List.mem_append, not_or] at hnd'
      obtain ⟨⟨_, _, hdis⟩, hpt, hpt'⟩ := hnd'
      have hnotin : ∀ f ∈ tablesBelow s.mem l pt i, f ∉ freedBefore s.mem l pt i :=
        fun f hf hf' => hdis f hf' f hf rfl
      refine (hsub i hi ht _ s₁ hI.inv (fun f hf => ?_) (fun f hf => ?_)).mono ?_
        (fun _ h => h) (fun _ h => h)
      · refine hI.mem_eq f (hnotin f hf) ?_
        rintro rfl
        exact hpt' hf
      · rw [if_neg (hnotin f hf)]
        exact hfree f (mem_tablePages_below hi hf)
      · rintro _ s₂ ⟨role₂, h₂, hc₂, hf₂⟩
        have hmem : s₂.mem pt = s₁.mem pt := hf₂.mem_eq pt hpt' rfl
        have hrole : role₂ = fun f => if f ∈ freedBefore s.mem l pt (i + 1) then .free
            else role f := by
          funext f
          rw [hf₂.role_eq, freedBefore_succ]
          by_cases h1 : f ∈ tablesBelow s.mem l pt i <;>
            by_cases h2 : f ∈ freedBefore s.mem l pt i <;> simp [h1, h2]
        refine ⟨?_, ?_, ?_, ?_, ?_, fun f hf hne => ?_, fun j hj => ?_⟩
        · rw [← hrole]
          exact h₂.setCell _ _
        · exact hI.conf.trans (hc₂.trans (.setCell _ _ _))
        · show s₂.freelist = _
          rw [hf₂.freelist, hI.freelist, freedBefore_succ, List.reverse_append, List.append_assoc]
        · exact hf₂.held.trans hI.held
        · exact hf₂.script.trans hI.script
        · rw [freedBefore_succ, List.mem_append, not_or] at hf
          show Function.update s₂.mem pt _ f = _
          rw [Function.update_of_ne hne, hf₂.mem_eq f hf.2 rfl, hI.mem_eq f hf.1 hne]
        · show (Function.update s₂.mem pt _ pt).pte j = _
          rw [Function.update_self, Cell.pte_setPte, if_neg (by omega), hmem,
            hI.entries j (by omega)]
    · rw [if_neg ht, wp_pure]
      have hsame : freedBefore s.mem l pt (i + 1) = freedBefore s.mem l pt i := by
        rw [freedBefore_succ, hnone i hi (by simpa using ht), List.append_nil]
      exact ⟨by rw [hsame]; exact hI.inv, hI.conf, by rw [hsame]; exact hI.freelist, hI.held,
        hI.script, by rw [hsame]; exact hI.mem_eq, fun j hj => hI.entries j (by omega)⟩
  · -- the table itself
    intro _ s₁ hI
    have hpt := (freedBefore_nodup (l := l) (Nat.le_refl 512) hnd).2
    have hbusy := hfree pt (mem_tablePages_self _ _ _)
    refine kfree_spec hI.inv (by rw [if_neg hpt]; exact hbusy.1) (by rw [if_neg hpt]; exact hbusy.2)
      fun hinv => ⟨_, hinv, hI.conf.trans ⟨rfl, rfl, rfl, rfl⟩, fun f => ?_, ?_, hI.held,
        hI.script, fun f hf _ => ?_⟩
    · rw [Function.update_apply, tablePages_eq_freedBefore]
      by_cases h1 : f = pt <;> by_cases h2 : f ∈ freedBefore s.mem l pt 512 <;> simp [h1, h2]
    · show pt :: s₁.freelist = _
      rw [hI.freelist, tablePages_eq_freedBefore]
      simp
    · have hf' : f ∉ freedBefore s.mem l pt 512 ∧ f ≠ pt := by
        rw [tablePages_eq_freedBefore] at hf
        simpa using hf
      show Function.update s₁.mem pt _ f = _
      rw [Function.update_of_ne hf'.2, hI.mem_eq f hf'.1 hf'.2]

/-- **`freewalk` frees each table page once.** -/
theorem freewalk_spec (l : Nat) : ∀ {fuel : Nat} {pt : Frame} {role : Frame → Role} {s : Sys},
    l < fuel → SysInv role s → Tree s.mem l pt → (tablePages s.mem l pt).Nodup →
    Freeable role (tablePages s.mem l pt) →
    wp A (freewalk fuel pt) ⟨fun _ s' => ∃ role', SysInv role' s' ∧ SameConf s s' ∧
        Freed (fun _ => true) (tablePages s.mem l pt) role role' s s',
      fun _ => False, fun _ => False⟩ s := by
  induction l with
  | zero =>
      intro fuel pt role s hfuel h htree hnd hfree
      obtain ⟨n, rfl⟩ : ∃ n, fuel = n + 1 := ⟨fuel - 1, by omega⟩
      refine freewalk_level h hnd hfree (fun i hi ht => ?_) (fun i hi _ => rfl)
      rw [htree i hi] at ht
      cases ht
  | succ l ih =>
      intro fuel pt role s hfuel h htree hnd hfree
      obtain ⟨n, rfl⟩ : ∃ n, fuel = n + 1 := ⟨fuel - 1, by omega⟩
      refine freewalk_level h hnd hfree (fun i hi ht role₁ s₁ h₁ hmem hfree₁ => ?_)
        (fun i hi hf => by rw [tablesBelow, if_neg (by simp [hf])])
      have hbelow : tablesBelow s.mem (l + 1) pt i = tablePages s.mem l ((s.mem pt).pte i).pa := by
        rw [tablesBelow, if_pos ht]
      rw [hbelow] at hmem hfree₁ ⊢
      obtain ⟨hlist, htree'⟩ := tablePages_congr hmem
      have hnd' : (tablePages s.mem l ((s.mem pt).pte i).pa).Nodup := by
        have := (freedBefore_nodup (l := l + 1) (show i + 1 ≤ 512 by omega) hnd).1
        rw [freedBefore_succ, hbelow, List.nodup_append] at this
        exact this.2.1
      have := ih (Nat.succ_le_succ_iff.mp hfuel) h₁ (htree' (htree i hi ht))
        (by rw [hlist]; exact hnd') (by rw [hlist]; exact hfree₁)
      rw [hlist] at this
      exact this

/-! ## A well-formed table is such a tree -/

/-- No entry of the last level is valid. -/
def NoLeaf (m : Mem) (root : Frame) : Prop :=
  ∀ a, a % 4096 = 0 → a < maxva → (leaf m root a).v = false

theorem Pte.v_of_isTable {e : Pte} (h : e.isTable = true) : e.v = true := by
  rw [Pte.isTable, Bool.and_eq_true] at h
  exact h.1

theorem PtWf.tree {m : Mem} (hw : PtWf role m root) (hn : NoLeaf m root) : Tree m 2 root := by
  intro i hi hti
  have hvi := Pte.v_of_isTable hti
  intro j hj htj
  have hvj := Pte.v_of_isTable htj
  intro k hk
  obtain ⟨h2, h1, h0, hal, hlt⟩ := px_vaOf (hw.high i hi hvi) hj hk
  have hleaf : leaf m root (vaOf i j k)
      = (m ((m ((m root).pte i).pa).pte j).pa).pte k := by
    apply leaf_of_some
    unfold leafAddr
    rw [h2, h1, h0, if_pos hvi, if_pos hvj]
  have := hn _ hal hlt
  rw [hleaf] at this
  rw [Pte.isTable, this, Bool.false_and]

/-- The owners of the table pages, by position. -/
theorem PtWf.tablesBelow_role {m : Mem} (hw : PtWf role m root) {i : Nat} (hi : i < 512)
    {f : Frame} (hf : f ∈ tablesBelow m 2 root i) :
    role f = .owned root (.mid i) ∨ ∃ j, j < 512 ∧ role f = .owned root (.low i j) := by
  rw [tablesBelow] at hf
  split at hf
  · rename_i ht
    have hv := Pte.v_of_isTable ht
    rw [tablePages_eq, List.mem_append, List.mem_singleton] at hf
    rcases hf with hf | rfl
    · obtain ⟨j, hj, hf⟩ := List.mem_flatMap.mp hf
      have hj := List.mem_range.mp hj
      rw [tablesBelow] at hf
      split at hf
      · rename_i ht'
        rw [tablePages, List.mem_singleton] at hf
        subst hf
        exact .inr ⟨j, hj, (hw.low i j hi hj hv (Pte.v_of_isTable ht')).1⟩
      · cases hf
    · exact .inl (hw.mid i hi hv).1
  · cases hf

theorem PtWf.tablePages_role {m : Mem} (hw : PtWf role m root) {f : Frame}
    (hf : f ∈ tablePages m 2 root) : ∃ u, role f = .owned root u ∧ ∀ va, u ≠ .page va := by
  rw [tablePages_eq, List.mem_append, List.mem_singleton] at hf
  rcases hf with hf | rfl
  · obtain ⟨i, hi, hf⟩ := List.mem_flatMap.mp hf
    rcases hw.tablesBelow_role (List.mem_range.mp hi) hf with h | ⟨j, _, h⟩
    · exact ⟨_, h, by simp⟩
    · exact ⟨_, h, by simp⟩
  · exact ⟨_, hw.top, by simp⟩

/-- Distinct positions have distinct owners, so no table is listed
twice. -/
theorem PtWf.tablePages_nodup {m : Mem} (hw : PtWf role m root) : (tablePages m 2 root).Nodup := by
  rw [tablePages_eq, List.nodup_append]
  refine ⟨List.nodup_flatMap.mpr ⟨fun i hi => ?_, ?_⟩, by simp, ?_⟩
  · -- below one root entry
    have hi := List.mem_range.mp hi
    rw [tablesBelow]
    split
    · rename_i ht
      have hv := Pte.v_of_isTable ht
      have hlow : ∀ j, j < 512 → ∀ f ∈ tablesBelow m 1 ((m root).pte i).pa j,
          role f = .owned root (.low i j) := by
        intro j hj f hf
        rw [tablesBelow] at hf
        split at hf
        · rename_i ht'
          rw [tablePages, List.mem_singleton] at hf
          subst hf
          exact (hw.low i j hi hj hv (Pte.v_of_isTable ht')).1
        · cases hf
      rw [tablePages_eq, List.nodup_append]
      refine ⟨List.nodup_flatMap.mpr ⟨fun j hj => ?_, ?_⟩, by simp, ?_⟩
      · rw [tablesBelow]
        split <;> simp [tablePages]
      · refine List.nodup_range.imp_of_mem ?_
        intro j k hj hk hne f hfj hfk
        have h1 := hlow j (List.mem_range.mp hj) f hfj
        rw [hlow k (List.mem_range.mp hk) f hfk] at h1
        simp only [Role.owned.injEq, Use.low.injEq, true_and] at h1
        exact hne h1.symm
      · intro f hf g hg he
        obtain ⟨j, hj, hf⟩ := List.mem_flatMap.mp hf
        rw [List.mem_singleton] at hg
        have h1 := hlow j (List.mem_range.mp hj) f hf
        rw [he, hg, (hw.mid i hi hv).1] at h1
        simp at h1
    · exact List.nodup_nil
  · refine List.nodup_range.imp_of_mem ?_
    intro i k hi hk hne f hfi hfk
    rcases hw.tablesBelow_role (List.mem_range.mp hi) hfi with h1 | ⟨j, _, h1⟩ <;>
      rcases hw.tablesBelow_role (List.mem_range.mp hk) hfk with h2 | ⟨j', _, h2⟩ <;>
      rw [h1] at h2 <;> simp at h2
    · exact hne h2
    · exact hne h2.1
  · intro f hf g hg he
    rw [List.mem_singleton] at hg
    obtain ⟨i, hi, hf⟩ := List.mem_flatMap.mp hf
    rcases hw.tablesBelow_role (List.mem_range.mp hi) hf with h1 | ⟨j, _, h1⟩ <;>
      rw [he, hg, hw.top] at h1 <;> simp at h1

/-- The table pages depend on the upper two levels only. -/
theorem PtWf.tablePages_upper {m m' : Mem} (hw : PtWf role m root)
    (hm : ∀ f u, role f = .owned root u → (u = .top ∨ ∃ i, u = .mid i) → m' f = m f) :
    tablePages m' 2 root = tablePages m 2 root := by
  have h0 : m' root = m root := hm root _ hw.top (.inl rfl)
  rw [tablePages_eq, tablePages_eq]
  refine congrArg (· ++ [root]) (List.flatMap_congr fun i hi => ?_)
  rw [tablesBelow, tablesBelow, h0]
  split
  · rename_i ht
    have hmid := (hw.mid i (List.mem_range.mp hi) (Pte.v_of_isTable ht)).1
    have h1 := hm _ _ hmid (.inr ⟨i, rfl⟩)
    rw [tablePages_eq, tablePages_eq]
    refine congrArg (· ++ [((m root).pte i).pa]) (List.flatMap_congr fun j _ => ?_)
    rw [tablesBelow, tablesBelow, h1]
    rfl
  · rfl

/-! ## Giving the whole table back -/

/-- The number of pages below the trapframe page. -/
def userPages : Nat := 67108862

/-- The frames of all user pages. -/
def dataPages (m : Mem) (root : Frame) : List Frame := mappedIn m root userPages 0

theorem mem_dataPages {m : Mem} {f : Frame} : f ∈ dataPages m root ↔
    ∃ a, a % 4096 = 0 ∧ a < trapframeVa ∧ (leaf m root a).v = true ∧ (leaf m root a).pa = f := by
  rw [dataPages, mem_mappedIn]
  constructor
  · rintro ⟨k, hk, hv⟩
    refine ⟨0 + 4096 * k, by omega, ?_, hv⟩
    unfold userPages at hk
    unfold trapframeVa
    omega
  · rintro ⟨a, hal, ha, hv⟩
    unfold trapframeVa at ha
    have he : 0 + 4096 * (a / 4096) = a := by omega
    exact ⟨a / 4096, by unfold userPages; omega, by rw [he]; exact hv⟩

theorem PtWf.dataPages_role {m : Mem} (hw : PtWf role m root) {f : Frame}
    (hf : f ∈ dataPages m root) : ∃ va, role f = .owned root (.page va) := by
  obtain ⟨a, hal, ha, hv, rfl⟩ := mem_dataPages.mp hf
  exact ⟨a, hw.page a hal ha hv⟩

theorem PtWf.mappedIn_nodup {m : Mem} (hw : PtWf role m root) {n a : Nat} (hal : a % 4096 = 0)
    (ha : a + 4096 * n ≤ trapframeVa) : (mappedIn m root n a).Nodup := by
  induction n generalizing a with
  | zero => exact List.nodup_nil
  | succ n ih =>
      have hrest := ih (a := a + 4096) (by omega) (by omega)
      rw [mappedIn]
      split
      · rename_i hv
        refine List.nodup_cons.mpr ⟨fun hm => ?_, hrest⟩
        obtain ⟨k, hk, hkv, hkp⟩ := mem_mappedIn.mp hm
        have h1 := hw.page _ (by omega) (by omega) hkv
        rw [hkp, hw.page a hal (by omega) hv] at h1
        simp only [Role.owned.injEq, Use.page.injEq, true_and] at h1
        omega
      · exact hrest

theorem PtWf.pages_owned {m : Mem} (hw : PtWf role m root) {f : Frame}
    (hf : f ∈ dataPages m root ++ tablePages m 2 root) : ∃ u, role f = .owned root u := by
  rcases List.mem_append.mp hf with hf | hf
  · obtain ⟨va, h⟩ := hw.dataPages_role hf
    exact ⟨_, h⟩
  · obtain ⟨u, h, _⟩ := hw.tablePages_role hf
    exact ⟨u, h⟩

/-- No user page is mapped at or above the rounded size. -/
def InRange (m : Mem) (root : Frame) (sz : Nat) : Prop :=
  ∀ a, a % 4096 = 0 → a < trapframeVa → (leaf m root a).v = true → a < pgroundup sz

/-- The pages of `[0, pgroundup sz)` are all there is, once the two top
pages are gone. -/
theorem mappedIn_eq_dataPages {m m' : Mem} {sz : Nat} (hr : InRange m root sz)
    (hsame : ∀ a, a % 4096 = 0 → a < trapframeVa → leaf m' root a = leaf m root a)
    (htop : ∀ a, a % 4096 = 0 → trapframeVa ≤ a → a < maxva → (leaf m' root a).v = false)
    (hsz : pgroundup sz ≤ maxva) :
    mappedIn m' root (pgroundup sz / 4096) 0 = dataPages m root := by
  have hround := pgroundup_aligned sz
  have hbound : ∀ k, k < userPages → 0 + 4096 * k < trapframeVa := fun k hk => by
    unfold userPages at hk; unfold trapframeVa; omega
  unfold dataPages
  rcases Nat.le_total (pgroundup sz / 4096) userPages with hle | hle
  · obtain ⟨d, hd⟩ := Nat.le.dest hle
    rw [← hd, mappedIn_add, mappedIn_eq_nil (n := d), List.append_nil]
    · exact mappedIn_congr fun k hk => hsame _ (by omega) (hbound k (by omega))
    · intro k hk
      by_contra hv
      have := hr (0 + 4096 * (pgroundup sz / 4096) + 4096 * k) (by omega) ?_ (by simpa using hv)
      · omega
      · have := hbound (pgroundup sz / 4096 + k) (by omega)
        omega
  · obtain ⟨d, hd⟩ := Nat.le.dest hle
    rw [← hd, mappedIn_add, mappedIn_eq_nil (n := d), List.append_nil]
    · exact mappedIn_congr fun k hk => hsame _ (by omega) (hbound k (by omega))
    · intro k hk
      refine htop _ (by omega) ?_ (by omega)
      unfold userPages trapframeVa
      omega

theorem Role.fixed_of_foreign {r : Role} (h : r.foreign root = true) : r.fixed root = true :=
  Role.fixed_of_apart (Role.apart_of_foreign h)

theorem freewalk_wf_spec (h : SysInv role s) (hw : PtWf role s.mem root)
    (hn : NoLeaf s.mem root) :
    wp A (freewalk stackDepth root) ⟨fun _ s' => ∃ role', SysInv role' s' ∧ SameConf s s' ∧
        Freed (fun _ => true) (tablePages s.mem 2 root) role role' s s',
      fun _ => False, fun _ => False⟩ s := by
  refine freewalk_spec 2 (by decide) h (hw.tree hn) hw.tablePages_nodup fun f hf => ?_
  obtain ⟨u, hu, _⟩ := hw.tablePages_role hf
  rw [hu]
  exact ⟨rfl, by simp⟩

/-- **`uvmfree`** of a table whose valid leaves are all below `sz`. -/
theorem uvmfree_spec {sz : Nat} (h : SysInv role s) (hw : PtWf role s.mem root)
    (hsz : pgroundup sz ≤ maxva)
    (hlow : ∀ a, a % 4096 = 0 → a < maxva → (leaf s.mem root a).v = true →
      a < trapframeVa ∧ a < pgroundup sz) :
    wp A (uvmfree root sz) ⟨fun _ s' => ∃ role', SysInv role' s' ∧ SameConf s s' ∧
        Freed (Role.foreign root)
          (mappedIn s.mem root (pgroundup sz / 4096) 0 ++ tablePages s.mem 2 root) role role' s s',
      fun _ => False, fun _ => False⟩ s := by
  have hround := pgroundup_aligned sz
  unfold uvmfree
  by_cases h0 : 0 < sz
  · simp only [if_pos h0, wp_bind]
    refine (uvmunmap_free_spec h hw (by decide) (by omega) fun k hk hv =>
      (hlow _ (by omega) (by omega) hv).1).mono ?_ (fun _ h => h) (fun _ h => h)
    rintro _ s₁ ⟨role₁, hstep, hfreed, hl, hla⟩
    have hn : NoLeaf s₁.mem root := by
      intro a hal ha
      rw [hl a hal ha, unmapped]
      split
      · rfl
      · rename_i hc
        by_contra hv
        have hv : (leaf s.mem root a).v = true := by simpa using hv
        have := (hlow a hal ha hv).2
        exact hc ⟨by omega, by omega, hv⟩
    have htp : tablePages s₁.mem 2 root = tablePages s.mem 2 root := by
      refine hw.tablePages_upper fun f u hu hup => hfreed.mem_eq f (fun hm => ?_) ?_
      · -- a table is not a data page
        obtain ⟨k, hk, hv, hpa⟩ := mem_mappedIn.mp hm
        have hpage := hw.page _ (by omega) (hlow _ (by omega) (by omega) hv).1 hv
        rw [hpa, hu] at hpage
        rcases hup with rfl | ⟨i, rfl⟩ <;> simp at hpage
      · rw [hu]
        rcases hup with rfl | ⟨i, rfl⟩ <;> rfl
    refine (freewalk_wf_spec hstep.inv hstep.wf hn).mono ?_ (fun _ h => h) (fun _ h => h)
    rintro _ s₂ ⟨role₂, h₂, hc₂, hf₂⟩
    rw [htp] at hf₂
    exact ⟨role₂, h₂, hstep.conf.trans hc₂,
      (hfreed.mono fun r hr => Role.fixed_of_foreign hr).trans (hf₂.mono fun _ _ => rfl)⟩
  · have hz : pgroundup sz / 4096 = 0 := by
      have : sz = 0 := by omega
      subst this
      decide
    simp only [if_neg h0]
    have hn : NoLeaf s.mem root := by
      intro a hal ha
      by_contra hv
      have := (hlow a hal ha (by simpa using hv)).2
      omega
    refine (freewalk_wf_spec h hw hn).mono ?_ (fun _ h => h) (fun _ h => h)
    rintro _ s₂ ⟨role₂, h₂, hc₂, hf₂⟩
    rw [hz, mappedIn, List.nil_append]
    exact ⟨role₂, h₂, hc₂, hf₂.mono fun _ _ => rfl⟩

/-- **`proc_freepagetable` gives every frame of the table back.** -/
theorem procFreepagetable_spec {sz : Nat} (h : SysInv role s) (hw : PtWf role s.mem root)
    (hsz : pgroundup sz ≤ maxva) (hr : InRange s.mem root sz) :
    wp A (procFreepagetable root sz) ⟨fun _ s' => ∃ role', SysInv role' s' ∧ SameConf s s' ∧
        Freed (Role.foreign root) (dataPages s.mem root ++ tablePages s.mem 2 root)
          role role' s s',
      fun _ => False, fun _ => False⟩ s := by
  unfold procFreepagetable
  simp only [wp_bind]
  refine (uvmunmap_keep_spec h hw (by decide) (by decide)).mono ?_ (fun _ h => h) (fun _ h => h)
  rintro _ s₁ ⟨hstep₁, hf₁, hl₁, _⟩
  refine (uvmunmap_keep_spec hstep₁.inv hstep₁.wf (by decide) (by decide)).mono ?_
    (fun _ h => h) (fun _ h => h)
  rintro _ s₂ ⟨hstep₂, hf₂, hl₂, _⟩
  -- below the trapframe nothing has changed, above it nothing is left
  have hsame : ∀ a, a % 4096 = 0 → a < trapframeVa → leaf s₂.mem root a = leaf s.mem root a := by
    intro a hal ha
    have hmax : a < maxva := Nat.lt_trans ha (by decide)
    unfold trapframeVa at ha
    rw [hl₂ a hal hmax, unmapped, if_neg (by unfold trapframeVa; omega), hl₁ a hal hmax, unmapped,
      if_neg (by unfold trampolineVa; omega)]
  have htop : ∀ a, a % 4096 = 0 → trapframeVa ≤ a → a < maxva →
      (leaf s₂.mem root a).v = false := by
    intro a hal ha hmax
    have hcase : a = trapframeVa ∨ a = trampolineVa := by
      unfold trapframeVa maxva trampolineVa at *; omega
    rw [hl₂ a hal hmax, unmapped]
    split
    · rfl
    · rename_i hc
      by_contra hv
      have hv : (leaf s₁.mem root a).v = true := by simpa using hv
      rcases hcase with rfl | rfl
      · exact hc ⟨Nat.le_refl _, Nat.lt_add_of_pos_right (by decide), hv⟩
      · rw [hl₁ _ hal hmax, unmapped] at hv
        split at hv
        · cases hv
        · rename_i hc'
          exact hc' ⟨Nat.le_refl _, Nat.lt_add_of_pos_right (by decide), hv⟩
  refine (uvmfree_spec hstep₂.inv hstep₂.wf hsz fun a hal ha hv => ?_).mono ?_ (fun _ h => h)
    (fun _ h => h)
  · have hlt : a < trapframeVa := by
      by_contra hge
      rw [htop a hal (Nat.not_lt.mp hge) ha] at hv
      cases hv
    exact ⟨hlt, hr a hal hlt (by rw [← hsame a hal hlt]; exact hv)⟩
  · rintro _ s₃ ⟨role₃, h₃, hc₃, hf₃⟩
    rw [mappedIn_eq_dataPages hr hsame htop hsz] at hf₃
    have hmem : ∀ f, (role f).fixed root = true → s₂.mem f = s.mem f := fun f hfix => by
      rw [hf₂.mem_eq f (by simp) hfix, hf₁.mem_eq f (by simp) hfix]
    have hup : tablePages s₂.mem 2 root = tablePages s.mem 2 root :=
      hw.tablePages_upper fun f u hu hup => hmem f (by
        rw [hu]; rcases hup with rfl | ⟨i, rfl⟩ <;> rfl)
    rw [hup] at hf₃
    refine ⟨role₃, h₃, (hstep₁.conf.trans hstep₂.conf).trans hc₃, ?_⟩
    have := (hf₁.trans hf₂).mono (Q := Role.foreign root) fun r hr => Role.fixed_of_foreign hr
    exact this.trans hf₃

/-- What is given back belonged to the table, so nobody else notices. -/
theorem Freed.kept {l : List Frame} (hf : Freed (Role.foreign root) l role role' s s')
    (hl : ∀ f ∈ l, ∃ u, role f = .owned root u) :
    Kept (Role.foreign root) role role' s.mem s'.mem := by
  have hnot : ∀ f, (role f).foreign root = true → f ∉ l := by
    intro f hfor hm
    obtain ⟨u, hu⟩ := hl f hm
    rw [hu] at hfor
    simp [Role.foreign] at hfor
  exact ⟨fun f h => by rw [hf.role_eq, if_neg (hnot f h)], fun f h => hf.mem_eq f (hnot f h) h⟩

end

end OsSuite.Xv6
