import OsSuite.Xv6.PageMap

/-!
# Grants — how many frames a page table costs

Whether `kalloc` answers depends on the free list and on what the other
CPUs do to it, not on what memory holds. `s.grants n` says that the next
`n` requests are granted, and `After n s s'` that `s'` is what is left of
them. `Built root T s` are the spots of the table at `root` that hold a
table page; a `walk` that allocates asks for a frame for each spot on its
way that is not in `T`, and fails exactly when there are too few.
-/

namespace OsSuite.Xv6

/-! ## The allocator alone -/

/-- The next `n` calls of `kalloc` return a frame. -/
def Sys.grants : Nat → Sys → Bool
  | 0, _ => true
  | n + 1, s =>
      match kalloc s with
      | .ret (some _) s' _ => Sys.grants n s'
      | _ => false

/-- The allocators of two machines are alike. -/
structure SameAlloc (s s' : Sys) : Prop where
  freelist : s'.freelist = s.freelist
  held : s'.held = s.held
  script : s'.script = s.script

section
variable {s s' s'' : Sys}

theorem SameAlloc.intf (h : SameAlloc s s') (a : Intf) : SameAlloc (s.intf a) (s'.intf a) := by
  unfold Sys.intf
  cases a with
  | take =>
      dsimp only
      rw [h.freelist]
      cases s.freelist with
      | nil => exact h
      | cons f rest => exact ⟨rfl, by simp only [Sys.setCell, h.held], h.script⟩
  | give i =>
      dsimp only
      rw [h.held]
      cases s.held[i]? with
      | none => exact h
      | some f =>
          exact ⟨by simp only [Sys.setCell, h.freelist], rfl, h.script⟩

theorem SameAlloc.others (h : SameAlloc s s') : SameAlloc s.others s'.others := by
  have hfold : ∀ (g : List Intf) {s s' : Sys}, SameAlloc s s' →
      SameAlloc (g.foldl Sys.intf s) (g.foldl Sys.intf s') := by
    intro g
    induction g with
    | nil => exact fun h => h
    | cons a g ih => exact fun h => ih (h.intf a)
  unfold Sys.others
  rw [h.script]
  cases s.script with
  | nil => exact h
  | cons g rest => exact hfold g ⟨h.freelist, h.held, rfl⟩

theorem grants_succ (n : Nat) (s : Sys) : s.grants (n + 1) =
    match s.others.freelist with
    | [] => false
    | f :: rest => ({ s.others with freelist := rest }.setCell f (Cell.fill 5)).grants n := by
  rw [Sys.grants, kalloc]
  cases s.others.freelist <;> rfl

/-- Like allocators grant alike. -/
theorem SameAlloc.grants (h : SameAlloc s s') (n : Nat) : s'.grants n = s.grants n := by
  induction n generalizing s s' with
  | zero => rfl
  | succ n ih =>
      have ho := h.others
      rw [grants_succ, grants_succ, ho.freelist]
      cases s.others.freelist with
      | nil => rfl
      | cons f rest => exact ih ⟨rfl, ho.held, ho.script⟩

/-- A longer row of requests contains the shorter one. -/
theorem grants_of_le {n m : Nat} (hle : n ≤ m) (h : s.grants m = true) : s.grants n = true := by
  induction n generalizing m s with
  | zero => rfl
  | succ n ih =>
      obtain ⟨m, rfl⟩ : ∃ k, m = k + 1 := ⟨m - 1, by omega⟩
      rw [grants_succ] at h ⊢
      cases hl : s.others.freelist with
      | nil =>
          rw [hl] at h
          cases h
      | cons f rest =>
          rw [hl] at h
          exact ih (by omega) h

/-- After `n` requests of `s` were granted, `s'` answers the next ones. -/
def After (n : Nat) (s s' : Sys) : Prop := ∀ m, s.grants (n + m) = s'.grants m

theorem After.refl (s : Sys) : After 0 s s := fun m => by rw [Nat.zero_add]

/-- What memory holds does not matter. -/
theorem After.setCell {n : Nat} (h : After n s s') (f : Frame) (c : Cell) :
    After n s (s'.setCell f c) := fun m => by
  have hsame : SameAlloc s' (s'.setCell f c) := ⟨rfl, rfl, rfl⟩
  rw [h, hsame.grants]

theorem After.trans {n k : Nat} (h : After n s s') (h' : After k s' s'') : After (n + k) s s'' :=
  fun m => by rw [Nat.add_assoc, h, h']

theorem After.granted {n : Nat} (h : After n s s') : s.grants n = true := h 0

/-- Requests that `s'` does not grant, `s` does not grant either. -/
theorem After.refused {n k : Nat} (h : After n s s') (hk : s'.grants k = false) :
    s.grants (n + k) = false := by rw [h, hk]

theorem refused_of_le {n m : Nat} (hle : n ≤ m) (h : s.grants n = false) : s.grants m = false := by
  cases hm : s.grants m with
  | false => rfl
  | true => rw [grants_of_le hle hm] at h; cases h

/-- **`kalloc`** is one request. -/
theorem kalloc_grants {A : Event → Prop} :
    wp A kalloc ⟨fun r s' => (∀ f, r = some f → After 1 s s') ∧ (r = none → s.grants 1 = false),
      fun _ => False, fun _ => False⟩ s := by
  unfold wp kalloc
  cases hl : s.others.freelist with
  | nil =>
      simp only [hl]
      refine fun _ => ⟨nofun, fun _ => ?_⟩
      rw [grants_succ, hl]
  | cons f rest =>
      simp only [hl]
      refine fun _ => ⟨fun _ _ m => ?_, nofun⟩
      rw [Nat.add_comm, grants_succ, hl]

end

/-! ## The spots of a table -/

/-- The spots at which a table page hangs. -/
def Built (root : Frame) (T : Finset Spot) (s : Sys) : Prop :=
  ∀ p, (tableAt s.mem root p).isSome ↔ p ∈ T

/-- The spots below the one at `level` that a walk for `va` passes. -/
def spotsBelow (va : Nat) : Nat → Finset Spot
  | 0 => ∅
  | level + 1 => insert (spotOf va level) (spotsBelow va level)

/-- The spots below the root that a walk for `va` passes. -/
def tablesFor (va : Nat) : Finset Spot := spotsBelow va 2

/-- The same for `n` pages from `a` on. -/
def tablesForPages (a n : Nat) : Finset Spot :=
  (Finset.range n).biUnion fun k => tablesFor (a + 4096 * k)

theorem tablesForPages_succ (a n : Nat) :
    tablesForPages a (n + 1) = tablesFor a ∪ tablesForPages (a + 4096) n := by
  unfold tablesForPages
  ext p
  simp only [Finset.mem_biUnion, Finset.mem_range, Finset.mem_union]
  constructor
  · rintro ⟨k, hk, hp⟩
    cases k with
    | zero => exact .inl hp
    | succ k =>
        refine .inr ⟨k, by omega, ?_⟩
        rwa [show a + 4096 + 4096 * k = a + 4096 * (k + 1) by omega]
  · rintro (hp | ⟨k, hk, hp⟩)
    · exact ⟨0, by omega, hp⟩
    · refine ⟨k + 1, by omega, ?_⟩
      rwa [show a + 4096 * (k + 1) = a + 4096 + 4096 * k by omega]

/-- What two parts of a table cost, one after the other. -/
theorem card_union_sdiff {α : Type} [DecidableEq α] (A B T : Finset α) :
    ((A ∪ B) \ T).card = (A \ T).card + (B \ (T ∪ A)).card := by
  rw [← Finset.card_union_of_disjoint]
  · congr 1
    ext p
    simp only [Finset.mem_sdiff, Finset.mem_union]
    tauto
  · rw [Finset.disjoint_left]
    intro p hp hp'
    simp only [Finset.mem_sdiff, Finset.mem_union] at hp hp'
    exact hp'.2 (.inr hp.1)

section
variable {A : Event → Prop} {s s' : Sys} {root pt f : Frame} {va : Nat} {T : Finset Spot}

theorem Built.congr (h : Built root T s) (hat : ∀ p, tableAt s'.mem root p = tableAt s.mem root p) :
    Built root T s' := fun p => by rw [hat]; exact h p

theorem Built.insert (h : Built root T s) {q : Spot}
    (hat : ∀ r, tableAt s'.mem root r = if r = q then some f else tableAt s.mem root r) :
    Built root (insert q T) s' := by
  intro p
  rw [hat, Finset.mem_insert]
  split
  · rename_i hp
    simp [hp]
  · rename_i hp
    simp [hp, h p]

/-- An entry of a last-level table is no table page. -/
theorem Built.writes (h : Built root T s) (hok : TableOk root s) {i : Nat}
    (ha : leafAddr s.mem root va = some (pt, i)) (c : Cell) : Built root T (s.setCell pt c) :=
  h.congr (hok.tree.tableAt_write (leafAddr_eq_some.mp ha).1 c)

/-- `kalloc`, seen from the pool. -/
theorem kalloc_pool :
    wp A kalloc ⟨fun r s' => match r with
        | none => Shuffled s s'
        | some f => ∃ s₁, Shuffled s s₁ ∧ s₁.pool = f :: s'.pool ∧
            s'.mem = Function.update s₁.mem f (Cell.fill 5),
      fun _ => False, fun _ => False⟩ s :=
  wp_kalloc (fun _ hs => hs) fun _ s₁ _ hs hpool hmem _ => ⟨s₁, hs, hpool, hmem⟩

/-- **The walk asks for a frame for every spot on its way that has no
table page.** -/
theorem walkFrom_counts {level : Nat} (hlevel : level ≤ 2) (h : TableOk root s)
    (hT : Built root T s) (hpt : tableAt s.mem root (spotOf va level) = some pt) :
    wp A (walkFrom va true level pt) ⟨fun r s' =>
        (∀ x, r = some x → Built root (T ∪ spotsBelow va level) s' ∧
          After (spotsBelow va level \ T).card s s') ∧
        (r = none → s.grants (spotsBelow va level \ T).card = false),
      fun _ => False, fun _ => False⟩ s := by
  induction level generalizing s pt T with
  | zero =>
      rw [walkFrom, wp_pure]
      refine ⟨fun x _ => ⟨?_, ?_⟩, by simp⟩
      · rw [spotsBelow, Finset.union_empty]
        exact hT
      · rw [spotsBelow, Finset.empty_sdiff, Finset.card_empty]
        exact .refl s
  | succ level ih =>
      have hq := spotOf_child (by omega : level < 2) va
      have hnext := tableAt_child hpt hq
      simp only [walkFrom, wp_bind, wp_readPte, spotsBelow]
      by_cases hv : ((s.mem pt).pte (px (level + 1) va)).v = true
      · rw [if_pos hv]
        rw [child, if_pos ⟨px_lt _ _, hv⟩] at hnext
        have hmem : spotOf va level ∈ T := (hT _).mp (by rw [hnext]; rfl)
        rw [Finset.insert_sdiff_of_mem _ hmem, Finset.union_insert,
          Finset.insert_eq_self.mpr (Finset.mem_union_left _ hmem)]
        exact ih (by omega) h hT hnext
      · rw [if_neg hv]
        have hnone : child s.mem pt (px (level + 1) va) = none := if_neg fun hc => hv hc.2
        have hnot : spotOf va level ∉ T := fun hm => by
          have := (hT _).mpr hm
          rw [hnext, hnone] at this
          cases this
        -- this spot, and then the ones below it
        have hcard : (insert (spotOf va level) (spotsBelow va level) \ T).card =
            1 + (spotsBelow va level \ insert (spotOf va level) T).card := by
          rw [Finset.insert_eq, card_union_sdiff, Finset.sdiff_eq_self_of_disjoint
            (Finset.disjoint_singleton_left.mpr hnot), Finset.card_singleton, Finset.union_comm T,
            ← Finset.insert_eq]
        simp only [Bool.not_true, Bool.false_eq_true, if_false, wp_bind]
        refine (kalloc_pool.and kalloc_grants).mono ?_ (fun _ h => h.1) (fun _ h => h.1)
        rintro r s₂ ⟨hr, hsome, hrefused⟩
        cases r with
        | none =>
            refine wp_pure.mpr ⟨by simp, fun _ => ?_⟩
            rw [hcard]
            exact refused_of_le (Nat.le_add_right _ _) (hrefused rfl)
        | some f =>
            obtain ⟨s₁, hs, hpool, hmem⟩ := hr
            obtain ⟨hlink, hat⟩ := h.growLink hs hpool hmem (px_lt _ _) hpt hq hnone
            have hnew := hat (spotOf va level)
            rw [if_pos rfl] at hnew
            have hone : After 1 s (s₂.link pt (px (level + 1) va) f) :=
              ((hsome f rfl).setCell _ _).setCell _ _
            simp only [wp_bind, wp_zeroFrame, wp_writePte]
            refine (ih (by omega) hlink.ok (hT.insert hat) hnew).weaken fun r s₃ hs₃ => ?_
            rw [hcard, Finset.union_insert, ← Finset.insert_union]
            exact ⟨fun x hx => ⟨(hs₃.1 x hx).1, hone.trans (hs₃.1 x hx).2⟩,
              fun hx => hone.refused (hs₃.2 hx)⟩

/-- **`walk` with `alloc`**: what it costs. -/
theorem walk_counts (h : TableOk root s) (hT : Built root T s) (hva : va < maxva) :
    wp A (walk root va true) ⟨fun r s' => Grows root s s' ∧
        (∀ x, r = some x → leafAddr s'.mem root va = some x ∧ Built root (T ∪ tablesFor va) s' ∧
          After (tablesFor va \ T).card s s') ∧
        (r = none → s.grants (tablesFor va \ T).card = false),
      fun _ => False, fun _ => False⟩ s := by
  have hwalk : walk root va true = walkFrom va true 2 root := if_neg (Nat.not_le.mpr hva)
  have hgrows := walk_grows (A := A) h hva
  rw [hwalk] at hgrows ⊢
  refine (hgrows.and (walkFrom_counts (Nat.le_refl 2) h hT rfl)).mono ?_ (fun _ h => h.1)
    (fun _ h => h.1)
  rintro r s' ⟨⟨hgrow, haddr⟩, hsome, hnone⟩
  exact ⟨hgrow, fun x hx => ⟨haddr x hx, hsome x hx⟩, hnone⟩

/-- **`mappages`** of a page that is not mapped fails for want of a table
page only. -/
theorem mappages_counts {pa : Frame} {perm : Perm} (h : TableOk root s) (hT : Built root T s)
    (hal : va % 4096 = 0) (hva : va < maxva) (hv : (leaf s.mem root va).v = false) :
    wp A (mappages root va 4096 pa perm) ⟨fun r s' =>
        (r = 0 ∧ Writes root va ⟨true, perm, pa⟩ s s' ∧ Built root (T ∪ tablesFor va) s' ∧
          After (tablesFor va \ T).card s s') ∨
        (r = -1 ∧ s.grants (tablesFor va \ T).card = false),
      fun _ => False, fun _ => False⟩ s := by
  unfold mappages
  rw [if_neg (by omega), if_neg (by decide), if_neg (by decide)]
  simp only [Nat.reduceDiv, mapLoop, wp_bind]
  refine (walk_counts h hT hva).weaken fun r s₁ hs₁ => ?_
  obtain ⟨hgrow, hsome, hnone⟩ := hs₁
  cases r with
  | none => exact wp_pure.mpr (.inr ⟨rfl, hnone rfl⟩)
  | some x =>
      obtain ⟨pt, i⟩ := x
      obtain ⟨haddr, hbuilt, hafter⟩ := hsome _ rfl
      have hinvalid : ((s₁.mem pt).pte i).v = false := by
        rw [← leaf_of_some haddr, hgrow.leaf, hv]
      simp only [wp_bind, wp_readPte, hinvalid, Bool.false_eq_true, if_false, wp_writePte]
      exact wp_pure.mpr (.inl ⟨rfl, hgrow.writes (hgrow.ok.writes hal hva haddr _),
        hbuilt.writes hgrow.ok haddr _, hafter.setCell _ _⟩)

/-- Of `n` pages from `a` on, those below `MAXVA`. -/
def pagesBelow (a n : Nat) : Nat := min n ((maxva - a) / 4096)

theorem pagesBelow_succ {a n : Nat} (hal : a % 4096 = 0) (ha : a < maxva) :
    pagesBelow a (n + 1) = pagesBelow (a + 4096) n + 1 := by
  unfold pagesBelow maxva at *
  omega

theorem tablesForPages_mono (a : Nat) {n m : Nat} (h : n ≤ m) :
    tablesForPages a n ⊆ tablesForPages a m :=
  Finset.biUnion_subset_biUnion_of_subset_left _ (Finset.range_mono h)

/-- **`lazyLoop`** fails for want of a table page only, and panics if it
leaves the address space before. -/
theorem lazyLoop_counts {xperm : Perm} {n a : Nat} (h : TableOk root s) (hT : Built root T s)
    (hal : a % 4096 = 0) :
    wp A (lazyLoop root xperm n a) ⟨fun r s' => TableOk root s' ∧
        (r = true → pagesBelow a n = n ∧ Built root (T ∪ tablesForPages a n) s' ∧
          After (tablesForPages a n \ T).card s s') ∧
        (r = false → s.grants (tablesForPages a (pagesBelow a n) \ T).card = false),
      fun _ => False, fun _ => pagesBelow a n < n ∧
        s.grants (tablesForPages a (pagesBelow a n) \ T).card = true⟩ s := by
  induction n generalizing a s T with
  | zero =>
      refine wp_pure.mpr ⟨h, fun _ => ⟨Nat.zero_min _, ?_, ?_⟩, by simp⟩
      · rw [tablesForPages, Finset.range_zero, Finset.biUnion_empty, Finset.union_empty]
        exact hT
      · rw [tablesForPages, Finset.range_zero, Finset.biUnion_empty, Finset.empty_sdiff,
          Finset.card_empty]
        exact .refl s
  | succ n ih =>
      rw [lazyLoop, wp_bind]
      by_cases ha : a < maxva
      · refine (walk_counts h hT ha).mono ?_ (fun _ h => h) (fun _ h => h.elim)
        rintro r s₁ ⟨hgrow, hsome, hnone⟩
        rw [pagesBelow_succ hal ha, tablesForPages_succ, tablesForPages_succ, card_union_sdiff,
          card_union_sdiff, ← Finset.union_assoc]
        cases r with
        | none =>
            refine wp_pure.mpr ⟨hgrow.ok, by simp, fun _ => ?_⟩
            exact refused_of_le (Nat.le_add_right _ _) (hnone rfl)
        | some x =>
            obtain ⟨pt, i⟩ := x
            obtain ⟨haddr, hbuilt, hafter⟩ := hsome _ rfl
            simp only [wp_bind, wp_writePte]
            have hw := hgrow.ok.writes hal ha haddr ⟨false, { xperm with u := true }, 0⟩
            have hafter₁ := hafter.setCell pt
              ((s₁.mem pt).setPte i ⟨false, { xperm with u := true }, 0⟩)
            refine (ih hw.ok (hbuilt.writes hgrow.ok haddr _) (by omega)).mono
              (fun r s₂ hs₂ => ?_) (fun _ h => h) fun _ hpanic => ?_
            · obtain ⟨hok, htrue, hfalse⟩ := hs₂
              refine ⟨hok, fun hr => ?_, fun hr => hafter₁.refused (hfalse hr)⟩
              obtain ⟨hall, hbuilt₂, hafter₂⟩ := htrue hr
              exact ⟨by rw [hall], hbuilt₂, hafter₁.trans hafter₂⟩
            · exact ⟨Nat.succ_lt_succ hpanic.1, (hafter₁ _).trans hpanic.2⟩
      · -- no page is left below `MAXVA`
        have hzero : pagesBelow a (n + 1) = 0 := by
          unfold pagesBelow
          omega
        refine walk_beyond (by omega) ⟨by omega, ?_⟩
        rw [hzero, tablesForPages, Finset.range_zero, Finset.biUnion_empty, Finset.empty_sdiff,
          Finset.card_empty]
        rfl

/-! ## A new table -/

/-- The spots of the table `procPagetable` makes: the root, and the way to
the two top pages. -/
def topSpots : Finset Spot := insert .top (tablesFor trampolineVa)

theorem topSpots_card : topSpots.card = 3 := by decide

/-- A zeroed page is a root without tables. -/
theorem Built.empty (hroot : s.mem root = Cell.fill 0) : Built root {.top} s := by
  have hnone : ∀ i, child s.mem root i = none := fun i => by simp [child, hroot]
  intro p
  rw [Finset.mem_singleton]
  cases p with
  | top => simp [tableAt]
  | mid i => simp [tableAt, hnone]
  | low i j => simp [tableAt, hnone]

/-- **`proc_pagetable`** needs three frames, and fails only without them. -/
theorem procPagetable_counts {tf : Frame} (hnd : s.pool.Nodup) :
    wp A (procPagetable tf) ⟨fun r s' =>
        (∀ root, r = some root → TableOk root s' ∧ Built root topSpots s' ∧
          After topSpots.card s s') ∧
        (r = none → s.grants topSpots.card = false),
      fun _ => True, fun _ => True⟩ s := by
  rw [topSpots_card]
  unfold procPagetable uvmcreate
  simp only [wp_bind]
  refine (kalloc_pool.and kalloc_grants).mono ?_ (fun _ _ => trivial) (fun _ _ => trivial)
  rintro r s₁ ⟨hr, hsome, hrefused⟩
  cases r with
  | none =>
      simp only [wp_pure]
      exact ⟨by simp, fun _ => refused_of_le (by decide) (hrefused rfl)⟩
  | some root =>
      obtain ⟨s₀, hs, hpool, hmem⟩ := hr
      have hone := (hsome root rfl).setCell root (Cell.fill 0)
      have hnd₁ : (root :: s₁.pool).Nodup := by
        rw [← hpool]
        exact hs.pool.nodup_iff.mpr hnd
      have hzero : (s₁.setCell root (Cell.fill 0)).mem root = Cell.fill 0 :=
        Function.update_self ..
      have hok : TableOk root (s₁.setCell root (Cell.fill 0)) :=
        .empty hzero (List.nodup_cons.mp hnd₁).1 (List.nodup_cons.mp hnd₁).2
      have hblank : ∀ a, leaf (s₁.setCell root (Cell.fill 0)).mem root a = Pte.zero := by
        intro a
        refine leaf_of_none ?_
        unfold leafAddr
        rw [hzero, Cell.pte_fill_zero]
        rfl
      simp only [wp_bind, wp_zeroFrame, wp_pure, wp_get]
      generalize s₁.setCell root (Cell.fill 0) = s₂ at hone hzero hok hblank ⊢
      have hfail : ∀ {x : Prog Sys Event Unit} {s' : Sys}, s.grants 3 = false →
          wp A (do x; pure none) ⟨fun r s' =>
              (∀ root, r = some root → TableOk root s' ∧ Built root topSpots s' ∧ After 3 s s') ∧
              (r = none → s.grants 3 = false), fun _ => True, fun _ => True⟩ s' := by
        intro x s' hg
        rw [wp_bind]
        exact .of_forall (fun _ _ => wp_pure.mpr ⟨by simp, fun _ => hg⟩) (fun _ => trivial)
          fun _ => trivial
      refine (mappages_counts hok (.empty hzero) (by decide) (by decide)
        (by rw [hblank]; rfl)).mono ?_ (fun _ _ => trivial) (fun _ _ => trivial)
      rintro r s₃ (⟨rfl, hw, hbuilt, hafter⟩ | ⟨rfl, hno⟩) <;> dsimp only
      · have hthree := hone.trans hafter
        rw [if_neg (by decide), wp_bind]
        refine (mappages_counts hw.ok hbuilt (by decide) (by decide) ?_).mono ?_
          (fun _ _ => trivial) (fun _ _ => trivial)
        · rw [hw.leaf _ (by decide) (by decide), if_neg (by decide), hblank]
          rfl
        · -- the tables on the way to the trapframe page are there
          have hsame : tablesFor trapframeVa \ ({.top} ∪ tablesFor trampolineVa) = ∅ := by decide
          rintro r s₄ (⟨rfl, hw₄, hbuilt₄, hafter₄⟩ | ⟨rfl, hno⟩) <;> dsimp only
          · rw [if_neg (by decide)]
            refine wp_pure.mpr ⟨fun root' hr => ?_, by simp⟩
            cases hr
            refine ⟨hw₄.ok, ?_, ?_⟩
            · rw [show {.top} ∪ tablesFor trampolineVa ∪ tablesFor trapframeVa = topSpots by decide]
                at hbuilt₄
              exact hbuilt₄
            · have hall := hthree.trans hafter₄
              rw [hsame] at hall
              exact hall
          · rw [hsame] at hno
            cases hno
      · rw [if_pos (by decide)]
        exact hfail (hone.refused hno)

end

end OsSuite.Xv6
