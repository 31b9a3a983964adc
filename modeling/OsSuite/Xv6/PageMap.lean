import OsSuite.Xv6.PageTableSpec

/-!
# PageMap — the page table refines a finite map

`lookup m root` is the map a page table stands for: the frame and the
permissions of every page with a valid leaf. The table is only asked to
be a TREE of pages that the allocator does not hold (`TableOk`): nothing
is known about what the leaves point to, so a frame may be mapped twice,
or be a page of the kernel. On such tables `mappages` inserts, `uvmunmap`
deletes a range and `ulazymalloc` deletes or keeps, whatever `kalloc`
answers and whatever the other CPUs do meanwhile.
-/

namespace OsSuite.Xv6

/-! ## Entries as words -/

/-- `PA2PTE(pa)` -/
def pa2pte (pa : Nat) : Nat := pa >>> 12 <<< 10

/-- The flag bits `PTE_R`, `PTE_W`, `PTE_X` and `PTE_U`. -/
def Perm.bits (p : Perm) : Nat :=
  p.r.toNat <<< 1 ||| p.w.toNat <<< 2 ||| p.x.toNat <<< 3 ||| p.u.toNat <<< 4

/-- `PA2PTE(pa) | perm | PTE_V`, for the frame at `pa`. -/
def leafWord (pa : Frame) (perm : Perm) : Nat := pa2pte (pa * 4096) ||| (perm.bits ||| 1)

theorem leafWord_eq (pa : Frame) (perm : Perm) :
    leafWord pa perm = Pte.toWord ⟨true, perm, pa⟩ := by
  obtain ⟨r, w, x, u⟩ := perm
  have hshift : (pa * 4096) >>> 12 = pa := by
    rw [Nat.shiftRight_eq_div_pow]
    exact Nat.mul_div_cancel pa (by decide)
  have hbits : (Perm.bits ⟨r, w, x, u⟩ ||| 1) =
      1 + 2 * r.toNat + 4 * w.toNat + 8 * x.toNat + 16 * u.toNat := by
    cases r <;> cases w <;> cases x <;> cases u <;> rfl
  have hlt : (Perm.bits ⟨r, w, x, u⟩ ||| 1) < 2 ^ 10 := by
    cases r <;> cases w <;> cases x <;> cases u <;> decide
  rw [leafWord, pa2pte, hshift, ← Nat.shiftLeft_add_eq_or_of_lt hlt, Nat.shiftLeft_eq, hbits,
    Nat.add_comm, Nat.mul_comm pa]
  rfl

/-- **The fields of an entry survive its word**, for every frame that a
64-bit address can name. -/
theorem Pte.ofWord_toWord {e : Pte} (h : e.pa < 2 ^ 52) : Pte.ofWord e.toWord = e := by
  obtain ⟨v, ⟨r, w, x, u⟩, (pa : Nat)⟩ := e
  have key : ∀ {b : Bool} {n : Nat}, n = b.toNat → decide (n = 1) = b := by
    rintro b n rfl
    cases b <;> rfl
  have hv := Bool.toNat_le v
  have hr := Bool.toNat_le r
  have hw := Bool.toNat_le w
  have hx := Bool.toNat_le x
  have hu := Bool.toNat_le u
  have hpa : pa < 4503599627370496 := h
  simp only [Pte.ofWord, Pte.toWord, Nat.testBit_eq_decide_div_mod_eq, Pte.mk.injEq, Perm.mk.injEq,
    Nat.reducePow]
  refine ⟨key (by omega), ⟨key (by omega), key (by omega), key (by omega), key (by omega)⟩, ?_⟩
  show (_ : Nat) = _
  omega

/-! ## The allocator's frames -/

/-- The frames in the allocator's hands: free, or with other CPUs. -/
def Sys.pool (s : Sys) : List Frame := s.freelist ++ s.held

/-- The allocator's frames are distinct pages of its range. -/
structure PoolOk (s : Sys) : Prop where
  nodup : s.pool.Nodup
  range : ∀ f ∈ s.pool, s.kend ≤ f ∧ f < phystop
  kend_le : 524288 ≤ s.kend

/-- The owners of all frames, when only the allocator's are known. -/
def Sys.roles (s : Sys) (f : Frame) : Role :=
  if f ∈ s.freelist then .free else if f ∈ s.held then .held else .kernel

theorem PoolOk.inv {s : Sys} (h : PoolOk s) : SysInv s.roles s := by
  have hnd := h.nodup
  rw [Sys.pool, List.nodup_append] at hnd
  obtain ⟨hfree, hheld, hdisj⟩ := hnd
  refine ⟨hfree, fun f => ?_, hheld, fun f => ?_, fun f hf => h.range f ?_, h.kend_le⟩
  · unfold Sys.roles
    split
    · simp [*]
    · split <;> simp [*]
  · unfold Sys.roles
    split
    · rename_i hm
      exact ⟨fun hh => absurd rfl (hdisj f hm f hh), nofun⟩
    · split <;> simp [*]
  · unfold Sys.roles at hf
    rw [Sys.pool, List.mem_append]
    split at hf
    · exact .inl ‹_›
    · split at hf
      · exact .inr ‹_›
      · exact absurd rfl hf

/-- Other CPUs move frames within the pool, and write nowhere else. -/
structure Shuffled (s s' : Sys) : Prop where
  pool : s'.pool.Perm s.pool
  mem : ∀ f, f ∉ s.pool → s'.mem f = s.mem f

theorem Shuffled.refl (s : Sys) : Shuffled s s := ⟨.refl _, fun _ _ => rfl⟩

theorem Shuffled.trans {s s' s'' : Sys} (h : Shuffled s s') (h' : Shuffled s' s'') :
    Shuffled s s'' :=
  ⟨h'.pool.trans h.pool, fun f hf => (h'.mem f fun hm => hf (h.pool.mem_iff.mp hm)).trans (h.mem f hf)⟩

theorem shuffled_intf (s : Sys) (a : Intf) : Shuffled s (s.intf a) := by
  unfold Sys.intf
  cases a with
  | take =>
      dsimp only
      cases hl : s.freelist with
      | nil => exact .refl s
      | cons f rest =>
          refine ⟨?_, fun g hg => Function.update_of_ne ?_ _ _⟩
          · show (rest ++ f :: s.held).Perm (s.freelist ++ s.held)
            rw [hl]
            exact List.perm_middle
          · rintro rfl
            exact hg (by simp [Sys.pool, hl])
  | give i =>
      dsimp only
      cases hi : s.held[i]? with
      | none => exact .refl s
      | some f =>
          obtain ⟨hlt, hf⟩ := List.getElem?_eq_some_iff.mp hi
          refine ⟨?_, fun g hg => Function.update_of_ne ?_ _ _⟩
          · show (f :: s.freelist ++ s.held.eraseIdx i).Perm (s.freelist ++ s.held)
            have hperm : (f :: s.held.eraseIdx i).Perm s.held := by
              rw [← hf]
              exact List.getElem_cons_eraseIdx_perm hlt
            exact List.perm_middle.symm.trans (hperm.append_left _)
          · rintro rfl
            exact hg (List.mem_append_right _ (List.mem_of_getElem? hi))

theorem shuffled_others (s : Sys) : Shuffled s s.others := by
  have hfold : ∀ (g : List Intf) (s : Sys), Shuffled s (g.foldl Sys.intf s) := by
    intro g
    induction g with
    | nil => exact .refl
    | cons a g ih => exact fun s => (shuffled_intf s a).trans (ih _)
  unfold Sys.others
  cases s.script with
  | nil => exact .refl s
  | cons g rest =>
      have h := hfold g { s with script := rest }
      exact ⟨h.pool, h.mem⟩

section
variable {A : Event → Prop} {s s' s'' : Sys} {root pt f : Frame} {va : Nat}

/-- **`kalloc`** takes a frame out of the pool, or finds none. -/
theorem wp_kalloc {Q : Post Sys (Option Frame)}
    (hnone : ∀ s', Shuffled s s' → Q.ret none s')
    (hsome : ∀ f s' s'', Shuffled s s' → s'.pool = f :: s''.pool →
      s''.mem = Function.update s'.mem f (Cell.fill 5) → s''.kend = s'.kend → Q.ret (some f) s'') :
    wp A kalloc Q s := by
  have h := shuffled_others s
  unfold wp kalloc
  cases hl : s.others.freelist with
  | nil =>
      simp only [hl]
      exact fun _ => hnone _ h
  | cons f rest =>
      simp only [hl]
      exact fun _ => hsome f _ _ h (by simp [Sys.pool, hl, Sys.setCell]) rfl rfl

/-! ## Well-formed tables -/

/-- **A well-formed table**: a tree of pages, none of which is in the
pool; and the pool holds no frame twice. -/
structure TableOk (root : Frame) (s : Sys) : Prop where
  tree : TableTree s.mem root
  busy : ∀ p t, tableAt s.mem root p = some t → t ∉ s.pool
  pool : s.pool.Nodup

/-- The map a page table stands for. -/
def lookup (m : Mem) (root : Frame) (va : Nat) : Option (Frame × Perm) :=
  if (leaf m root va).v then some ((leaf m root va).pa, (leaf m root va).perm) else none

/-- The table is still well formed, and no entry has changed. -/
structure Extends (root : Frame) (s s' : Sys) : Prop where
  ok : TableOk root s'
  leaf : ∀ a, leaf s'.mem root a = leaf s.mem root a

theorem Extends.trans (h : Extends root s s') (h' : Extends root s' s'') : Extends root s s'' :=
  ⟨h'.ok, fun a => (h'.leaf a).trans (h.leaf a)⟩

/-- The table is still well formed, and no table page has changed. -/
structure Untouched (root : Frame) (s s' : Sys) : Prop where
  ok : TableOk root s'
  mem : ∀ p t, tableAt s.mem root p = some t → s'.mem t = s.mem t

theorem Untouched.tableAt (h : Untouched root s s') (p : Spot) :
    tableAt s'.mem root p = Xv6.tableAt s.mem root p :=
  tableAt_congr (fun p t _ => h.mem p t) p

theorem Untouched.trans (h : Untouched root s s') (h' : Untouched root s' s'') :
    Untouched root s s'' :=
  ⟨h'.ok, fun p t hp => (h'.mem p t (by rw [h.tableAt]; exact hp)).trans (h.mem p t hp)⟩

theorem Untouched.extends (h : Untouched root s s') : Extends root s s' := ⟨h.ok, leaf_congr h.mem⟩

theorem TableOk.untouched (h : TableOk root s)
    (hmem : ∀ p t, tableAt s.mem root p = some t → s'.mem t = s.mem t)
    (hpool : ∀ p t, tableAt s.mem root p = some t → t ∉ s'.pool) (hnd : s'.pool.Nodup) :
    Untouched root s s' where
  ok :=
    { tree := h.tree.congr fun p t _ => hmem p t
      busy := fun p t hp => by
        rw [tableAt_congr fun p t _ => hmem p t] at hp
        exact hpool p t hp
      pool := hnd }
  mem := hmem

theorem TableOk.shuffled (h : TableOk root s) (hs : Shuffled s s') : Untouched root s s' :=
  h.untouched (fun p t hp => hs.mem t (h.busy p t hp))
    (fun p t hp hm => h.busy p t hp (hs.pool.mem_iff.mp hm)) (hs.pool.nodup_iff.mpr h.pool)

/-- A frame leaves the pool, whatever is written to it. -/
theorem TableOk.take (h : TableOk root s) (hpool : s.pool = f :: s'.pool) {c : Cell}
    (hmem : s'.mem = Function.update s.mem f c) : Untouched root s s' := by
  have hf : f ∈ s.pool := by simp [hpool]
  have hnd := h.pool
  rw [hpool, List.nodup_cons] at hnd
  refine h.untouched (fun p t hp => ?_) (fun p t hp hm => h.busy p t hp (by simp [hpool, hm])) hnd.2
  rw [hmem, Function.update_of_ne]
  rintro rfl
  exact h.busy p t hp hf

/-- A frame that hangs nowhere joins the pool, whatever is written to it. -/
theorem TableOk.give (h : TableOk root s) (hf : f ∉ s.pool) (hun : Unlinked s.mem root f)
    (hpool : s'.pool = f :: s.pool) {c : Cell} (hmem : s'.mem = Function.update s.mem f c) :
    Untouched root s s' := by
  have hne : ∀ p t, tableAt s.mem root p = some t → t ≠ f := by
    rintro p t hp rfl
    exact hun p hp
  refine h.untouched (fun p t hp => ?_) (fun p t hp hm => ?_) ?_
  · rw [hmem, Function.update_of_ne (hne p t hp)]
  · rw [hpool, List.mem_cons] at hm
    exact hm.elim (hne p t hp) (h.busy p t hp)
  · rw [hpool, List.nodup_cons]
    exact ⟨hf, h.pool⟩

/-- A new table page is linked in. -/
theorem TableOk.link (h : TableOk root s) (hun : Unlinked s.mem root f) (hf : f ∉ s.pool)
    {p q : Spot} {i : Nat} (hi : i < 512) (hp : tableAt s.mem root p = some pt)
    (hq : p.child i = some q) (hv : child s.mem pt i = none)
    (hmem : s'.mem = linkTable s.mem pt i f) (hpool : s'.pool = s.pool) :
    Extends root s s' ∧
      ∀ r, tableAt s'.mem root r = if r = q then some f else tableAt s.mem root r := by
  have hat := h.tree.tableAt_link hun hi hp hq hv
  refine ⟨⟨⟨?_, fun r t hr => ?_, ?_⟩, fun a => ?_⟩, fun r => ?_⟩
  · rw [hmem]
    exact h.tree.link hun hi hp hq hv
  · rw [hmem, hat] at hr
    rw [hpool]
    split at hr
    · cases hr
      exact hf
    · exact h.busy r t hr
  · rw [hpool]
    exact h.pool
  · rw [hmem]
    exact h.tree.leaf_link hun hi hp hq hv a
  · rw [hmem, hat]

/-- **No frame is lost**: every frame that has left the pool is a new table
page. -/
def FramesKept (root : Frame) (s s' : Sys) : Prop :=
  ∃ l, s.pool.Perm (l ++ s'.pool) ∧
    ∀ f ∈ l, ∃ p, tableAt s.mem root p = none ∧ tableAt s'.mem root p = some f

/-- **The table has grown**: no entry has changed, and no frame is lost. -/
structure Grows (root : Frame) (s s' : Sys) : Prop extends Extends root s s' where
  kept : ∀ p t, tableAt s.mem root p = some t → tableAt s'.mem root p = some t
  fresh : ∀ p t, tableAt s'.mem root p = some t → tableAt s.mem root p = some t ∨ t ∈ s.pool
  taken : FramesKept root s s'

theorem Grows.trans (h : Grows root s s') (h' : Grows root s' s'') : Grows root s s'' where
  toExtends := h.toExtends.trans h'.toExtends
  kept p t hp := h'.kept p t (h.kept p t hp)
  fresh p t hp := by
    obtain ⟨l, hl, -⟩ := h.taken
    rcases h'.fresh p t hp with hp | ht
    · exact h.fresh p t hp
    · exact .inr (hl.mem_iff.mpr (List.mem_append_right l ht))
  taken := by
    obtain ⟨l, hl, hat⟩ := h.taken
    obtain ⟨l', hl', hat'⟩ := h'.taken
    refine ⟨l ++ l', ?_, fun f hf => ?_⟩
    · rw [List.append_assoc]
      exact hl.trans (hl'.append_left l)
    · rcases List.mem_append.mp hf with hf | hf
      · obtain ⟨p, hnone, hsome⟩ := hat f hf
        exact ⟨p, hnone, h'.kept p f hsome⟩
      · obtain ⟨p, hnone, hsome⟩ := hat' f hf
        refine ⟨p, ?_, hsome⟩
        -- what hung there before would still hang there
        cases hp : Xv6.tableAt s.mem root p with
        | none => rfl
        | some t =>
            rw [h.kept p t hp] at hnone
            cases hnone

/-- Nothing hangs anywhere new. -/
theorem Untouched.grows (h : Untouched root s s') (hpool : s.pool.Perm s'.pool) :
    Grows root s s' where
  toExtends := h.extends
  kept p t hp := by rw [h.tableAt p]; exact hp
  fresh p t hp := .inl (by rw [← h.tableAt p]; exact hp)
  taken := ⟨[], hpool, fun f hf => absurd hf List.not_mem_nil⟩

theorem Grows.refl (h : TableOk root s) : Grows root s s :=
  (h.shuffled (.refl s)).grows (.refl _)

/-- A frame that was in nobody's hands hangs nowhere in the grown table. -/
theorem Grows.unlinked (h : Grows root s s') (hun : Unlinked s.mem root f) (hf : f ∉ s.pool) :
    Unlinked s'.mem root f ∧ f ∉ s'.pool := by
  obtain ⟨l, hl, -⟩ := h.taken
  refine ⟨fun p hp => ?_, fun hm => hf (hl.mem_iff.mpr (List.mem_append_right l hm))⟩
  rcases h.fresh p f hp with hp | hm
  · exact hun p hp
  · exact hf hm

/-- A frame that `kalloc` has handed out is in nobody's hands. -/
theorem TableOk.handed (h : TableOk root s) (hs : Shuffled s s') (hpool : s'.pool = f :: s''.pool)
    {c : Cell} (hmem : s''.mem = Function.update s'.mem f c) :
    Untouched root s s'' ∧ s.pool.Perm (f :: s''.pool) ∧ Unlinked s''.mem root f ∧
      f ∉ s''.pool := by
  have h₁ := h.shuffled hs
  have h₂ := h₁.trans (h₁.ok.take hpool hmem)
  have hperm : s.pool.Perm (f :: s''.pool) := hpool ▸ hs.pool.symm
  refine ⟨h₂, hperm, fun p hp => ?_, ?_⟩
  · -- the frame was in the pool, so it was no table page
    rw [h₂.tableAt p] at hp
    exact h.busy p f hp (hperm.mem_iff.mpr List.mem_cons_self)
  · exact (List.nodup_cons.mp (hperm.nodup_iff.mp h.pool)).1

/-- The frame `f` is zeroed and entered at index `i` of the table `pt`. -/
def Sys.link (s : Sys) (pt : Frame) (i : Nat) (f : Frame) : Sys :=
  (s.setCell f (Cell.fill 0)).setCell pt
    (((s.setCell f (Cell.fill 0)).mem pt).setPte i (Pte.table f))

/-- **A frame leaves the pool and is linked in.** -/
theorem TableOk.growLink (h : TableOk root s) (hs : Shuffled s s')
    (hpool : s'.pool = f :: s''.pool) {c : Cell} (hmem : s''.mem = Function.update s'.mem f c)
    {p q : Spot} {i : Nat} (hi : i < 512) (hp : tableAt s.mem root p = some pt)
    (hq : p.child i = some q) (hv : child s.mem pt i = none) :
    Grows root s (s''.link pt i f) ∧
      ∀ r, tableAt (s''.link pt i f).mem root r = if r = q then some f else tableAt s.mem root r := by
  obtain ⟨h₂, hperm, hun, hf⟩ := h.handed hs hpool hmem
  have hp₂ : tableAt s''.mem root p = some pt := by rw [h₂.tableAt, hp]
  have hne : pt ≠ f := fun he => hun _ (he ▸ hp₂)
  have hlink : (s''.link pt i f).mem = linkTable s''.mem pt i f := by
    simp only [Sys.link, Sys.setCell, linkTable, Function.update_of_ne hne]
  have hnone : tableAt s.mem root q = none := by rw [tableAt_child hp hq, hv]
  obtain ⟨hext, hat⟩ := h₂.ok.link hun hf hi hp₂ hq (by rw [child_congr (h₂.mem _ _ hp), hv])
    hlink rfl
  simp only [h₂.tableAt] at hat
  refine ⟨⟨h₂.extends.trans hext, fun r t hr => ?_, fun r t hr => ?_, [f], hperm, fun g hg => ?_⟩,
    hat⟩
  · rw [hat, if_neg]
    · exact hr
    · rintro rfl
      rw [hnone] at hr
      cases hr
  · rw [hat] at hr
    split at hr
    · cases hr
      exact .inr (hperm.mem_iff.mpr List.mem_cons_self)
    · exact .inl hr
  · rw [List.mem_singleton.mp hg]
    exact ⟨q, hnone, by rw [hat, if_pos rfl]⟩

/-! ## `walk` -/

/-- The spot that a walk for `va` is at, on a level. -/
def spotOf (va : Nat) : Nat → Spot
  | 0 => .low (px 2 va) (px 1 va)
  | 1 => .mid (px 2 va)
  | _ + 2 => .top

theorem spotOf_child {level : Nat} (h : level < 2) (va : Nat) :
    (spotOf va (level + 1)).child (px (level + 1) va) = some (spotOf va level) := by
  have : level = 0 ∨ level = 1 := by omega
  rcases this with rfl | rfl <;> rfl

/-- The walk down from any level, with allocation. -/
theorem walkFrom_grows {level : Nat} (hlevel : level ≤ 2) (h : TableOk root s)
    (hpt : tableAt s.mem root (spotOf va level) = some pt) :
    wp A (walkFrom va true level pt) ⟨fun r s' => Grows root s s' ∧
        ∀ x, r = some x → leafAddr s'.mem root va = some x,
      fun _ => False, fun _ => False⟩ s := by
  induction level generalizing s pt with
  | zero =>
      rw [walkFrom, wp_pure]
      refine ⟨.refl h, fun x hx => ?_⟩
      cases hx
      exact leafAddr_eq_some.mpr ⟨hpt, rfl⟩
  | succ level ih =>
      have hq := spotOf_child (by omega : level < 2) va
      have hnext := tableAt_child hpt hq
      simp only [walkFrom, wp_bind, wp_readPte]
      by_cases hv : ((s.mem pt).pte (px (level + 1) va)).v = true
      · rw [if_pos hv]
        refine ih (by omega) h ?_
        rw [hnext]
        exact if_pos ⟨px_lt _ _, hv⟩
      · rw [if_neg hv]
        have hnone : child s.mem pt (px (level + 1) va) = none := if_neg fun hc => hv hc.2
        simp only [Bool.not_true, Bool.false_eq_true, if_false, wp_bind]
        refine wp_kalloc (fun s₁ hs => ?_) fun f s₁ s₂ hs hpool hmem _ => ?_
        · exact wp_pure.mpr ⟨(h.shuffled hs).grows hs.pool.symm, nofun⟩
        · simp only [wp_bind, wp_zeroFrame, wp_writePte]
          obtain ⟨hlink, hat⟩ := h.growLink hs hpool hmem (px_lt _ _) hpt hq hnone
          have hnew := hat (spotOf va level)
          rw [if_pos rfl] at hnew
          refine (ih (by omega) hlink.ok hnew).mono ?_ (fun _ h => h) (fun _ h => h)
          rintro r s₃ ⟨h₃, hr⟩
          exact ⟨hlink.trans h₃, hr⟩

/-- **`walk` with `alloc`** changes no entry, whether it succeeds or not. -/
theorem walk_grows (h : TableOk root s) (hva : va < maxva) :
    wp A (walk root va true) ⟨fun r s' => Grows root s s' ∧
        ∀ x, r = some x → leafAddr s'.mem root va = some x,
      fun _ => False, fun _ => False⟩ s := by
  unfold walk
  rw [if_neg (Nat.not_le.mpr hva)]
  exact walkFrom_grows (Nat.le_refl 2) h rfl

/-! ## Writing an entry -/

/-- The table is still well formed, and the entry for `va` is now `e`. -/
structure Writes (root : Frame) (va : Nat) (e : Pte) (s s' : Sys) : Prop where
  ok : TableOk root s'
  leaf : ∀ a, a % 4096 = 0 → a < maxva →
    leaf s'.mem root a = if a = va then e else leaf s.mem root a

theorem TableOk.writes (h : TableOk root s) (hal : va % 4096 = 0) (hva : va < maxva) {i : Nat}
    (ha : leafAddr s.mem root va = some (pt, i)) (e : Pte) :
    Writes root va e s (s.setCell pt ((s.mem pt).setPte i e)) := by
  obtain ⟨hpt, rfl⟩ := leafAddr_eq_some.mp ha
  refine ⟨⟨h.tree.write hpt _, fun p t hp => ?_, h.pool⟩,
    fun a hala ha => h.tree.leaf_write hal hva hpt e hala ha⟩
  exact h.busy p t (by rw [← h.tree.tableAt_write hpt]; exact hp)

theorem Extends.writes (h : Extends root s s') {e : Pte} (h' : Writes root va e s' s'') :
    Writes root va e s s'' :=
  ⟨h'.ok, fun a hal ha => by rw [h'.leaf a hal ha, h.leaf]⟩

/-- **`mappages`** of one page inserts, or changes no entry. -/
theorem mappages_writes {pa : Frame} {perm : Perm} (h : TableOk root s) (hal : va % 4096 = 0)
    (hva : va < maxva) :
    wp A (mappages root va 4096 pa perm) ⟨fun r s' =>
        (r = 0 ∧ Writes root va ⟨true, perm, pa⟩ s s') ∨ (r = -1 ∧ Grows root s s'),
      fun _ => False, fun _ => False⟩ s := by
  unfold mappages
  rw [if_neg (by omega), if_neg (by decide), if_neg (by decide)]
  simp only [Nat.reduceDiv, mapLoop, wp_bind]
  refine (walk_grows h hva).mono ?_ (fun _ h => h) (fun _ h => h)
  rintro r s₁ ⟨hgrow, hr⟩
  cases r with
  | none => exact wp_pure.mpr (.inr ⟨rfl, hgrow⟩)
  | some x =>
      obtain ⟨pt, i⟩ := x
      simp only [wp_bind, wp_readPte]
      split
      · exact wp_pure.mpr (.inr ⟨rfl, hgrow⟩)
      · simp only [wp_bind, wp_writePte]
        exact wp_pure.mpr (.inl ⟨rfl, hgrow.writes (hgrow.ok.writes hal hva (hr _ rfl) _)⟩)

/-! ## `uvmunmap` -/

/-- **Pages that `kfree` may be given**: distinct frames of the allocator's
range that it does not hold, and that are no table pages. -/
structure Reclaimable (root : Frame) (s : Sys) (l : List Frame) : Prop where
  nodup : l.Nodup
  range : ∀ f ∈ l, s.kend ≤ f ∧ f < phystop
  busy : ∀ f ∈ l, f ∉ s.pool
  unlinked : ∀ f ∈ l, Unlinked s.mem root f

theorem wp_kfree {Q : Post Sys Unit} (h : s.kend ≤ f ∧ f < phystop) :
    wp A (kfree f) Q s ↔
      Q.ret () ({ s with freelist := f :: s.freelist }.setCell f (Cell.fill 1)) := by
  have hc : (f < s.kend || phystop ≤ f) = false := by
    simp only [Bool.or_eq_false_iff, decide_eq_false_iff_not]
    exact ⟨Nat.not_lt.mpr h.1, Nat.not_le.mpr h.2⟩
  simp [wp, kfree, hc, Out.Sat]

/-- Freeing the page at `va` and clearing its entry. -/
theorem TableOk.unmapFree (h : TableOk root s) (hal : va % 4096 = 0) (hva : va < maxva) {i : Nat}
    (ha : leafAddr s.mem root va = some (pt, i)) {l : List Frame}
    (hl : Reclaimable root s (f :: l)) :
    Writes root va Pte.zero s (s.unmapFree pt i f) ∧ Reclaimable root (s.unmapFree pt i f) l := by
  obtain ⟨hpt, hi⟩ := leafAddr_eq_some.mp ha
  have hgive : Untouched root s ({ s with freelist := f :: s.freelist }.setCell f (Cell.fill 1)) :=
    h.give (hl.busy f List.mem_cons_self) (hl.unlinked f List.mem_cons_self) rfl rfl
  have hpt' := (hgive.tableAt _).trans hpt
  have hw := hgive.ok.writes hal hva (leafAddr_eq_some.mpr ⟨hpt', hi⟩) Pte.zero
  refine ⟨hgive.extends.writes hw, (List.nodup_cons.mp hl.nodup).2,
    fun g hg => hl.range g (List.mem_cons_of_mem _ hg), fun g hg hm => ?_, fun g hg p hp => ?_⟩
  · rcases List.mem_cons.mp (show g ∈ f :: s.pool from hm) with rfl | hm
    · exact (List.nodup_cons.mp hl.nodup).1 hg
    · exact hl.busy g (List.mem_cons_of_mem _ hg) hm
  · refine hl.unlinked g (List.mem_cons_of_mem _ hg) p ?_
    rw [← hgive.tableAt, ← hgive.ok.tree.tableAt_write hpt']
    exact hp

/-- **`uvmunmap`** deletes the pages of its range. -/
theorem unmapLoop_deletes {doFree : Bool} {n a : Nat} (h : TableOk root s) (hal : a % 4096 = 0)
    (hmax : a + 4096 * n ≤ maxva)
    (hfree : doFree = true → Reclaimable root s (mappedIn s.mem root n a)) :
    wp A (unmapLoop root doFree n a) ⟨fun _ s' => TableOk root s' ∧
        ∀ b, b % 4096 = 0 → b < maxva → leaf s'.mem root b = unmapped s.mem root n a b,
      fun _ => False, fun _ => False⟩ s := by
  induction n generalizing a s with
  | zero =>
      refine wp_pure.mpr ⟨h, fun b _ _ => ?_⟩
      rw [unmapped, if_neg (by omega)]
  | succ n ih =>
      have ha : a < maxva := by omega
      simp only [unmapLoop, wp_bind, wp_walk_noalloc ha]
      -- a page without a valid entry is passed over
      have hskip : (leaf s.mem root a).v = false →
          wp A (unmapLoop root doFree n (a + 4096)) ⟨fun _ s' => TableOk root s' ∧
            ∀ b, b % 4096 = 0 → b < maxva → leaf s'.mem root b = unmapped s.mem root (n + 1) a b,
          fun _ => False, fun _ => False⟩ s := by
        intro hv
        rw [mappedIn, if_neg (by simp [hv])] at hfree
        refine (ih h (by omega) (by omega) hfree).mono ?_ (fun _ h => h) (fun _ h => h)
        rintro _ s' ⟨hok, hl⟩
        refine ⟨hok, fun b hbal hb => ?_⟩
        rw [hl b hbal hb]
        by_cases hba : b = a
        · subst hba
          simp [unmapped, hv]
        · exact unmapped_succ hal hbal hba
      -- a page with one is deleted, and then the others
      have hrest : ∀ s₁, (leaf s.mem root a).v = true → Writes root a Pte.zero s s₁ →
          (doFree = true → Reclaimable root s₁ (mappedIn s.mem root n (a + 4096))) →
          wp A (unmapLoop root doFree n (a + 4096)) ⟨fun _ s' => TableOk root s' ∧
            ∀ b, b % 4096 = 0 → b < maxva → leaf s'.mem root b = unmapped s.mem root (n + 1) a b,
          fun _ => False, fun _ => False⟩ s₁ := by
        intro s₁ hv hw hfree₁
        have hsame : ∀ b, b % 4096 = 0 → b < maxva → b ≠ a →
            leaf s₁.mem root b = leaf s.mem root b :=
          fun b hbal hb hne => by rw [hw.leaf b hbal hb, if_neg hne]
        rw [← mappedIn_congr fun k hk => hsame _ (by omega) (by omega) (by omega)] at hfree₁
        refine (ih hw.ok (by omega) (by omega) hfree₁).mono ?_ (fun _ h => h) (fun _ h => h)
        rintro _ s' ⟨hok, hl⟩
        refine ⟨hok, fun b hbal hb => ?_⟩
        rw [hl b hbal hb]
        by_cases hba : b = a
        · subst hba
          rw [unmapped, unmapped, if_neg (by omega), hw.leaf b hbal hb, if_pos rfl,
            if_pos ⟨Nat.le_refl b, by omega, hv⟩]
        · rw [← unmapped_succ hal hbal hba, unmapped, unmapped, hsame b hbal hb hba]
      cases hla : leafAddr s.mem root a with
      | none => exact hskip (by rw [leaf_of_none hla]; rfl)
      | some x =>
          obtain ⟨pt, i⟩ := x
          have hleaf := leaf_of_some hla
          simp only [wp_bind, wp_readPte]
          cases hv : ((s.mem pt).pte i).v with
          | false => exact hskip (by rw [hleaf]; exact hv)
          | true =>
              have hva : (leaf s.mem root a).v = true := by rw [hleaf]; exact hv
              rw [mappedIn, if_pos hva, hleaf] at hfree
              cases doFree with
              | false =>
                  simp only [Bool.not_true, Bool.false_eq_true, if_false, wp_bind, wp_writePte]
                  exact hrest _ hva (h.writes hal ha hla _) fun h => absurd h Bool.false_ne_true
              | true =>
                  have hl := hfree rfl
                  simp only [Bool.not_true, Bool.false_eq_true, if_false, if_true, wp_bind,
                    wp_writePte]
                  rw [wp_kfree (hl.range _ List.mem_cons_self)]
                  obtain ⟨hw, hl'⟩ := h.unmapFree hal ha hla hl
                  exact hrest _ hva hw fun _ => hl'

/-! ## `ulazymalloc` -/

/-- Where a marked entry is not valid, the page is not mapped. -/
theorem lazyLoop_marks {xperm : Perm} {n a : Nat} (h : TableOk root s) (hal : a % 4096 = 0) :
    wp A (lazyLoop root xperm n a) ⟨fun _ s' => TableOk root s' ∧
        ∀ b, b % 4096 = 0 → b < maxva → lookup s'.mem root b = lookup s.mem root b ∨
          (a ≤ b ∧ b < a + 4096 * n ∧ lookup s'.mem root b = none),
      fun _ => False, fun _ => maxva < a + 4096 * n⟩ s := by
  induction n generalizing a s with
  | zero => exact wp_pure.mpr ⟨h, fun b _ _ => .inl rfl⟩
  | succ n ih =>
      rw [lazyLoop, wp_bind]
      by_cases ha : a < maxva
      · refine (walk_grows h ha).mono ?_ (fun _ h => h.elim) (fun _ h => h.elim)
        rintro r s₁ ⟨hext, hr⟩
        have hlook : ∀ b, lookup s₁.mem root b = lookup s.mem root b := fun b => by
          unfold lookup
          rw [hext.leaf]
        cases r with
        | none => exact wp_pure.mpr ⟨hext.ok, fun b _ _ => .inl (hlook b)⟩
        | some x =>
            obtain ⟨pt, i⟩ := x
            simp only [wp_bind, wp_writePte]
            have hw := hext.ok.writes hal ha (hr _ rfl) ⟨false, { xperm with u := true }, 0⟩
            refine (ih hw.ok (by omega)).mono ?_ (fun _ h => h) (fun _ h => by omega)
            rintro _ s' ⟨hok, hl⟩
            refine ⟨hok, fun b hbal hb => ?_⟩
            have hlb := hw.leaf b hbal hb
            rcases hl b hbal hb with heq | ⟨h1, h2, h3⟩
            · by_cases hba : b = a
              · subst hba
                refine .inr ⟨Nat.le_refl b, by omega, ?_⟩
                rw [heq]
                unfold lookup
                rw [hlb, if_pos rfl]
                rfl
              · refine .inl (heq.trans ((?_ : lookup _ _ _ = _).trans (hlook b)))
                unfold lookup
                rw [hlb, if_neg hba]
            · exact .inr ⟨by omega, by omega, h3⟩
      · exact walk_beyond (by omega) (by show maxva < _; omega)

theorem ulazymalloc_marks {xperm : Perm} {vaStart vaEnd : Nat} (h : TableOk root s)
    (hstart : vaStart ≤ maxva) :
    wp A (ulazymalloc root vaStart vaEnd xperm) ⟨fun _ s' => TableOk root s' ∧
        ∀ b, b % 4096 = 0 → b < maxva → lookup s'.mem root b = lookup s.mem root b ∨
          (vaStart ≤ b ∧ b < vaEnd ∧ lookup s'.mem root b = none),
      fun _ => False, fun _ => maxva < vaEnd⟩ s := by
  have hup : vaStart ≤ pgroundup vaStart ∧ pgroundup vaStart ≤ maxva := by
    unfold maxva at *
    unfold pgroundup u64
    omega
  have hal := pgroundup_aligned vaStart
  have hmax : maxva % 4096 = 0 := by decide
  unfold ulazymalloc
  split
  · exact wp_pure.mpr ⟨h, fun b _ _ => .inl rfl⟩
  · simp only [wp_bind]
    refine (lazyLoop_marks h hal).mono ?_ (fun _ h => h) (fun _ hp => ?_)
    · rintro r s' ⟨hok, hl⟩
      have hpost : TableOk root s' ∧ ∀ b, b % 4096 = 0 → b < maxva →
          lookup s'.mem root b = lookup s.mem root b ∨
            (vaStart ≤ b ∧ b < vaEnd ∧ lookup s'.mem root b = none) := by
        refine ⟨hok, fun b hbal hb => (hl b hbal hb).imp id ?_⟩
        rintro ⟨h1, h2, h3⟩
        exact ⟨by omega, by omega, h3⟩
      cases r <;> exact wp_pure.mpr hpost
    · change maxva < _ at hp
      show maxva < vaEnd
      omega

/-- A zeroed page is a well-formed table with nothing in it. -/
theorem TableOk.empty (hroot : s.mem root = Cell.fill 0) (hbusy : root ∉ s.pool)
    (hnd : s.pool.Nodup) : TableOk root s := by
  have hnone : ∀ i, child s.mem root i = none := fun i => by simp [child, hroot]
  have hat : ∀ p t, tableAt s.mem root p = some t → p = .top ∧ t = root := by
    intro p t hp
    cases p with
    | top => exact ⟨rfl, (Option.some.inj hp).symm⟩
    | mid i => exact absurd hp (by simp [tableAt, hnone])
    | low i j => exact absurd hp (by simp [tableAt, hnone])
  refine ⟨fun p q t hp hq => ?_, fun p t hp => ?_, hnd⟩
  · rw [(hat p t hp).1, (hat q t hq).1]
  · rw [(hat p t hp).2]
    exact hbusy

/-- The tables of a process are well formed in this sense too. -/
theorem PtWf.tableOk {role : Frame → Role} (hw : PtWf role s.mem root) (h : SysInv role s) :
    TableOk root s where
  tree := hw.tableTree
  busy p t hp hm := by
    have hrole := hw.role_at hp
    rcases List.mem_append.mp hm with hm | hm
    · rw [(h.mem_free t).mp hm] at hrole
      cases hrole
    · rw [(h.mem_held t).mp hm] at hrole
      cases hrole
  pool := by
    refine List.nodup_append.mpr ⟨h.free_nodup, h.held_nodup, ?_⟩
    rintro f hf g hg rfl
    have := ((h.mem_free f).mp hf).symm.trans ((h.mem_held f).mp hg)
    cases this

/-! ## The map -/

/-- The address of a page that a table can map. -/
def PageVa (a : Nat) : Prop := a % 4096 = 0 ∧ a < maxva

theorem lookup_of_leaf {m m' : Mem} {a b : Nat} (h : leaf m' root a = leaf m root b) :
    lookup m' root a = lookup m root b := by
  unfold lookup
  rw [h]

theorem lookup_of_unmapped {m m' : Mem} {n a b : Nat}
    (h : leaf m' root b = unmapped m root n a b) :
    lookup m' root b = if a ≤ b ∧ b < a + 4096 * n then none else lookup m root b := by
  unfold unmapped at h
  by_cases hin : a ≤ b ∧ b < a + 4096 * n ∧ (leaf m root b).v = true
  · rw [if_pos hin] at h
    rw [if_pos ⟨hin.1, hin.2.1⟩, lookup, h]
    rfl
  · rw [if_neg hin] at h
    rw [lookup_of_leaf h]
    split
    · -- nothing was mapped here before
      rename_i hr
      exact if_neg fun hv => hin ⟨hr.1, hr.2, hv⟩
    · rfl

/-- **The page table refines a map.** On every well-formed table, whatever
`kalloc` answers: `mappages` of a page inserts it and returns 0, or
returns -1 and changes nothing; `uvmunmap` deletes exactly the pages of
its range, where with `do_free` the pages in it must be ones that `kfree`
accepts; `ulazymalloc` changes no page outside its range and makes none
valid. All of them leave a well-formed table. The word that `mappages`
stores decodes to the frame and the permissions. -/
theorem page_table_refines_map (h : TableOk root s) :
    (∀ va pa perm, PageVa va →
      wp (fun _ => True) (mappages root va 4096 pa perm) ⟨fun r s' => TableOk root s' ∧
          ((r = 0 ∧ ∀ a, PageVa a → lookup s'.mem root a =
              if a = va then some (pa, perm) else lookup s.mem root a) ∨
            (r = -1 ∧ ∀ a, PageVa a → lookup s'.mem root a = lookup s.mem root a)),
        fun _ => False, fun _ => False⟩ s) ∧
    (∀ va n doFree, va % 4096 = 0 → va + 4096 * n ≤ maxva →
      (doFree = true → Reclaimable root s (mappedIn s.mem root n va)) →
      wp (fun _ => True) (uvmunmap root va n doFree) ⟨fun _ s' => TableOk root s' ∧
          ∀ a, PageVa a → lookup s'.mem root a =
            if va ≤ a ∧ a < va + 4096 * n then none else lookup s.mem root a,
        fun _ => False, fun _ => False⟩ s) ∧
    (∀ vaStart vaEnd xperm, vaStart ≤ maxva →
      wp (fun _ => True) (ulazymalloc root vaStart vaEnd xperm) ⟨fun _ s' => TableOk root s' ∧
          ∀ a, PageVa a → lookup s'.mem root a = lookup s.mem root a ∨
            (vaStart ≤ a ∧ a < vaEnd ∧ lookup s'.mem root a = none),
        fun _ => False, fun _ => maxva < vaEnd⟩ s) ∧
    ∀ pa perm, pa < 2 ^ 52 → Pte.ofWord (leafWord pa perm) = ⟨true, perm, pa⟩ := by
  refine ⟨fun va pa perm hva => ?_, fun va n doFree hal hmax hfree => ?_,
    fun vaStart vaEnd xperm hstart => ?_, fun pa perm hpa => ?_⟩
  · refine (mappages_writes h hva.1 hva.2).mono ?_ (fun _ h => h) (fun _ h => h)
    rintro r s' (⟨rfl, hw⟩ | ⟨rfl, hext⟩)
    · refine ⟨hw.ok, .inl ⟨rfl, fun a ha => ?_⟩⟩
      have hl := hw.leaf a ha.1 ha.2
      by_cases he : a = va
      · rw [if_pos he] at hl ⊢
        rw [lookup, hl]
        rfl
      · rw [if_neg he] at hl ⊢
        exact lookup_of_leaf hl
    · exact ⟨hext.ok, .inr ⟨rfl, fun a _ => lookup_of_leaf (hext.leaf a)⟩⟩
  · unfold uvmunmap
    rw [if_neg (by omega)]
    refine (unmapLoop_deletes h hal hmax hfree).mono ?_ (fun _ h => h) (fun _ h => h)
    rintro _ s' ⟨hok, hl⟩
    exact ⟨hok, fun a ha => lookup_of_unmapped (hl a ha.1 ha.2)⟩
  · refine (ulazymalloc_marks h hstart).mono ?_ (fun _ h => h) (fun _ h => h)
    rintro _ s' ⟨hok, hl⟩
    exact ⟨hok, fun a ha => hl a ha.1 ha.2⟩
  · rw [leafWord_eq]
    exact Pte.ofWord_toWord hpa

end

/-- A kernel with one empty page table at 524301 and two free frames. -/
def bareSys : Sys where
  kend := 524300
  tramp := 524290
  freelist := [524302, 524303]
  held := []
  script := []
  mem _ := Cell.fill 0
  stack _ := 0
  fs := ⟨fun _ => .empty, 0, fun _ => none, []⟩

theorem tableOk_bare : TableOk 524301 bareSys := .empty rfl (by decide) (by decide)

/-- The first page is mapped, then nothing else can be: the free frames
are used up. -/
theorem page_table_refines_map_bare :
    TableOk 524301 bareSys ∧ ∃ s', mappages 524301 4096 4096 524310 Perm.ur bareSys = .ret 0 s' [] ∧
      lookup s'.mem 524301 4096 = some (524310, Perm.ur) ∧ lookup s'.mem 524301 8192 = none := by
  obtain ⟨s', hs'⟩ : ∃ s', mappages 524301 4096 4096 524310 Perm.ur bareSys = .ret 0 s' [] :=
    ⟨_, rfl⟩
  have hmap := (page_table_refines_map tableOk_bare).1 4096 524310 Perm.ur ⟨by decide, by decide⟩
  obtain ⟨-, ⟨-, hl⟩ | ⟨hc, -⟩⟩ := hmap.of_ret hs' (fun _ _ => trivial)
  · refine ⟨tableOk_bare, s', hs', ?_, ?_⟩
    · rw [hl 4096 ⟨by decide, by decide⟩, if_pos rfl]
    · rw [hl 8192 ⟨by decide, by decide⟩, if_neg (by decide)]
      rfl
  · cases hc

/-- **`do_free` is a promise of the caller**: in the table of an ordinary
process, deleting the trampoline page with `do_free` ends in `kfree`'s
panic, since that page is not the allocator's. -/
theorem unmap_trampoline_panics :
    ∃ root s, TableOk root s ∧ PageVa trampolineVa ∧ trampolineVa + 4096 * 1 ≤ maxva ∧
      lookup s.mem root trampolineVa = some (s.tramp, ⟨true, false, true, false⟩) ∧
      uvmunmap root trampolineVa 1 true s = .panic "kfree" [] := by
  obtain ⟨s', hs', hpanic, htramp⟩ : ∃ s', mappages 524301 trampolineVa 4096 bareSys.tramp
      ⟨true, false, true, false⟩ bareSys = .ret 0 s' [] ∧
      uvmunmap 524301 trampolineVa 1 true s' = .panic "kfree" [] ∧ s'.tramp = bareSys.tramp :=
    ⟨_, rfl, rfl, rfl⟩
  have hal : trampolineVa % 4096 = 0 := by decide
  have hpost := (mappages_writes (A := fun _ => True) tableOk_bare hal (by decide)).of_ret hs'
    fun _ _ => trivial
  rcases hpost with ⟨-, hw⟩ | ⟨hc, -⟩
  · refine ⟨_, s', hw.ok, ⟨by decide, by decide⟩, by decide, ?_, hpanic⟩
    rw [lookup, hw.leaf _ (by decide) (by decide), if_pos rfl, htramp]
    rfl
  · cases hc

end OsSuite.Xv6
