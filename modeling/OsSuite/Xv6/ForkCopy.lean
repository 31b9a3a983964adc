import OsSuite.Xv6.FailedFault

/-!
# ForkCopy — `uvmcopy` copies or rolls back

`uvmcopy` on well-formed tables (`TableOk`), where the frames of the
allocator are followed one by one: a frame that leaves the pool during
the call becomes a page of the child or a table page of the child, and
the error exit gives every page back. Nothing is asked of the parent but
that its tables and pages are in use: they are not in the pool, and not
table pages of the child. The parent's pages may alias, and `sz` may be
anything; beyond `MAXVA` the call ends in `walk`'s panic, unless a
`kalloc` failed before.
-/

namespace OsSuite.Xv6

/-! ## What the other CPUs and the allocator leave alone -/

/-- `end` has not moved, and on a machine where nobody else allocates
the other CPUs hold what they held. -/
structure Calm (s s' : Sys) : Prop where
  kend : s'.kend = s.kend
  quiet : s.script = [] → s'.script = [] ∧ s'.held = s.held

theorem Calm.refl (s : Sys) : Calm s s := ⟨rfl, fun h => ⟨h, rfl⟩⟩

theorem Calm.trans {s s' s'' : Sys} (h : Calm s s') (h' : Calm s' s'') : Calm s s'' where
  kend := h'.kend.trans h.kend
  quiet hs := by
    obtain ⟨h₁, h₂⟩ := h.quiet hs
    exact ⟨(h'.quiet h₁).1, (h'.quiet h₁).2.trans h₂⟩

theorem Calm.setCell (s : Sys) (f : Frame) (c : Cell) : Calm s (s.setCell f c) :=
  ⟨rfl, fun h => ⟨h, rfl⟩⟩

theorem Calm.others (s : Sys) : Calm s s.others := by
  have hintf : ∀ (a : Intf) (s : Sys), (s.intf a).kend = s.kend := by
    intro a s
    unfold Sys.intf
    cases a <;> dsimp only <;> split <;> rfl
  have hfold : ∀ (g : List Intf) (s : Sys), (g.foldl Sys.intf s).kend = s.kend := by
    intro g
    induction g with
    | nil => exact fun _ => rfl
    | cons a g ih => exact fun s => (ih _).trans (hintf a s)
  refine ⟨?_, fun h => ?_⟩
  · unfold Sys.others
    split
    · rfl
    · exact hfold _ _
  · rw [show s.others = s by unfold Sys.others; rw [h]]
    exact ⟨h, rfl⟩

section
variable {A : Event → Prop} {root f : Frame} {s s' s'' : Sys} {va : Nat}

/-- **`kalloc`**, with the pool and what it leaves alone. -/
theorem wp_kalloc_calm {Q : Post Sys (Option Frame)}
    (hnone : ∀ s', Shuffled s s' → Calm s s' → Q.ret none s')
    (hsome : ∀ f s' s'', Shuffled s s' → s'.pool = f :: s''.pool →
      s''.mem = Function.update s'.mem f (Cell.fill 5) → Calm s s'' → Q.ret (some f) s'') :
    wp A kalloc Q s := by
  have h := shuffled_others s
  have hc := Calm.others s
  unfold wp kalloc
  cases hl : s.others.freelist with
  | nil =>
      simp only [hl]
      exact fun _ => hnone _ h hc
  | cons f rest =>
      simp only [hl]
      exact fun _ => hsome f _ _ h (by simp [Sys.pool, hl, Sys.setCell]) rfl ⟨hc.kend, hc.quiet⟩

/-! ## Growing a table -/

/-- **The table has grown** and no memory was written but its own pages
and frames of the pool. -/
structure Enlarges (root : Frame) (s s' : Sys) : Prop extends Grows root s s' where
  mem : ∀ f, f ∉ s.pool → Unlinked s.mem root f → s'.mem f = s.mem f
  calm : Calm s s'

theorem Enlarges.refl (h : TableOk root s) : Enlarges root s s :=
  ⟨.refl h, fun _ _ _ => rfl, .refl s⟩

theorem Enlarges.trans (h : Enlarges root s s') (h' : Enlarges root s' s'') :
    Enlarges root s s'' where
  toGrows := h.toGrows.trans h'.toGrows
  mem f hf hun := by
    obtain ⟨hun', hf'⟩ := h.toGrows.unlinked hun hf
    rw [h'.mem f hf' hun', h.mem f hf hun]
  calm := h.calm.trans h'.calm

theorem Shuffled.enlarges (hs : Shuffled s s') (h : TableOk root s) (hc : Calm s s') :
    Enlarges root s s' :=
  ⟨(h.shuffled hs).grows hs.pool.symm, fun f hf _ => hs.mem f hf, hc⟩

theorem walkFrom_enlarges {level : Nat} {pt : Frame} (hlevel : level ≤ 2) (h : TableOk root s)
    (hpt : tableAt s.mem root (spotOf va level) = some pt) :
    wp A (walkFrom va true level pt) ⟨fun r s' => Enlarges root s s' ∧
        ∀ x, r = some x → leafAddr s'.mem root va = some x,
      fun _ => False, fun _ => False⟩ s := by
  induction level generalizing s pt with
  | zero =>
      rw [walkFrom, wp_pure]
      refine ⟨.refl h, fun x hx => ?_⟩
      cases hx
      exact leafAddr_eq_some.mpr ⟨hpt, rfl⟩
  | succ level ih =>
      have hq := spotOf_child (by omega : level < 2) va
      have hnext := tableAt_child hpt hq
      simp only [walkFrom, wp_bind, wp_readPte]
      by_cases hv : ((s.mem pt).pte (px (level + 1) va)).v = true
      · rw [if_pos hv]
        refine ih (by omega) h ?_
        rw [hnext]
        exact if_pos ⟨px_lt _ _, hv⟩
      · rw [if_neg hv]
        have hnone : child s.mem pt (px (level + 1) va) = none := if_neg fun hc => hv hc.2
        simp only [Bool.not_true, Bool.false_eq_true, if_false, wp_bind]
        refine wp_kalloc_calm (fun s₁ hs hc => ?_) fun f s₁ s₂ hs hpool hmem hc => ?_
        · exact wp_pure.mpr ⟨hs.enlarges h hc, nofun⟩
        · simp only [wp_bind, wp_zeroFrame, wp_writePte]
          obtain ⟨hlink, hat⟩ := h.growLink hs hpool hmem (px_lt _ _) hpt hq hnone
          have hnew := hat (spotOf va level)
          rw [if_pos rfl] at hnew
          have hin : f ∈ s.pool := hs.pool.mem_iff.mp (by rw [hpool]; exact List.mem_cons_self)
          have hgrow : Enlarges root s (s₂.link pt (px (level + 1) va) f) := by
            refine ⟨hlink, fun g hg hun => ?_, hc.trans ((Calm.setCell ..).trans (Calm.setCell ..))⟩
            -- the new page was in the pool, and the table above it is a table page
            have hgf : g ≠ f := by
              rintro rfl
              exact hg hin
            have hgp : g ≠ pt := by
              rintro rfl
              exact hun _ hpt
            simp only [Sys.link, Sys.setCell]
            rw [Function.update_of_ne hgp, Function.update_of_ne hgf, hmem,
              Function.update_of_ne hgf, hs.mem g hg]
          refine (ih (by omega) hlink.ok hnew).mono ?_ (fun _ h => h) (fun _ h => h)
          rintro r s₃ ⟨h₃, hr⟩
          exact ⟨hgrow.trans h₃, hr⟩

/-- What `mappages` of one page leaves behind: the table has grown, and on
success the entry is then written. -/
theorem mappages_enlarges {pa : Frame} {perm : Perm} (h : TableOk root s) (hal : va % 4096 = 0)
    (hva : va < maxva) :
    wp A (mappages root va 4096 pa perm) ⟨fun r s' =>
        (r = 0 ∧ ∃ s₁ pt i, Enlarges root s s₁ ∧ leafAddr s₁.mem root va = some (pt, i) ∧
          s' = s₁.setCell pt ((s₁.mem pt).setPte i ⟨true, perm, pa⟩)) ∨
        (r = -1 ∧ Enlarges root s s'),
      fun _ => False, fun _ => False⟩ s := by
  unfold mappages
  rw [if_neg (by omega), if_neg (by decide), if_neg (by decide)]
  simp only [Nat.reduceDiv, mapLoop, wp_bind]
  unfold walk
  rw [if_neg (Nat.not_le.mpr hva)]
  refine (walkFrom_enlarges (Nat.le_refl 2) h rfl).mono ?_ (fun _ h => h) (fun _ h => h)
  rintro r s₁ ⟨hgrow, hr⟩
  cases r with
  | none => exact wp_pure.mpr (.inr ⟨rfl, hgrow⟩)
  | some x =>
      obtain ⟨pt, i⟩ := x
      simp only [wp_bind, wp_readPte]
      split
      · exact wp_pure.mpr (.inr ⟨rfl, hgrow⟩)
      · simp only [wp_bind, wp_writePte]
        exact wp_pure.mpr (.inl ⟨rfl, s₁, pt, i, hgrow, hr _ rfl, rfl⟩)

/-! ## Giving pages back -/

/-- The frames `l` went back to the pool, and no memory was written but
theirs and the table's own pages. -/
structure Returns (root : Frame) (l : List Frame) (s s' : Sys) : Prop where
  pool : s'.pool.Perm (l ++ s.pool)
  tables : ∀ p, tableAt s'.mem root p = tableAt s.mem root p
  mem : ∀ f, f ∉ l → Unlinked s.mem root f → s'.mem f = s.mem f
  calm : Calm s s'

theorem Returns.nil (s : Sys) : Returns root [] s s :=
  ⟨.refl _, fun _ => rfl, fun _ _ _ => rfl, .refl s⟩

theorem Returns.cons {l : List Frame} (h : Returns root [f] s s') (h' : Returns root l s' s'') :
    Returns root (f :: l) s s'' where
  pool := h'.pool.trans ((h.pool.append_left l).trans List.perm_middle)
  tables p := (h'.tables p).trans (h.tables p)
  mem g hg hun := by
    rw [List.mem_cons, not_or] at hg
    rw [h'.mem g hg.2 fun p hp => hun p (by rw [← h.tables]; exact hp),
      h.mem g (by simpa using hg.1) hun]
  calm := h.calm.trans h'.calm

/-- `kfree(pa); *pte = 0` -/
theorem TableOk.unmapReturns (h : TableOk root s) {pt : Frame} {i : Nat}
    (ha : leafAddr s.mem root va = some (pt, i)) (hf : f ∉ s.pool) (hun : Unlinked s.mem root f) :
    Returns root [f] s (s.unmapFree pt i f) := by
  obtain ⟨hpt, -⟩ := leafAddr_eq_some.mp ha
  have hgive : Untouched root s ({ s with freelist := f :: s.freelist }.setCell f (Cell.fill 1)) :=
    h.give hf hun rfl rfl
  refine ⟨.refl _, fun p => ?_, fun g hg hung => ?_, rfl, fun hs => ⟨hs, rfl⟩⟩
  · rw [← hgive.tableAt]
    exact hgive.ok.tree.tableAt_write ((hgive.tableAt _).trans hpt) _ p
  · have hgp : g ≠ pt := by
      rintro rfl
      exact hung _ hpt
    simp only [Sys.unmapFree, Sys.setCell]
    rw [Function.update_of_ne hgp, Function.update_of_ne (by simpa using hg)]

/-- **`uvmunmap` with `do_free`** gives the pages of its range back. -/
theorem unmapLoop_returns {n a : Nat} (h : TableOk root s) (hal : a % 4096 = 0)
    (hmax : a + 4096 * n ≤ maxva) (hfree : Reclaimable root s (mappedIn s.mem root n a)) :
    wp A (unmapLoop root true n a) ⟨fun _ s' => Returns root (mappedIn s.mem root n a) s s',
      fun _ => False, fun _ => False⟩ s := by
  induction n generalizing a s with
  | zero => exact wp_pure.mpr (.nil s)
  | succ n ih =>
      have ha : a < maxva := by omega
      simp only [unmapLoop, wp_bind, wp_walk_noalloc ha]
      have hskip : (leaf s.mem root a).v = false → wp A (unmapLoop root true n (a + 4096))
          ⟨fun _ s' => Returns root (mappedIn s.mem root (n + 1) a) s s',
            fun _ => False, fun _ => False⟩ s := by
        intro hv
        rw [mappedIn, if_neg (by simp [hv])] at hfree ⊢
        exact ih h (by omega) (by omega) hfree
      cases hla : leafAddr s.mem root a with
      | none => exact hskip (by rw [leaf_of_none hla]; rfl)
      | some x =>
          obtain ⟨pt, i⟩ := x
          have hleaf := leaf_of_some hla
          simp only [wp_bind, wp_readPte]
          cases hv : ((s.mem pt).pte i).v with
          | false => exact hskip (by rw [hleaf]; exact hv)
          | true =>
              have hva : (leaf s.mem root a).v = true := by rw [hleaf]; exact hv
              rw [mappedIn, if_pos hva, hleaf] at hfree ⊢
              simp only [Bool.not_true, Bool.false_eq_true, if_false, if_true, wp_bind, wp_writePte]
              rw [wp_kfree (hfree.range _ List.mem_cons_self)]
              obtain ⟨hw, hfree'⟩ := h.unmapFree hal ha hla hfree
              have hret := h.unmapReturns hla (hfree.busy _ List.mem_cons_self)
                (hfree.unlinked _ List.mem_cons_self)
              have hrest : mappedIn (s.unmapFree pt i ((s.mem pt).pte i).pa).mem root n (a + 4096)
                  = mappedIn s.mem root n (a + 4096) :=
                mappedIn_congr fun k hk => by
                  rw [hw.leaf _ (by omega) (by omega), if_neg (by omega)]
              rw [← hrest] at hfree' ⊢
              exact (ih hw.ok (by omega) (by omega) hfree').weaken fun _ _ h' => hret.cons h'

/-! ## The copy -/

/-- **The parent stands by**: its table pages and the frames it maps are
neither in the pool nor table pages of the child. -/
structure StandsBy (old new : Frame) (s : Sys) : Prop where
  tables : ∀ p t, tableAt s.mem old p = some t → t ∉ s.pool ∧ Unlinked s.mem new t
  pages : ∀ a, PageVa a → (leaf s.mem old a).v = true →
    (leaf s.mem old a).pa ∉ s.pool ∧ Unlinked s.mem new (leaf s.mem old a).pa

/-- The entry of the child is a copy of the parent's page at `a`. -/
def CopyAt (old new : Frame) (s₀ s : Sys) (a : Nat) : Prop :=
  ∃ f, leaf s.mem new a = ⟨true, (leaf s₀.mem old a).perm, f⟩ ∧
    (s.mem f).page = (s₀.mem (leaf s₀.mem old a).pa).page

/-- **The copy so far**: since `s₀`, the first `n` pages of the parent were
copied. Every frame that left the pool is a page of the copy, a new table
page, or one of the frames `hand` that are not mapped yet. -/
structure Copying (old new : Frame) (s₀ : Sys) (n : Nat) (hand : List Frame) (s : Sys) :
    Prop where
  ok : TableOk new s
  done : ∀ a, PageVa a → a < 4096 * n → (leaf s₀.mem old a).v = true → CopyAt old new s₀ s a
  rest : ∀ a, PageVa a → (a < 4096 * n → (leaf s₀.mem old a).v = false) →
    leaf s.mem new a = leaf s₀.mem new a
  taken : ∃ l, s₀.pool.Perm (hand ++ mappedIn s.mem new n 0 ++ (l ++ s.pool)) ∧
    ∀ f ∈ l, ∃ p, tableAt s₀.mem new p = none ∧ tableAt s.mem new p = some f
  kept : ∀ p t, tableAt s₀.mem new p = some t → tableAt s.mem new p = some t
  fresh : ∀ p t, tableAt s.mem new p = some t → tableAt s₀.mem new p = some t ∨ t ∈ s₀.pool
  unlinked : ∀ f ∈ hand ++ mappedIn s.mem new n 0, Unlinked s.mem new f
  mem : ∀ f, f ∉ s₀.pool → Unlinked s₀.mem new f → s.mem f = s₀.mem f
  calm : Calm s₀ s

end

section
variable {A : Event → Prop} {old new f : Frame} {s₀ s s' s'' : Sys} {n : Nat} {x y : List Frame}

theorem mem_mappedIn_of_valid {m : Mem} {root : Frame} {a : Nat} (hal : a % 4096 = 0)
    (ha : a < 4096 * n) (hv : (leaf m root a).v = true) :
    (leaf m root a).pa ∈ mappedIn m root n 0 := by
  have he : 0 + 4096 * (a / 4096) = a := by omega
  exact mem_mappedIn.mpr ⟨a / 4096, by omega, by rw [he]; exact ⟨hv, rfl⟩⟩

theorem Copying.start (h : TableOk new s) : Copying old new s 0 [] s where
  ok := h
  done a _ ha := absurd ha (by omega)
  rest _ _ _ := rfl
  taken := ⟨[], .refl _, fun f hf => absurd hf List.not_mem_nil⟩
  kept _ _ h := h
  fresh _ _ h := .inl h
  unlinked f hf := absurd hf List.not_mem_nil
  mem _ _ _ := rfl
  calm := .refl s

/-- The frames of the copy are not in the pool. -/
theorem Copying.out (h : Copying old new s₀ n x s) (hnd : s₀.pool.Nodup)
    (hf : f ∈ x ++ mappedIn s.mem new n 0) : f ∉ s.pool := by
  obtain ⟨l, hl, -⟩ := h.taken
  have hd := (List.nodup_append.mp (hl.nodup_iff.mp hnd)).2.2
  exact fun hm => hd f hf f (List.mem_append_right l hm) rfl

/-- They come from the pool. -/
theorem Copying.from_pool (h : Copying old new s₀ n x s)
    (hf : f ∈ x ++ mappedIn s.mem new n 0) : f ∈ s₀.pool := by
  obtain ⟨l, hl, -⟩ := h.taken
  exact hl.mem_iff.mpr (List.mem_append_left _ hf)

/-- A step that changes no entry: frames move between the pool, the hand
and new table pages. -/
theorem Copying.move (h : Copying old new s₀ n x s) (hok : TableOk new s')
    (hleaf : ∀ a, leaf s'.mem new a = leaf s.mem new a)
    (hkept : ∀ p t, tableAt s.mem new p = some t → tableAt s'.mem new p = some t)
    (hfresh : ∀ p t, tableAt s'.mem new p = some t → tableAt s.mem new p = some t ∨ t ∈ s.pool)
    (htaken : ∃ l, (x ++ s.pool).Perm (y ++ (l ++ s'.pool)) ∧
      ∀ f ∈ l, ∃ p, tableAt s.mem new p = none ∧ tableAt s'.mem new p = some f)
    (hun : ∀ f ∈ y ++ mappedIn s.mem new n 0, Unlinked s'.mem new f)
    (hdata : ∀ f ∈ mappedIn s.mem new n 0, s'.mem f = s.mem f)
    (hmem : ∀ f, f ∉ s₀.pool → Unlinked s₀.mem new f → s'.mem f = s.mem f)
    (hcalm : Calm s s') : Copying old new s₀ n y s' := by
  have hin : mappedIn s'.mem new n 0 = mappedIn s.mem new n 0 := mappedIn_congr fun _ _ => hleaf _
  obtain ⟨l, hl, hat⟩ := h.taken
  obtain ⟨l', hl', hat'⟩ := htaken
  have hfrom : ∀ t ∈ s.pool, t ∈ s₀.pool := fun t ht =>
    hl.mem_iff.mpr (List.mem_append_right _ (List.mem_append_right l ht))
  refine ⟨hok, fun a ha hlt hv => ?_, fun a ha hc => (hleaf a).trans (h.rest a ha hc),
    ⟨l ++ l', ?_, fun g hg => ?_⟩, fun p t hp => hkept p t (h.kept p t hp), fun p t hp => ?_,
    by rw [hin]; exact hun, fun g hg hung => (hmem g hg hung).trans (h.mem g hg hung),
    h.calm.trans hcalm⟩
  · obtain ⟨g, hg, hpage⟩ := h.done a ha hlt hv
    refine ⟨g, (hleaf a).trans hg, ?_⟩
    have hin' := mem_mappedIn_of_valid (n := n) ha.1 hlt (show (leaf s.mem new a).v = true by rw [hg])
    rw [hg] at hin'
    rw [hdata g hin', hpage]
  · rw [hin]
    rw [List.perm_iff_count] at hl hl' ⊢
    intro g
    have h₁ := hl g
    have h₂ := hl' g
    simp only [List.count_append] at h₁ h₂ ⊢
    omega
  · rcases List.mem_append.mp hg with hg | hg
    · obtain ⟨p, hnone, hsome⟩ := hat g hg
      exact ⟨p, hnone, hkept p g hsome⟩
    · obtain ⟨p, hnone, hsome⟩ := hat' g hg
      refine ⟨p, Option.eq_none_iff_forall_ne_some.mpr fun t ht => ?_, hsome⟩
      rw [h.kept p t ht] at hnone
      cases hnone
  · rcases hfresh p t hp with hp | hp
    · exact h.fresh p t hp
    · exact .inr (hfrom t hp)

/-- A frame outside the pool that is no table page of the child stays so. -/
theorem Copying.foreign (h : Copying old new s₀ n x s) (hf : f ∉ s₀.pool)
    (hun : Unlinked s₀.mem new f) : f ∉ s.pool ∧ Unlinked s.mem new f := by
  obtain ⟨l, hl, -⟩ := h.taken
  refine ⟨fun hm => hf (hl.mem_iff.mpr (List.mem_append_right _ (List.mem_append_right l hm))),
    fun p hp => ?_⟩
  rcases h.fresh p f hp with hp | hm
  · exact hun p hp
  · exact hf hm

theorem Copying.enlarge (h : Copying old new s₀ n x s) (hnd : s₀.pool.Nodup)
    (hg : Enlarges new s s') : Copying old new s₀ n x s' := by
  obtain ⟨l, hl, hat⟩ := hg.taken
  refine h.move hg.ok hg.leaf hg.kept hg.fresh ⟨l, hl.append_left x, hat⟩ (fun g hm => ?_)
    (fun g hm => ?_) (fun g hm hun => ?_) hg.calm
  · exact (hg.toGrows.unlinked (h.unlinked g hm) (h.out hnd hm)).1
  · have hm' : g ∈ x ++ mappedIn s.mem new n 0 := List.mem_append_right x hm
    exact hg.mem g (h.out hnd hm') (h.unlinked g hm')
  · obtain ⟨hp, hun'⟩ := h.foreign hm hun
    exact hg.mem g hp hun'

/-- `kalloc` hands a frame out, and something is written to it. -/
theorem Copying.hand (h : Copying old new s₀ n [] s) (hnd : s₀.pool.Nodup) (hs : Shuffled s s')
    (hpool : s'.pool = f :: s''.pool) {c : Cell} (hmem : s''.mem = Function.update s'.mem f c)
    (hcalm : Calm s s'') : Copying old new s₀ n [f] s'' := by
  obtain ⟨hunt, hperm, hun, -⟩ := h.ok.handed hs hpool hmem
  have hin : f ∈ s.pool := hperm.mem_iff.mpr List.mem_cons_self
  -- frames outside the pool are not written
  have hsame : ∀ g, g ∉ s.pool → s''.mem g = s.mem g := by
    intro g hg
    have hgf : g ≠ f := by
      rintro rfl
      exact hg hin
    rw [hmem, Function.update_of_ne hgf, hs.mem g hg]
  refine h.move hunt.ok hunt.extends.leaf (fun p t hp => by rw [hunt.tableAt]; exact hp)
    (fun p t hp => .inl (by rw [← hunt.tableAt]; exact hp))
    ⟨[], hperm, fun g hg => absurd hg List.not_mem_nil⟩ (fun g hg => ?_)
    (fun g hg => hsame g (h.out hnd hg))
    (fun g hg hung => hsame g (h.foreign hg hung).1) hcalm
  rcases List.mem_append.mp hg with hg | hg
  · rw [List.mem_singleton.mp hg]
    exact hun
  · intro p hp
    rw [hunt.tableAt] at hp
    exact h.unlinked g hg p hp

/-- `kfree` takes the frame in hand back. -/
theorem Copying.giveBack (h : Copying old new s₀ n [f] s) (hnd : s₀.pool.Nodup) :
    Copying old new s₀ n [] ({ s with freelist := f :: s.freelist }.setCell f (Cell.fill 1)) := by
  have hmem : f ∈ [f] ++ mappedIn s.mem new n 0 := List.mem_cons_self
  have hunt : Untouched new s ({ s with freelist := f :: s.freelist }.setCell f (Cell.fill 1)) :=
    h.ok.give (h.out hnd hmem) (h.unlinked f hmem) rfl rfl
  have hd : ∀ g, g ≠ f → (({ s with freelist := f :: s.freelist }.setCell f (Cell.fill 1)).mem g)
      = s.mem g := fun g hg => Function.update_of_ne hg _ _
  refine h.move hunt.ok hunt.extends.leaf (fun p t hp => by rw [hunt.tableAt]; exact hp)
    (fun p t hp => .inl (by rw [← hunt.tableAt]; exact hp))
    ⟨[], .refl _, fun g hg => absurd hg List.not_mem_nil⟩ (fun g hg p hp => ?_)
    (fun g hg => hd g ?_) (fun g hg hung => hd g ?_) ⟨rfl, fun hs => ⟨hs, rfl⟩⟩
  · rw [hunt.tableAt] at hp
    exact h.unlinked g (List.mem_append_right [f] hg) p hp
  · -- the frame in hand is not mapped
    rintro rfl
    obtain ⟨l, hl, -⟩ := h.taken
    have hnd' := (List.nodup_append.mp (hl.nodup_iff.mp hnd)).1
    exact (List.nodup_cons.mp hnd').1 hg
  · rintro rfl
    exact hg (h.from_pool hmem)

/-- Where the parent has no page, nothing is to be done. -/
theorem Copying.skip (h : Copying old new s₀ n x s)
    (hfresh : PageVa (4096 * n) → (leaf s₀.mem new (4096 * n)).v = false)
    (hva : 4096 * n < maxva) (hv : (leaf s₀.mem old (4096 * n)).v = false) :
    Copying old new s₀ (n + 1) x s := by
  have hpage : PageVa (4096 * n) := ⟨by omega, hva⟩
  have hlast : (leaf s.mem new (4096 * n)).v = false := by
    rw [h.rest _ hpage fun _ => hv]
    exact hfresh hpage
  have hin : mappedIn s.mem new (n + 1) 0 = mappedIn s.mem new n 0 := by
    rw [mappedIn_add, mappedIn, if_neg (by simp [hlast]), mappedIn, List.append_nil]
  refine ⟨h.ok, fun a ha hlt hva => h.done a ha ?_ hva, fun a ha hc => h.rest a ha fun hlt =>
    hc (by omega), by rw [hin]; exact h.taken, h.kept, h.fresh, by rw [hin]; exact h.unlinked,
    h.mem, h.calm⟩
  have hal := ha.1
  by_contra hge
  rw [show a = 4096 * n by omega, hv] at hva
  cases hva

/-- The frame in hand is mapped. -/
theorem Copying.mapped (h : Copying old new s₀ n [f] s) (hva : 4096 * n < maxva) {pt : Frame}
    {i : Nat} (ha : leafAddr s.mem new (4096 * n) = some (pt, i))
    (hv : (leaf s₀.mem old (4096 * n)).v = true)
    (hpage : (s.mem f).page = (s₀.mem (leaf s₀.mem old (4096 * n)).pa).page) :
    Copying old new s₀ (n + 1) []
      (s.setCell pt ((s.mem pt).setPte i ⟨true, (leaf s₀.mem old (4096 * n)).perm, f⟩)) := by
  obtain ⟨hpt, -⟩ := leafAddr_eq_some.mp ha
  have hw := h.ok.writes (by omega) hva ha ⟨true, (leaf s₀.mem old (4096 * n)).perm, f⟩
  have hat := fun p => h.ok.tree.tableAt_write hpt
    ((s.mem pt).setPte i ⟨true, (leaf s₀.mem old (4096 * n)).perm, f⟩) p
  have hself := hw.leaf (4096 * n) (by omega) hva
  rw [if_pos rfl] at hself
  -- data pages are no table pages, so their contents stay
  have hdata : ∀ g ∈ [f] ++ mappedIn s.mem new n 0, (s.setCell pt
      ((s.mem pt).setPte i ⟨true, (leaf s₀.mem old (4096 * n)).perm, f⟩)).mem g = s.mem g := by
    intro g hg
    refine Function.update_of_ne ?_ _ _
    rintro rfl
    exact h.unlinked g hg _ hpt
  have hin : mappedIn (s.setCell pt
      ((s.mem pt).setPte i ⟨true, (leaf s₀.mem old (4096 * n)).perm, f⟩)).mem new (n + 1) 0
      = mappedIn s.mem new n 0 ++ [f] := by
    have hlow : mappedIn (s.setCell pt
        ((s.mem pt).setPte i ⟨true, (leaf s₀.mem old (4096 * n)).perm, f⟩)).mem new n 0
        = mappedIn s.mem new n 0 := mappedIn_congr fun k hk => by
      rw [hw.leaf _ (by omega) (by omega), if_neg (by omega)]
    rw [mappedIn_add, hlow, mappedIn, Nat.zero_add, hself, if_pos rfl, mappedIn]
  refine ⟨hw.ok, fun a ha' hlt hv' => ?_, fun a ha' hc => ?_, ?_, fun p t hp => ?_,
    fun p t hp => ?_, fun g hg p hp => ?_, fun g hg hung => ?_, h.calm.trans (.setCell _ _ _)⟩
  · by_cases he : a = 4096 * n
    · subst he
      exact ⟨f, hself, by rw [hdata f List.mem_cons_self, hpage]⟩
    · have hal := ha'.1
      obtain ⟨g, hg, hpg⟩ := h.done a ha' (by omega) hv'
      refine ⟨g, by rw [hw.leaf a ha'.1 ha'.2, if_neg he, hg], ?_⟩
      have hin' := mem_mappedIn_of_valid (n := n) ha'.1 (by omega)
        (show (leaf s.mem new a).v = true by rw [hg])
      rw [hg] at hin'
      rw [hdata g (List.mem_append_right [f] hin'), hpg]
  · have he : a ≠ 4096 * n := by
      rintro rfl
      rw [hc (by omega)] at hv
      cases hv
    rw [hw.leaf a ha'.1 ha'.2, if_neg he]
    exact h.rest a ha' fun hlt => hc (by omega)
  · obtain ⟨l, hl, hnew⟩ := h.taken
    refine ⟨l, ?_, fun g hg => ?_⟩
    · rw [hin]
      rw [List.perm_iff_count] at hl ⊢
      intro g
      have h₁ := hl g
      simp only [List.count_append, List.count_nil] at h₁ ⊢
      show _ = _ + (_ + List.count g s.pool)
      omega
    · obtain ⟨p, hnone, hsome⟩ := hnew g hg
      exact ⟨p, hnone, (hat p).trans hsome⟩
  · exact (hat p).trans (h.kept p t hp)
  · exact h.fresh p t ((hat p).symm.trans hp)
  · rw [hin] at hg
    refine h.unlinked g ?_ p ((hat p).symm.trans hp)
    simp only [List.nil_append, List.mem_append] at hg ⊢
    exact hg.symm
  · rw [← h.mem g hg hung]
    refine Function.update_of_ne ?_ _ _
    rintro rfl
    exact (h.foreign hg hung).2 _ hpt

/-- `if(mappages(...) != 0) { kfree(mem); ... }` in the loop. -/
theorem mapOrFree_copying (h : Copying old new s₀ n [f] s) (hpool : PoolOk s₀)
    (hva : 4096 * n < maxva) (hv : (leaf s₀.mem old (4096 * n)).v = true)
    (hpage : (s.mem f).page = (s₀.mem (leaf s₀.mem old (4096 * n)).pa).page) :
    wp A (mapOrFree new (4096 * n) f (leaf s₀.mem old (4096 * n)).perm)
      ⟨fun r s' => Copying old new s₀ (if r then n + 1 else n) [] s',
        fun _ => False, fun _ => False⟩ s := by
  unfold mapOrFree
  rw [wp_bind]
  refine (mappages_enlarges h.ok (by omega) hva).mono ?_ (fun _ h => h) (fun _ h => h)
  have hf : f ∈ [f] ++ mappedIn s.mem new n 0 := List.mem_cons_self
  rintro r s₁ (⟨rfl, s₂, pt, i, hg, ha, rfl⟩ | ⟨rfl, hg⟩)
  · refine wp_pure.mpr ?_
    refine (h.enlarge hpool.nodup hg).mapped hva ha hv ?_
    rw [hg.mem f (h.out hpool.nodup hf) (h.unlinked f hf), hpage]
  · have h₁ := h.enlarge hpool.nodup hg
    show wp A (do kfree f; pure false) _ s₁
    rw [wp_bind, wp_kfree]
    · exact wp_pure.mpr (h₁.giveBack hpool.nodup)
    · rw [h₁.calm.kend]
      exact hpool.range f (h.from_pool hf)

/-! ## The error exit -/

/-- **Rolled back**: the child has no page below `sz`, and every frame that
was taken is back in the pool or a new table page; where no other CPU
allocates, it is back on the free list. -/
structure RolledBack (new : Frame) (sz : Nat) (s₀ s : Sys) : Prop where
  none : ∀ a, PageVa a → a < sz → (leaf s.mem new a).v = false
  frames : FramesKept new s₀ s
  free : s₀.script = [] → ∀ f ∈ s₀.freelist, f ∈ s.freelist ∨
    ∃ p, tableAt s₀.mem new p = Option.none ∧ tableAt s.mem new p = some f
  mem : ∀ f, f ∉ s₀.pool → Unlinked s₀.mem new f → s.mem f = s₀.mem f

theorem copyFail_rollsBack {sz : Nat} (h : Copying old new s₀ n [] s) (hpool : PoolOk s₀)
    (hfresh : ∀ a, PageVa a → a < sz → (leaf s₀.mem new a).v = false) (hmax : 4096 * n ≤ maxva) :
    wp A (copyFail new (4096 * n)) ⟨fun r s' => r = -1 ∧ RolledBack new sz s₀ s',
      fun _ => False, fun _ => False⟩ s := by
  unfold copyFail uvmunmap
  rw [if_neg (by decide), Nat.mul_div_cancel_left n (by decide)]
  have hrec : Reclaimable new s (mappedIn s.mem new n 0) := by
    refine ⟨?_, fun f hf => ?_, fun f hf => h.out hpool.nodup hf, fun f hf => h.unlinked f hf⟩
    · obtain ⟨l, hl, -⟩ := h.taken
      exact (List.nodup_append.mp (hl.nodup_iff.mp hpool.nodup)).1
    · rw [h.calm.kend]
      exact hpool.range f (h.from_pool hf)
  refine wp.bind ((unmapLoop_deletes h.ok rfl (by omega) fun _ => hrec).and
    (unmapLoop_returns h.ok rfl (by omega) hrec) |>.mono (fun _ _ h => h) (fun _ h => h.1)
      fun _ h => h.1) ?_
  rintro _ s' ⟨⟨-, hl⟩, hret⟩
  have hkept : FramesKept new s₀ s' := by
    obtain ⟨l, hp, hat⟩ := h.taken
    refine ⟨l, ?_, fun f hf => ?_⟩
    · have hp' := hret.pool
      rw [List.perm_iff_count] at hp hp' ⊢
      intro g
      have h₁ := hp g
      have h₂ := hp' g
      simp only [List.count_append, List.nil_append] at h₁ h₂ ⊢
      omega
    · obtain ⟨p, hnone, hsome⟩ := hat f hf
      exact ⟨p, hnone, (hret.tables p).trans hsome⟩
  refine wp_pure.mpr ⟨rfl, fun a ha hlt => ?_, hkept, fun hs f hf => ?_, fun f hf hun => ?_⟩
  · rw [hl a ha.1 ha.2, unmapped]
    split
    · rfl
    · rename_i hc
      by_cases hin : a < 4096 * n
      · by_contra hv
        exact hc ⟨Nat.zero_le a, by omega, by simpa using hv⟩
      · rw [h.rest a ha fun hlt => absurd hlt hin]
        exact hfresh a ha hlt
  · -- what other CPUs hold they held before, so it was not free
    obtain ⟨l, hp, hat⟩ := hkept
    have hheld := ((h.calm.trans hret.calm).quiet hs).2
    rcases List.mem_append.mp (hp.mem_iff.mp (List.mem_append_left _ hf)) with hm | hm
    · exact .inr (hat f hm)
    · exact (List.mem_append.mp hm).imp_right fun hm =>
        absurd rfl ((List.nodup_append.mp hpool.nodup).2.2 f hf f (hheld ▸ hm))
  · rw [hret.mem f (fun hm => hf (h.from_pool hm)) (h.foreign hf hun).2, h.mem f hf hun]

/-! ## The loop -/

/-- The parent is as it was. -/
structure SameParent (old : Frame) (s₀ s : Sys) : Prop where
  leaf : ∀ a, leaf s.mem old a = leaf s₀.mem old a
  pages : ∀ a, PageVa a → (Xv6.leaf s₀.mem old a).v = true →
    s.mem (Xv6.leaf s₀.mem old a).pa = s₀.mem (Xv6.leaf s₀.mem old a).pa

/-- What is no frame of the pool and no table page of the child includes
the parent. -/
theorem StandsBy.same (h : StandsBy old new s₀)
    (hmem : ∀ f, f ∉ s₀.pool → Unlinked s₀.mem new f → s.mem f = s₀.mem f) :
    SameParent old s₀ s where
  leaf := leaf_congr fun p t hp => hmem t (h.tables p t hp).1 (h.tables p t hp).2
  pages a ha hv := hmem _ (h.pages a ha hv).1 (h.pages a ha hv).2

/-- **The loop of `uvmcopy`** goes on with the copy, or rolls back. -/
theorem copyLoop_copies {k : Nat} (hpool : PoolOk s₀) (hold : StandsBy old new s₀)
    (hfresh : ∀ a, PageVa a → a < 4096 * (n + k) → (leaf s₀.mem new a).v = false)
    (h : Copying old new s₀ n [] s) :
    wp A (copyLoop old new k (4096 * n)) ⟨fun r s' =>
        (r = 0 ∧ Copying old new s₀ (n + k) [] s') ∨
        (r = -1 ∧ RolledBack new (4096 * (n + k)) s₀ s'),
      fun _ => False, fun _ => maxva < 4096 * (n + k)⟩ s := by
  induction k generalizing n s with
  | zero => exact wp_pure.mpr (.inl ⟨rfl, h⟩)
  | succ k ih =>
      rw [copyLoop, wp_bind]
      by_cases hva : maxva ≤ 4096 * n
      · exact walk_beyond hva (by show maxva < _; omega)
      replace hva : 4096 * n < maxva := by omega
      rw [wp_walk_noalloc hva]
      have hsame := hold.same h.mem
      have hnext : ∀ {s₁ : Sys}, Copying old new s₀ (n + 1) [] s₁ →
          wp A (copyLoop old new k (4096 * n + 4096)) ⟨fun r s' =>
            (r = 0 ∧ Copying old new s₀ (n + (k + 1)) [] s') ∨
            (r = -1 ∧ RolledBack new (4096 * (n + (k + 1))) s₀ s'),
          fun _ => False, fun _ => maxva < 4096 * (n + (k + 1))⟩ s₁ := by
        intro s₁ h₁
        have hk : n + 1 + k = n + (k + 1) := by omega
        have hrest := ih (n := n + 1) (by rw [hk]; exact hfresh) h₁
        rwa [hk, show 4096 * (n + 1) = 4096 * n + 4096 by omega] at hrest
      have hskip : (leaf s₀.mem old (4096 * n)).v = false → Copying old new s₀ (n + 1) [] s :=
        h.skip (fun hp => hfresh _ hp (by omega)) hva
      cases hla : leafAddr s.mem old (4096 * n) with
      | none => exact hnext (hskip (by rw [← hsame.leaf, leaf_of_none hla]; rfl))
      | some x =>
          obtain ⟨pt, j⟩ := x
          have hleaf : (s.mem pt).pte j = leaf s₀.mem old (4096 * n) := by
            rw [← leaf_of_some hla, hsame.leaf]
          simp only [wp_bind, wp_readPte]
          rw [hleaf]
          cases hv : (leaf s₀.mem old (4096 * n)).v with
          | false => exact hnext (hskip hv)
          | true =>
              simp only [Bool.not_true, Bool.false_eq_true, if_false, wp_bind]
              have hfail : ∀ {s₁ : Sys}, Copying old new s₀ n [] s₁ →
                  wp A (copyFail new (4096 * n)) ⟨fun r s' =>
                    (r = 0 ∧ Copying old new s₀ (n + (k + 1)) [] s') ∨
                    (r = -1 ∧ RolledBack new (4096 * (n + (k + 1))) s₀ s'),
                  fun _ => False, fun _ => maxva < 4096 * (n + (k + 1))⟩ s₁ := fun h₁ =>
                (copyFail_rollsBack h₁ hpool hfresh (by omega)).mono (fun _ _ h => .inr h)
                  (fun _ h => h) (fun _ h => h.elim)
              refine wp_kalloc_calm (fun s₁ hs hc => ?_) fun f s₁ s₂ hs hp hm hc => ?_
              · exact hfail (h.enlarge hpool.nodup (hs.enlarges h.ok hc))
              · simp only [wp_bind, wp_modify]
                -- the parent's page, as it was when the call began
                have hmem₂ : ∀ c, (s₂.setCell f c).mem = Function.update s₁.mem f c := fun c => by
                  simp only [Sys.setCell, hm, Function.update_idem]
                have hpage : (s₂.mem (leaf s₀.mem old (4096 * n)).pa).page
                    = (s₀.mem (leaf s₀.mem old (4096 * n)).pa).page := by
                  have h₂ := h.hand hpool.nodup hs hp hm hc
                  have hp' := hold.pages _ ⟨by omega, hva⟩ hv
                  rw [h₂.mem _ hp'.1 hp'.2]
                have h₂ := h.hand hpool.nodup hs (show s₁.pool = f :: (s₂.setCell f _).pool from hp)
                  (hmem₂ (.bytes (s₂.mem (leaf s₀.mem old (4096 * n)).pa).page))
                  (hc.trans (.setCell _ _ _))
                refine (mapOrFree_copying h₂ hpool hva hv ?_).mono ?_ (fun _ h => h)
                  (fun _ h => h.elim)
                · rw [hmem₂, Function.update_self, ← hpage]
                  rfl
                · intro r s₃ h₃
                  cases r with
                  | true => exact hnext h₃
                  | false => exact hfail h₃

/-- **Copied**: each page below `sz` that the parent has is mapped in the
child with the same flags to a frame of its own, which was free and now
holds the same bytes; the child has no other page below `sz`. -/
structure CopiedPages (old new : Frame) (sz : Nat) (s₀ s : Sys) : Prop where
  page : ∀ a, PageVa a → a < sz → (leaf s₀.mem old a).v = true →
    ∃ f, leaf s.mem new a = ⟨true, (leaf s₀.mem old a).perm, f⟩ ∧
      (s.mem f).page = (s₀.mem (leaf s₀.mem old a).pa).page ∧
      f ∈ s₀.pool ∧ (s₀.script = [] → f ∈ s₀.freelist)
  distinct : ∀ a b, PageVa a → PageVa b → a < sz → b < sz → (leaf s.mem new a).v = true →
    (leaf s.mem new b).v = true → (leaf s.mem new a).pa = (leaf s.mem new b).pa → a = b
  hole : ∀ a, PageVa a → a < sz → (leaf s₀.mem old a).v = false → (leaf s.mem new a).v = false

/-- In a list of distinct mapped frames no frame is mapped twice. -/
theorem eq_of_mappedIn_nodup {m : Mem} {root : Frame} (hnd : (mappedIn m root n 0).Nodup) {a b : Nat}
    (ha : a % 4096 = 0) (hb : b % 4096 = 0) (hlt : a < b) (hbn : b < 4096 * n)
    (hva : (leaf m root a).v = true) (hvb : (leaf m root b).v = true) :
    (leaf m root a).pa ≠ (leaf m root b).pa := by
  have hsplit : n = (a / 4096 + 1) + (n - (a / 4096 + 1)) := by omega
  rw [hsplit, mappedIn_add, List.nodup_append] at hnd
  refine hnd.2.2 _ (mem_mappedIn_of_valid ha (by omega) hva) _ (mem_mappedIn.mpr ?_)
  refine ⟨b / 4096 - (a / 4096 + 1), by omega, ?_⟩
  rw [show 0 + 4096 * (a / 4096 + 1) + 4096 * (b / 4096 - (a / 4096 + 1)) = b by omega]
  exact ⟨hvb, rfl⟩

theorem Copying.copied {sz : Nat} (h : Copying old new s₀ n [] s) (hnd : s₀.pool.Nodup)
    (hn : ∀ a, a % 4096 = 0 → (a < 4096 * n ↔ a < sz))
    (hfresh : ∀ a, PageVa a → a < sz → (leaf s₀.mem new a).v = false) :
    CopiedPages old new sz s₀ s := by
  obtain ⟨l, hl, -⟩ := h.taken
  have hd := (List.nodup_append.mp (hl.nodup_iff.mp hnd)).1
  refine ⟨fun a ha hlt hv => ?_, fun a b ha hb hla hlb hva hvb he => ?_, fun a ha hlt hv => ?_⟩
  · obtain ⟨f, hf, hpage⟩ := h.done a ha ((hn a ha.1).mpr hlt) hv
    have hin := mem_mappedIn_of_valid (n := n) ha.1 ((hn a ha.1).mpr hlt)
      (show (leaf s.mem new a).v = true by rw [hf])
    rw [hf] at hin
    refine ⟨f, hf, hpage, h.from_pool hin, fun hs => ?_⟩
    -- nobody gave a frame back meanwhile, so it was on the free list
    have hheld := (h.calm.quiet hs).2
    refine (List.mem_append.mp (h.from_pool hin)).resolve_right fun hm => ?_
    exact h.out hnd hin (List.mem_append_right _ (hheld ▸ hm))
  · rcases Nat.lt_trichotomy a b with hlt | heq | hlt
    · exact absurd he (eq_of_mappedIn_nodup hd ha.1 hb.1 hlt ((hn b hb.1).mpr hlb) hva hvb)
    · exact heq
    · exact absurd he.symm (eq_of_mappedIn_nodup hd hb.1 ha.1 hlt ((hn a ha.1).mpr hla) hvb hva)
  · rw [h.rest a ha fun _ => hv]
    exact hfresh a ha hlt

/-- **`uvmcopy` copies or rolls back.** For every parent table, every child
table without pages below `sz`, every `sz` and whatever `kalloc` answers:
if the call returns 0, the child has a copy of the parent's pages below
`sz`; if it returns -1, the child has no page below `sz` and no data frame
is lost. The parent is unchanged either way. It returns, unless `sz` lies
beyond `MAXVA`. -/
theorem uvmcopy_copies_or_rolls_back {sz : Nat} (hpool : PoolOk s) (hnew : TableOk new s)
    (hold : StandsBy old new s)
    (hfresh : ∀ a, PageVa a → a < sz → (leaf s.mem new a).v = false) :
    wp (fun _ => True) (uvmcopy old new sz) ⟨fun r s' =>
        ((r = 0 ∧ CopiedPages old new sz s s') ∨ (r = -1 ∧ RolledBack new sz s s')) ∧
          SameParent old s s',
      fun _ => False, fun _ => maxva < sz⟩ s := by
  have hn : ∀ a, a % 4096 = 0 → (a < 4096 * (0 + (sz + 4095) / 4096) ↔ a < sz) := by
    intro a ha
    omega
  unfold uvmcopy
  refine (copyLoop_copies hpool hold (fun a ha hlt => hfresh a ha ((hn a ha.1).mp hlt))
    (.start hnew)).mono ?_ (fun _ h => h) fun _ hm => (hn maxva rfl).mp hm
  rintro r s' (⟨rfl, h⟩ | ⟨rfl, h⟩)
  · exact ⟨.inl ⟨rfl, h.copied hpool.nodup hn hfresh⟩, hold.same h.mem⟩
  · exact ⟨.inr ⟨rfl, fun a ha hlt => h.none a ha ((hn a ha.1).mpr hlt), h.frames, h.free, h.mem⟩,
      hold.same h.mem⟩

end

/-- A parent at 524301 with the page 4096, and an empty child at 524305. -/
def forkSys (free : List Frame) : Sys where
  kend := 524300
  tramp := 524290
  freelist := free
  held := []
  script := []
  mem f :=
    if f = 524301 then .ptes fun i => if i = 0 then Pte.table 524302 else Pte.zero
    else if f = 524302 then .ptes fun i => if i = 0 then Pte.table 524303 else Pte.zero
    else if f = 524303 then .ptes fun i => if i = 1 then ⟨true, Perm.ur, 524304⟩ else Pte.zero
    else if f = 524304 then Cell.fill 7
    else Cell.fill 0
  stack _ := 0
  fs := ⟨fun _ => .empty, 0, fun _ => none, []⟩

theorem tableAt_forkSys {free : List Frame} {p : Spot} {t : Frame}
    (h : tableAt (forkSys free).mem 524301 p = some t) : t = 524301 ∨ t = 524302 ∨ t = 524303 := by
  have h₁ : ∀ i t, child (forkSys free).mem 524301 i = some t → t = 524302 := by
    intro i t ht
    obtain ⟨-, hv, rfl⟩ := child_eq_some.mp ht
    simp only [forkSys, if_true, Cell.pte] at hv ⊢
    split at hv
    · rename_i hi
      rw [if_pos hi]
      rfl
    · cases hv
  cases p with
  | top => exact .inl (Option.some.inj h).symm
  | mid i => exact .inr (.inl (h₁ i t h))
  | low i j =>
      obtain ⟨u, hu, ht⟩ := Option.bind_eq_some_iff.mp h
      obtain rfl := h₁ i u hu
      obtain ⟨-, hv, rfl⟩ := child_eq_some.mp ht
      simp only [forkSys, Nat.reduceEqDiff, if_false, if_true, Cell.pte] at hv ⊢
      split at hv
      · rename_i hi
        rw [if_pos hi]
        exact .inr (.inr rfl)
      · cases hv

theorem standsBy_forkSys {free : List Frame} (h : ∀ f ∈ free, 524310 ≤ f) :
    StandsBy 524301 524305 (forkSys free) := by
  have hpool : ∀ t : Nat, t < 524305 → t ∉ (forkSys free).pool := by
    intro t ht hm
    rw [show (forkSys free).pool = free from List.append_nil free] at hm
    have hge : (524310 : Nat) ≤ t := h t hm
    omega
  have hun : ∀ t : Nat, t < 524305 → Unlinked (forkSys free).mem 524305 t := by
    intro t ht p hp
    have hnone : ∀ i, child (forkSys free).mem 524305 i = none := fun i => by simp [child, forkSys]
    cases p with
    | top => exact absurd (Option.some.inj hp) (Nat.ne_of_gt ht)
    | mid i => simp [tableAt, hnone] at hp
    | low i j => simp [tableAt, hnone] at hp
  refine ⟨fun p t hp => ?_, fun a _ hv => ?_⟩
  · have hlt : (show Nat from t) < 524305 := by
      rcases tableAt_forkSys hp with rfl | rfl | rfl <;> decide
    exact ⟨hpool t hlt, hun t hlt⟩
  · -- the only valid entry
    have hpa : (leaf (forkSys free).mem 524301 a).pa = 524304 := by
      by_cases h2 : px 2 a = 0 <;> by_cases h1 : px 1 a = 0 <;> by_cases h0 : px 0 a = 1 <;>
        simp_all [leaf, leafAddr, forkSys, Cell.pte, Pte.table, Pte.zero]
    rw [hpa]
    exact ⟨hpool _ (by decide), hun _ (by decide)⟩

/-- With three free frames the page is copied, with two the call fails. -/
theorem uvmcopy_copies_or_rolls_back_page :
    (∃ s', uvmcopy 524301 524305 8192 (forkSys [524310, 524311, 524312]) = .ret 0 s' [] ∧
      CopiedPages 524301 524305 8192 (forkSys [524310, 524311, 524312]) s') ∧
    ∃ s', uvmcopy 524301 524305 8192 (forkSys [524310, 524311]) = .ret (-1) s' [] ∧
      RolledBack 524305 8192 (forkSys [524310, 524311]) s' := by
  have hfresh : ∀ free a, (leaf (forkSys free).mem 524305 a).v = false := fun free a => by
    simp [leaf, leafAddr, forkSys]
  have hok : ∀ free : List Frame, free.Nodup → 524305 ∉ free → TableOk 524305 (forkSys free) := by
    intro free hnd hn
    have hp : (forkSys free).pool = free := List.append_nil free
    exact .empty rfl (by rw [hp]; exact hn) (by rw [hp]; exact hnd)
  constructor
  · obtain ⟨s', hs'⟩ : ∃ s', uvmcopy 524301 524305 8192 (forkSys [524310, 524311, 524312])
        = .ret 0 s' [] := ⟨_, rfl⟩
    have h := (@uvmcopy_copies_or_rolls_back 524301 524305 (forkSys [524310, 524311, 524312]) 8192
      ⟨by decide, by decide, by decide⟩ (hok _ (by decide) (by decide))
      (standsBy_forkSys (by decide)) fun a _ _ => hfresh _ a).of_ret hs' fun _ _ => trivial
    rcases h.1 with ⟨-, h⟩ | ⟨hc, -⟩
    · exact ⟨s', hs', h⟩
    · cases hc
  · obtain ⟨s', hs'⟩ : ∃ s', uvmcopy 524301 524305 8192 (forkSys [524310, 524311])
        = .ret (-1) s' [] := ⟨_, rfl⟩
    have h := (@uvmcopy_copies_or_rolls_back 524301 524305 (forkSys [524310, 524311]) 8192
      ⟨by decide, by decide, by decide⟩ (hok _ (by decide) (by decide))
      (standsBy_forkSys (by decide)) fun a _ _ => hfresh _ a).of_ret hs' fun _ _ => trivial
    rcases h.1 with ⟨hc, -⟩ | ⟨-, h⟩
    · cases hc
    · exact ⟨s', hs', h⟩

end OsSuite.Xv6
