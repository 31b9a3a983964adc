import OsSuite.Xv6.Paging

/-!
# UserMem — the trap and the ways to user memory

The page-fault branch of `usertrap`, user instructions, `copyin` and
`copyout`, as moves and stores of an address space. A trap that returns
has made progress: the page is mapped, or may now be written.
-/

namespace OsSuite.Xv6

open Table

section
variable {root : Frame} {role : Frame → Role} {st : St}

/-! ## The trap -/

/-- The entry a minor fault is about. -/
def minorOf (m : Mem) (root : Frame) (acc : Access) (va : Nat) : Option (Frame × Nat × Pte) :=
  (leafAddr m root va).bind fun x =>
    if acc = .store ∧ (leaf m root va).v ∧ ¬ (leaf m root va).perm.w
    then some (x.1, x.2, leaf m root va) else none

theorem wp_minorFault {A : Event → Prop} {acc : Access} {va : Nat} {s : Sys}
    {Q : Post Sys (Option (Frame × Nat × Pte))} (hva : va < maxva) :
    wp A (minorFault root acc va) Q s ↔ Q.ret (minorOf s.mem root acc va) s := by
  unfold minorFault minorOf
  rw [wp_bind, wp_walk_noalloc hva]
  cases ha : leafAddr s.mem root va with
  | none => simp
  | some x =>
      obtain ⟨pt, i⟩ := x
      simp [leaf_of_some ha]

/-- `PTE_W` is set in the entry for a page. -/
theorem Own.allowWrite (h : Own root role st) {va i : Nat} {pt : Frame} (hal : va % 4096 = 0)
    (hva : va < maxva) (ha : leafAddr st.sys.mem root va = some (pt, i)) :
    ∃ s', s' = st.sys.setCell pt ((st.sys.mem pt).setPte i
        { leaf st.sys.mem root va with perm := { (leaf st.sys.mem root va).perm with w := true } }) ∧
      Own root role ⟨s', st.p⟩ ∧ Kept (Role.foreign root) role role st.sys.mem s'.mem ∧
      (trapframeVa ≤ va → (⟨s', st.p⟩ : St).space = st.space) ∧
      ∀ x, st.space.img va = some x →
        (⟨s', st.p⟩ : St).space = st.space.map va ({ x.1 with w := true }, x.2) := by
  obtain ⟨s', hs', hstep, hleaf, haddr, hpage⟩ := reprotect_spec h.inv h.wf hal hva ha
    { (leaf st.sys.mem root va).perm with w := true }
  refine ⟨s', hs', ⟨h.root_eq, hstep.inv, hstep.wf, fun b hbal hbt hbm => ?_, h.lists⟩, hstep.kept,
    fun hge => ?_, fun x hx => ?_⟩
  · have htop := h.top b hbal hbt hbm
    rw [hleaf b hbal hbm]
    split
    · rename_i hb
      rw [hb] at htop
      exact htop
    · exact htop
  · rw [space_mk h.root_eq hstep.conf]
    simp only [haddr]
    rw [imgOf_congr (m := st.sys.mem) fun b hbal hbt => ?_, ← space_img h.root_eq,
      ← space_low h.root_eq]
    rw [hpage b hbal hbt, if_neg (by omega)]
  · rw [space_img h.root_eq] at hx
    obtain ⟨huser, hx⟩ := imgOf_eq_some.mp hx
    rw [space_mk h.root_eq hstep.conf]
    simp only [haddr]
    rw [imgOf_update huser (m := st.sys.mem) (x := some ({ x.1 with w := true }, x.2)),
      ← space_img h.root_eq, ← space_low h.root_eq]
    · rfl
    · intro b hbal hbt
      rw [hpage b hbal hbt, hx, ← (pageAt_eq_some.mp hx).2.1]
      rfl

/-- What a trap has done about the access that caused it, when the
process goes on: the page was faulted in, or it may now be written. The
two top pages are left out. -/
def Trapped (acc : Access) (va : Nat) (st : St) (w : List Event) (st' : St) : Prop :=
  FaultedIn st (pgrounddown va) w st' ∨ trapframeVa ≤ pgrounddown va ∨
    (acc = .store ∧ ∃ x, st.space.img (pgrounddown va) = some x ∧ x.1.w = false ∧
      st'.space.img (pgrounddown va) = some ({ x.1 with w := true }, x.2))

theorem Own.setkilled (h : Own root role st) :
    Own root role (st.withProc { st.p with killed := true }) :=
  h.withProc rfl ⟨h.lists.sz_le, h.lists.nonneg, h.lists.resident, h.lists.swapped⟩

/-- The write trap on page `va`. -/
theorem Own.ends_setDirty (h : Own root role st) {va : Nat} {x : Perm × Page}
    (hx : st.space.img va = some x) (hw : x.1.w = false)
    (hok : st.p.heapStart ≤ va ∨ st.p.phdrWritable va = true) {st₁ : St}
    (hown : Own root role st₁) (hp : st₁.p = st.p)
    (hk : Kept (Role.foreign root) role role st.sys.mem st₁.sys.mem)
    (hsp : st₁.space = st.space.map va ({ x.1 with w := true }, x.2))
    {E : St → List Event → Prop} {P : String → List Event → Prop} :
    ends (setDirty va) (fun _ st' w => Paged root role st w st' ∧
      st'.space.img va = some ({ x.1 with w := true }, x.2)) E P st₁ := by
  unfold setDirty
  rw [ends_bind, ends_get]
  dsimp only
  split
  · rename_i hi
    rw [hp] at hi
    refine ends_pure.mpr ⟨⟨role, hown, hk, ?_⟩, ?_⟩
    · rw [hsp]
      exact .step (.minor hx hw hok hi)
    · rw [hsp]
      exact Space.map_self ..
  · rename_i i hi
    rw [hp] at hi
    have hsp' : (⟨st₁.sys, st.p.markDirty i⟩ : St).space
        = (st.space.map va ({ x.1 with w := true }, x.2)).withProc (st.p.markDirty i) := by
      rw [← hsp]
      exact St.space_withProc st₁ (by rw [hp]; rfl)
    simp only [ends_bind, ends_modifyProc, ends_tell, hp, List.nil_append]
    refine ⟨⟨role, hown.withProc (by rw [hp]; rfl) (h.lists.markDirty (residentIdx_some hi).1), hk, ?_⟩, ?_⟩
    · rw [hsp']
      exact .step (.dirty hx hw hok hi)
    · rw [hsp']
      exact Space.map_self ..

/-- **The page-fault branch of `usertrap`.** -/
theorem runs_pageFault (h : Own root role st) (acc : Access) {va : Nat} (hva : va < maxva) :
    Runs root role st (pageFault acc va) fun _ st' w => Paged root role st w st' ∧
      (st'.p.killed = true ∨ Trapped acc va st w st') := by
  have hkill : ∀ {st₁ : St} {w : List Event}, Paged root role st w st₁ →
      Paged root role st w (st₁.withProc { st₁.p with killed := true }) := by
    rintro st₁ w ⟨role₁, hown₁, hk₁, hm₁⟩
    refine ⟨role₁, hown₁.setkilled, hk₁, ?_⟩
    have hm := hm₁.trans (.step (.kill _))
    rw [List.append_nil] at hm
    exact hm
  have hal := pgrounddown_aligned va
  have hlt : pgrounddown va < maxva := (pgrounddown_le va).trans_lt hva
  unfold pageFault setkilled
  refine .get ?_
  unfold Runs
  rw [ends_bind]
  refine ends_onSys_look (quiet_minorFault _ _ _) ((wp_minorFault hva).mpr ⟨rfl, rfl⟩) ?_
  rw [h.root_eq]
  simp only [List.nil_append]
  split
  · -- a store to a page that is mapped without `PTE_W`
    rename_i pt i pte hminor
    unfold minorOf at hminor
    obtain ⟨⟨pt', i'⟩, haddr, hminor⟩ := Option.bind_eq_some_iff.mp hminor
    split at hminor
    · rename_i hcond
      simp only [Option.some.injEq, Prod.mk.injEq] at hminor
      obtain ⟨rfl, rfl, rfl⟩ := hminor
      obtain ⟨hstore, hv, hnw⟩ := hcond
      split
      · rename_i hok
        rw [← leafAddr_pgrounddown] at haddr
        rw [← leaf_pgrounddown] at hv hnw ⊢
        obtain ⟨s', hs', hown, hk, htop, huser⟩ := h.allowWrite hal hlt haddr
        unfold writePte
        rw [ends_bind, ends_onSys_modify, ← hs']
        simp only [List.nil_append]
        by_cases hu : pgrounddown va < trapframeVa
        · have himg : st.space.img (pgrounddown va) = some ((leaf st.sys.mem root (pgrounddown va)).perm,
              (st.sys.mem (leaf st.sys.mem root (pgrounddown va)).pa).page) := by
            rw [space_img h.root_eq, imgOf_user ⟨hal, hu⟩]
            exact pageAt_eq_some.mpr ⟨hv, rfl, rfl⟩
          have hw : (leaf st.sys.mem root (pgrounddown va)).perm.w = false := by simpa using hnw
          refine (h.ends_setDirty himg hw hok hown rfl hk (huser _ himg)).mono
            (fun _ _ _ hq _ => ⟨hq.1, .inr (.inr (.inr ⟨hstore, _, himg, hw, hq.2⟩))⟩)
            (fun _ _ hf => hf) fun _ _ hf => hf
        · -- the trampoline or the trapframe page, which no list names
          have hidx : st.p.residentIdx (pgrounddown va) = none :=
            residentIdx_none.mpr fun e he heq => hu (heq ▸ (h.lists.resident e he).2)
          unfold setDirty
          rw [ends_bind, ends_get]
          dsimp only
          rw [hidx]
          refine ends_pure.mpr fun _ => ⟨⟨role, hown, hk, ?_⟩, .inr (.inr (.inl (not_lt.mp hu)))⟩
          rw [htop (not_lt.mp hu)]
          exact .refl _
      · refine ends_modifyProc.mpr fun _ => ⟨?_, .inl rfl⟩
        exact hkill ⟨role, h, .refl _ _ _, .refl _⟩
    · cases hminor
  · refine (runs_handlePgfault h va).bind fun r st₁ w hr => ?_
    obtain ⟨hpaged, hr, hin⟩ := hr
    have hpaged' := hpaged
    obtain ⟨role₁, hown₁, hk₁, hm₁⟩ := hpaged'
    refine ⟨role₁, hk₁, .moves hm₁, ?_⟩
    unfold Runs
    split
    · refine ends_modifyProc.mpr fun _ => ⟨?_, .inl rfl⟩
      rw [List.append_nil]
      exact hkill hpaged
    · rename_i hnn
      refine ends_pure.mpr fun _ => ?_
      simp only [List.append_nil]
      exact ⟨hpaged, .inr (.inl (hin (by omega)))⟩

/-- The process exits after the code returned. -/
theorem Used.exit {st' : St} {w : List Event} (h : Used root role st w st') (status : Int) :
    PagedExit root role st w (st'.exited status) := by
  obtain ⟨role', hown, hk, hm⟩ := h
  refine ⟨role', _, _, w, [], status, (List.append_nil w).symm, hown.exited status, ?_, hm,
    .done _, St.space_exited _ _⟩
  rw [St.exited_mem]
  exact hk

/-- `init` may not exit. -/
theorem Used.panic {st' : St} {w : List Event} (h : Used root role st w st') {m : String}
    (hm : m ≠ "kalloc failed after eviction") : PagedPanic st m w := by
  obtain ⟨role', hown, hk, hu⟩ := h
  exact ⟨_, w, [], (List.append_nil w).symm, hu, by simp, fun h => absurd h hm⟩

theorem Own.used_refl (h : Own root role st) : Used root role st [] st :=
  ⟨role, h, .refl _ _ _, .moves (.refl _)⟩

theorem Own.runs_kexit {α : Type} (h : Own root role st) (status : Int)
    {Q : α → St → List Event → Prop} : Runs root role st (kexit status) Q :=
  ends_kexit (fun _ => h.used_refl.exit _) fun _ => h.used_refl.panic (by decide)

/-! ## Bytes of a mapped page -/

/-- The page mapped at `va` is overwritten. -/
theorem Own.write (h : Own root role st) {va : Nat} {x : Perm × Page}
    (hx : st.space.img va = some x) (pg : Page) :
    ∃ s', s' = st.sys.setCell (leaf st.sys.mem root va).pa (.bytes pg) ∧
      Own root role ⟨s', st.p⟩ ∧ Kept (Role.foreign root) role role st.sys.mem s'.mem ∧
      (⟨s', st.p⟩ : St).space = st.space.map va (x.1, pg) ∧
      leaf s'.mem root va = leaf st.sys.mem root va := by
  rw [space_img h.root_eq] at hx
  obtain ⟨huser, hx⟩ := imgOf_eq_some.mp hx
  obtain ⟨hv, hperm, -⟩ := pageAt_eq_some.mp hx
  have hpage := h.wf.page va huser.1 huser.2 hv
  generalize hf : (leaf st.sys.mem root va).pa = f at hpage
  have hne : ∀ g u, role g = .owned root u → u ≠ .page va → g ≠ f := by
    rintro g u hg hu rfl
    rw [hpage] at hg
    cases hg
    exact hu rfl
  have hmem : ∀ g, g ≠ f → (st.sys.setCell f (.bytes pg)).mem g = st.sys.mem g :=
    fun g hg => Function.update_of_ne hg _ _
  have htab : ∀ g u, role g = .owned root u → (∀ b, u ≠ .page b) →
      (st.sys.setCell f (.bytes pg)).mem g = st.sys.mem g :=
    fun g u hg hu => hmem g (hne g u hg (hu va))
  have hleaf := h.wf.leaf_agree htab
  refine ⟨_, rfl, ⟨h.root_eq, h.inv.setCell _ _, h.wf.agree (fun _ _ hg => hg) htab, ?_, h.lists⟩,
    ⟨fun _ _ => rfl, fun g hg => hmem g ?_⟩, ?_, hleaf va⟩
  · intro b h1 h2 h3
    rw [hleaf]
    exact h.top b h1 h2 h3
  · rintro rfl
    rw [hpage] at hg
    simp [Role.foreign] at hg
  · rw [space_mk h.root_eq (.setCell _ _ _)]
    simp only [h.wf.leafAddr_agree htab]
    rw [imgOf_update huser (m := st.sys.mem) (x := some (x.1, pg)), ← space_img h.root_eq,
      ← space_low h.root_eq]
    · rfl
    · intro b hbal hbt
      unfold pageAt
      rw [hleaf]
      split
      · rename_i hbv
        split
        · rename_i hb
          rw [hb, hperm, hf, show (st.sys.setCell f (.bytes pg)).mem f = .bytes pg from
            Function.update_self ..]
          rfl
        · rename_i hb
          have hpb := h.wf.page b hbal hbt hbv
          rw [hmem _ (hne _ _ hpb fun hc => hb (Use.page.inj hc))]
      · rename_i hbv
        rw [if_neg]
        rintro rfl
        exact hbv hv

/-- A page the user may touch is a user page. -/
theorem Own.img_of_user (h : Own root role st) {va : Nat} (hva : va < maxva)
    (hv : (leaf st.sys.mem root va).v = true) (hu : (leaf st.sys.mem root va).perm.u = true) :
    st.space.img (pgrounddown va) = some ((leaf st.sys.mem root va).perm,
      (st.sys.mem (leaf st.sys.mem root va).pa).page) := by
  have hal := pgrounddown_aligned va
  have hlt : pgrounddown va < trapframeVa := by
    by_contra hge
    have htop := (h.top _ hal (not_lt.mp hge) ((pgrounddown_le va).trans_lt hva)).2
    rw [leaf_pgrounddown, hu] at htop
    cases htop
  rw [space_img h.root_eq, imgOf_user ⟨hal, hlt⟩]
  refine pageAt_eq_some.mpr ?_
  rw [leaf_pgrounddown]
  exact ⟨hv, rfl, rfl⟩

/-- The converse. -/
theorem Own.leaf_of_img (h : Own root role st) {va : Nat} {x : Perm × Page}
    (hx : st.space.img (pgrounddown va) = some x) :
    va < maxva ∧ (leaf st.sys.mem root va).v = true ∧ (leaf st.sys.mem root va).perm = x.1 ∧
      (st.sys.mem (leaf st.sys.mem root va).pa).page = x.2 := by
  rw [space_img h.root_eq] at hx
  obtain ⟨huser, hx⟩ := imgOf_eq_some.mp hx
  have hlt : va < maxva := by
    have h1 := pgrounddown_add_pgoff va
    have h2 := (pgoff va).isLt
    have h3 := huser.2
    unfold trapframeVa at h3
    unfold maxva
    omega
  rw [← leaf_pgrounddown]
  exact ⟨hlt, pageAt_eq_some.mp hx⟩

/-! ## User instructions -/

theorem Pte.permits_user {e : Pte} {acc : Access} (h : e.permits acc = true) :
    e.v = true ∧ e.perm.u = true ∧ (acc = .store → e.perm.w = true) := by
  cases acc <;> simp_all [Pte.permits]

/-- The access was made, between owned states. -/
def DidAccess (root : Frame) (role : Frame → Role) (st : St) (acc : Access) (va : Nat) (b : UInt8)
    (r : Option UInt8) (w : List Event) (st' : St) : Prop :=
  ∃ role', Own root role' st' ∧ Kept (Role.foreign root) role role' st.sys.mem st'.sys.mem ∧
    Space.Accessed acc va b st.space w r st'.space

/-- An access the hardware permits. -/
theorem Own.ends_access (h : Own root role st) {acc : Access} {va : Nat} (b : UInt8)
    (hva : va < maxva) (hp : (leaf st.sys.mem root va).permits acc = true)
    {E : St → List Event → Prop} {P : String → List Event → Prop} :
    ends (if acc = .store then do
        onSys (setByte (leaf st.sys.mem root va).pa (pgoff va) b)
        pure (some b)
      else pure (some ((st.sys.mem (leaf st.sys.mem root va).pa).page (pgoff va))))
      (fun r st' w => DidAccess root role st acc va b r w st' ∧ r.isSome) E P st := by
  obtain ⟨hv, hu, hw⟩ := Pte.permits_user hp
  have himg := h.img_of_user hva hv hu
  split
  · rename_i hacc
    unfold setByte
    rw [ends_bind, ends_onSys_modify]
    obtain ⟨s', hs', hown, hk, hsp, -⟩ := h.write himg
      (Function.update (st.sys.mem (leaf st.sys.mem root va).pa).page (pgoff va) b)
    rw [leaf_pgrounddown] at hs'
    rw [← hs']
    refine ends_pure.mpr ⟨⟨role, hown, hk, ?_⟩, rfl⟩
    rw [hsp]
    exact .store hacc (.refl _) himg hu (hw hacc)
  · rename_i hacc
    exact ends_pure.mpr ⟨⟨role, h, .refl _ _ _, .load hacc (.refl _) himg hu⟩, rfl⟩

end

end OsSuite.Xv6
