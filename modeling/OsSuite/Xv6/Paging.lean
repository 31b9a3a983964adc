import OsSuite.Xv6.Space

/-!
# Paging — the code of the pager makes the moves of `Space`

`Own root role st` is what the page-table specifications need of a
process: the table at `root` is well-formed under the owners `role`, and
the two top pages are out of the user's reach. `paged root` is the link
all code of a process with that table meets: the table stays in order,
nobody else's frames are touched, and the address space makes the moves
of `Space.Step`. Evictions from an empty list are not followed.
-/

namespace OsSuite.Xv6

open Table

/-- A page below the two top pages. -/
def UserVa (va : Nat) : Prop := va % 4096 = 0 ∧ va < trapframeVa

theorem UserVa.lt_maxva {va : Nat} (h : UserVa va) : va < maxva := Nat.lt_trans h.2 (by decide)

/-- The paging tables of a process name user pages only. -/
structure ListsOk (p : Proc) : Prop where
  sz_le : p.sz ≤ trapframeVa
  nonneg : 0 ≤ p.numResident
  resident : ∀ e ∈ p.residents, UserVa e.va
  swapped : ∀ e ∈ p.swapped, UserVa e.va

/-- **A process that owns its page table.** -/
structure Own (root : Frame) (role : Frame → Role) (st : St) : Prop where
  root_eq : st.p.pagetable = root
  inv : SysInv role st.sys
  wf : PtWf role st.sys.mem root
  top : ∀ b, b % 4096 = 0 → trapframeVa ≤ b → b < maxva →
    (leaf st.sys.mem root b).v = true ∧ (leaf st.sys.mem root b).perm.u = false
  lists : ListsOk st.p

/-! ## The lists -/

section
variable {p : Proc}

theorem ListsOk.dropVictim (h : ListsOk p) (hpos : 0 < p.numResident) : ListsOk p.dropVictim where
  sz_le := h.sz_le
  nonneg := by
    show 0 ≤ p.numResident - 1
    omega
  resident e he := h.resident e ((residents_dropVictim hpos).subset (List.mem_cons_of_mem _ he))
  swapped := h.swapped

theorem ListsOk.insertResident (h : ListsOk p) {va : Nat} (hva : UserVa va) (b : Bool) :
    ListsOk (p.insertResident va b) where
  sz_le := h.sz_le
  nonneg := by
    have := h.nonneg
    show 0 ≤ p.numResident + 1
    omega
  resident e he := by
    rw [residents_insertResident h.nonneg] at he
    rcases List.mem_append.mp he with he | he
    · exact h.resident e he
    · rw [List.mem_singleton.mp he]
      exact hva
  swapped := h.swapped

theorem ListsOk.takeSwapped (h : ListsOk p) (va : Nat) : ListsOk (p.takeSwapped va).2 := by
  cases hi : p.swappedIdx va with
  | none =>
      unfold Proc.takeSwapped
      rw [hi]
      exact h
  | some i =>
      have hsub := (swapped_takeSwapped hi).subset
      unfold Proc.takeSwapped at hsub ⊢
      rw [hi] at hsub ⊢
      exact ⟨h.sz_le, h.nonneg, h.resident, fun e he => h.swapped e (hsub (List.mem_cons_of_mem _ he))⟩

theorem ListsOk.swapOut (h : ListsOk p) {va : Nat} (hva : UserVa va) (slot : Nat) :
    ListsOk ((p.takeSlot slot).recordSwapped va slot) where
  sz_le := h.sz_le
  nonneg := h.nonneg
  resident := h.resident
  swapped e he := by
    rw [swapped_recordSwapped] at he
    rcases List.mem_append.mp he with he | he
    · exact h.swapped e he
    · rw [List.mem_singleton.mp he]
      exact hva

theorem ListsOk.markDirty (h : ListsOk p) {i : Nat} (hi : i < p.numResident.toNat) :
    ListsOk (p.markDirty i) where
  sz_le := h.sz_le
  nonneg := h.nonneg
  resident e he := by
    rw [residents_markDirty] at he
    rcases List.mem_or_eq_of_mem_set he with he | rfl
    · exact h.resident e he
    · exact h.resident (p.residentPages i) (mem_live.mpr ⟨i, hi, rfl⟩)
  swapped := h.swapped

theorem ListsOk.victim (h : ListsOk p) (hpos : 0 < p.numResident) : UserVa p.victimPage.va :=
  h.resident _ (victimPage_mem hpos)

end

/-! ## Images -/

section
variable {m m' : Mem} {root : Frame}

theorem imgOf_user {va : Nat} (h : UserVa va) : imgOf m root va = pageAt m root va := if_pos h

theorem imgOf_eq_some {va : Nat} {x : Perm × Page} :
    imgOf m root va = some x ↔ UserVa va ∧ pageAt m root va = some x := by
  unfold imgOf UserVa
  split
  · rename_i h; exact ⟨fun hx => ⟨h, hx⟩, fun hx => hx.2⟩
  · rename_i h; exact ⟨(nomatch ·), fun hx => absurd hx.1 h⟩

theorem imgOf_congr (h : ∀ b, b % 4096 = 0 → b < trapframeVa → pageAt m' root b = pageAt m root b) :
    imgOf m' root = imgOf m root := by
  funext b
  unfold imgOf
  split
  · rename_i hb; exact h b hb.1 hb.2
  · rfl

theorem imgOf_update {va : Nat} (hva : UserVa va) {x : Option (Perm × Page)}
    (h : ∀ b, b % 4096 = 0 → b < trapframeVa →
      pageAt m' root b = if b = va then x else pageAt m root b) :
    imgOf m' root = Function.update (imgOf m root) va x := by
  funext b
  rw [Function.update_apply]
  unfold imgOf
  split
  · rename_i hb
    exact h b hb.1 hb.2
  · rename_i hb
    rw [if_neg]
    rintro rfl
    exact hb hva

theorem imgOf_isSome {va : Nat} (h : UserVa va) :
    (imgOf m root va).isSome = (leaf m root va).v := by
  rw [imgOf_user h]
  unfold pageAt
  cases hv : (leaf m root va).v <;> simp

end

/-! ## Steps of an owner -/

section
variable {root : Frame} {role role' : Frame → Role} {st : St} {s' : Sys}

theorem Own.withProc (h : Own root role st) {p : Proc} (hroot : p.pagetable = st.p.pagetable)
    (hl : ListsOk p) : Own root role (st.withProc p) :=
  ⟨hroot.trans h.root_eq, h.inv, h.wf, h.top, hl⟩

theorem Own.withFs (h : Own root role st) (fs : Fs) : Own root role (st.withFs fs) :=
  ⟨h.root_eq, ⟨h.inv.free_nodup, h.inv.mem_free, h.inv.held_nodup, h.inv.mem_held, h.inv.valid,
    h.inv.kend_le⟩, h.wf, h.top, h.lists⟩

theorem Own.exited (h : Own root role st) (status : Int) : Own root role (st.exited status) := by
  have hl : ListsOk { st.p with swapFile := none, xstate := status, state := .zombie } :=
    ⟨h.lists.sz_le, h.lists.nonneg, h.lists.resident, h.lists.swapped⟩
  unfold St.exited
  split
  · exact h.withProc rfl hl
  · exact (h.withFs _).withProc rfl hl

theorem Own.step (h : Own root role st) (hs : PtStep root role role' st.sys s')
    (htop : ∀ b, b % 4096 = 0 → trapframeVa ≤ b → b < maxva →
      leaf s'.mem root b = leaf st.sys.mem root b) : Own root role' ⟨s', st.p⟩ :=
  ⟨h.root_eq, hs.inv, hs.wf, fun b h1 h2 h3 => by rw [htop b h1 h2 h3]; exact h.top b h1 h2 h3,
    h.lists⟩

/-- The address space over another machine state. -/
theorem space_mk (hroot : st.p.pagetable = root) (hc : SameConf st.sys s') :
    (⟨s', st.p⟩ : St).space = { st.space with
      img := imgOf s'.mem root, low := fun va => (leafAddr s'.mem root va).isSome } := by
  unfold St.space
  rw [hroot, hc.fs, hc.stack]

theorem space_img (hroot : st.p.pagetable = root) : st.space.img = imgOf st.sys.mem root := by
  rw [← hroot]
  rfl

theorem space_low (hroot : st.p.pagetable = root) :
    st.space.low = fun va => (leafAddr st.sys.mem root va).isSome := by
  rw [← hroot]
  rfl

theorem St.space_exited (st : St) (status : Int) :
    (st.exited status).space = st.space.exited status := by
  unfold St.exited St.space Space.exited
  dsimp only
  cases st.p.swapFile <;> rfl

theorem St.space_withProc (st : St) {p : Proc} (hroot : p.pagetable = st.p.pagetable) :
    (st.withProc p).space = st.space.withProc p := by
  unfold St.space St.withProc Space.withProc
  rw [hroot]

/-- The same view, the same space. -/
theorem Own.space_same (h : Own root role st) (hc : SameConf st.sys s')
    (hv : SameView root st.sys.mem s'.mem) : (⟨s', st.p⟩ : St).space = st.space := by
  rw [space_mk h.root_eq hc, imgOf_congr hv.page]
  simp only [hv.addr]
  rw [← space_img h.root_eq, ← space_low h.root_eq]

/-- `uvmunmap` of one user page. -/
theorem Own.unmap (h : Own root role st) {va : Nat} (hva : UserVa va) :
    wp (fun _ => True) (uvmunmap root va 1 true) ⟨fun _ s' => ∃ role',
        Own root role' ⟨s', st.p⟩ ∧ Kept (Role.foreign root) role role' st.sys.mem s'.mem ∧
        Unmaps root va st.sys s' ∧ (⟨s', st.p⟩ : St).space = st.space.unmap va,
      fun _ => False, fun _ => False⟩ st.sys := by
  have hmax : va + 4096 * 1 ≤ trapframeVa := by
    have h1 := hva.1
    have h2 := hva.2
    unfold trapframeVa at *
    omega
  refine (uvmunmap_free_spec h.inv h.wf hva.1 (hmax.trans (by decide)) fun k hk _ => ?_).mono
    ?_ (fun _ h => h) (fun _ h => h)
  · obtain rfl : k = 0 := by omega
    exact hva.2
  rintro _ s' ⟨role', hstep, hfreed, hleaf, haddr⟩
  have hne : ∀ b, b % 4096 = 0 → b < maxva → b ≠ va → leaf s'.mem root b = leaf st.sys.mem root b := by
    intro b hbal hbm hb
    rw [hleaf b hbal hbm, unmapped, if_neg]
    have := hva.1
    omega
  refine ⟨role', h.step hstep fun b hbal hbt hbm => hne b hbal hbm ?_, hstep.kept, ⟨hne, ?_, ?_⟩, ?_⟩
  · rintro rfl
    exact absurd hva.2 (by omega)
  · rw [hleaf va hva.1 hva.lt_maxva, unmapped]
    split
    · rfl
    · rename_i hn
      simpa using hn
  · intro hv
    rw [hfreed.freelist]
    simp [mappedIn, hv]
  · rw [space_mk h.root_eq hstep.conf]
    simp only [haddr]
    rw [imgOf_update hva (x := none), ← space_img h.root_eq, ← space_low h.root_eq]
    · rfl
    · intro b hbal hbt
      rw [h.wf.pageAt_unmapped hva.1 hfreed hmax hleaf hbal hbt]
      have := hva.1
      by_cases hb : b = va
      · rw [if_pos hb, if_pos (by omega)]
      · rw [if_neg hb, if_neg (by omega)]

end

/-! ## The link -/

/-- Observations of a call of the pager that is not finished. -/
def Event.Pending : Event → Prop
  | .evict _ | .swapFull _ | .swapOut .. | .swapFail _ | .fault .. => True
  | _ => False

/-- The call before which the other CPUs left no frame: the second
`kalloc` of `handle_pgfault`, after an eviction. -/
def Starved (w : List Event) : Prop :=
  ∃ root va n n' s s', Event.evicted root va n n' s s' ∈ w ∧ s'.others.freelist = []

section
variable (root : Frame) (role : Frame → Role) (st : St)

/-- Code of the pager returned. -/
def Paged (w : List Event) (st' : St) : Prop :=
  ∃ role', Own root role' st' ∧ Kept (Role.foreign root) role role' st.sys.mem st'.sys.mem ∧
    Space.Moves st.space w st'.space

/-- Code that also stores to user memory returned. -/
def Used (w : List Event) (st' : St) : Prop :=
  ∃ role', Own root role' st' ∧ Kept (Role.foreign root) role role' st.sys.mem st'.sys.mem ∧
    Space.Uses st.space w st'.space

/-- The process exited inside the code. -/
def PagedExit (w : List Event) (st' : St) : Prop :=
  ∃ role' a a' w₁ w₂ status, w = w₁ ++ w₂ ∧ Own root role' st' ∧
    Kept (Role.foreign root) role role' st.sys.mem st'.sys.mem ∧
    Space.Uses st.space w₁ a ∧ Space.Last a w₂ a' ∧ st'.space = a'.exited status

end

/-- The code panicked. -/
def PagedPanic (st : St) (m : String) (w : List Event) : Prop :=
  ∃ a w₁ w₂, w = w₁ ++ w₂ ∧ Space.Uses st.space w₁ a ∧ (∀ e ∈ w₂, e.Pending) ∧
    (m = "kalloc failed after eviction" → Starved w)

theorem Starved.append {w' : List Event} (h : Starved w') (w : List Event) : Starved (w ++ w') := by
  obtain ⟨root, va, n, n', s, s', hmem, hs⟩ := h
  exact ⟨root, va, n, n', s, s', List.mem_append_right _ hmem, hs⟩

section
variable {root : Frame} {role role₁ : Frame → Role} {st st₁ st' : St} {w w' : List Event}

/-- An exit in the code that comes next. -/
theorem PagedExit.after (hk : Kept (Role.foreign root) role role₁ st.sys.mem st₁.sys.mem)
    (hm : Space.Uses st.space w st₁.space) (h : PagedExit root role₁ st₁ w' st') :
    PagedExit root role st (w ++ w') st' := by
  obtain ⟨r₂, a, a', w₁, w₂, status, rfl, h₂, k₂, m₂, hlast, hsp⟩ := h
  exact ⟨r₂, a, a', _, w₂, status, (List.append_assoc ..).symm, h₂, hk.trans k₂, hm.trans m₂,
    hlast, hsp⟩

/-- A panic in the code that comes next. -/
theorem PagedPanic.after {m : String} (hm : Space.Uses st.space w st₁.space)
    (h : PagedPanic st₁ m w') : PagedPanic st m (w ++ w') := by
  obtain ⟨a, w₁, w₂, rfl, m₂, hp, hs⟩ := h
  exact ⟨a, _, w₂, (List.append_assoc ..).symm, hm.trans m₂, hp, fun hm => (hs hm).append _⟩

end

/-! ## Code run by an owner -/

/-- **The code `x`, run by the owner of the table at `root`**: it returns
in `Q`, or the process exits, or the machine panics, all of it by moves
and stores. Evictions from an empty list are not followed. -/
def Runs {α : Type} (root : Frame) (role : Frame → Role) (st : St) (x : PProg α)
    (Q : α → St → List Event → Prop) : Prop :=
  ends x (fun a st' w => (∀ e ∈ w, e.Nonempty) → Q a st' w)
    (fun st' w => (∀ e ∈ w, e.Nonempty) → PagedExit root role st w st')
    (fun m w => (∀ e ∈ w, e.Nonempty) → PagedPanic st m w) st

section
variable {α β : Type} {root : Frame} {role : Frame → Role} {st : St} {x : PProg α}
  {Q R : α → St → List Event → Prop}

theorem Runs.mono (h : Runs root role st x R) (hQ : ∀ a st' w, R a st' w → Q a st' w) :
    Runs root role st x Q :=
  ends.mono h (fun _ _ _ hr hw => hQ _ _ _ (hr hw)) (fun _ _ h => h) fun _ _ h => h

theorem Runs.pure {a : α} (h : Q a st []) : Runs root role st (pure a) Q :=
  ends_pure.mpr fun _ => h

theorem Runs.get {f : St → PProg α} (h : Runs root role st (f st) Q) :
    Runs root role st (Prog.get >>= f) Q := by
  unfold Runs at *
  rw [ends_bind, ends_get]
  exact h

/-- Nothing is claimed after an eviction from an empty list. -/
theorem ends_vacuous {w : List Event} (hw : ¬ ∀ e ∈ w, e.Nonempty)
    {Q : α → St → List Event → Prop} {E : St → List Event → Prop}
    {P : String → List Event → Prop} :
    ends x (fun a st' w' => (∀ e ∈ w ++ w', Event.Nonempty e) → Q a st' w')
      (fun st' w' => (∀ e ∈ w ++ w', Event.Nonempty e) → E st' w')
      (fun m w' => (∀ e ∈ w ++ w', Event.Nonempty e) → P m w') st :=
  ends_of_forall (fun _ _ _ h => absurd (fun e he => h e (List.mem_append_left _ he)) hw)
    (fun _ _ h => absurd (fun e he => h e (List.mem_append_left _ he)) hw)
    fun _ _ h => absurd (fun e he => h e (List.mem_append_left _ he)) hw

/-- **Sequence.** -/
theorem Runs.bind {f : α → PProg β} {Q : β → St → List Event → Prop} (hx : Runs root role st x R)
    (hf : ∀ a st₁ w, R a st₁ w → ∃ role₁,
      Kept (Role.foreign root) role role₁ st.sys.mem st₁.sys.mem ∧
      Space.Uses st.space w st₁.space ∧
      Runs root role₁ st₁ (f a) fun b st₂ w' => Q b st₂ (w ++ w')) :
    Runs root role st (x >>= f) Q := by
  unfold Runs at hx ⊢
  rw [ends_bind]
  refine hx.mono (fun a st₁ w hr => ?_) (fun _ _ h => h) fun _ _ h => h
  by_cases hw : ∀ e ∈ w, e.Nonempty
  swap
  · exact ends_vacuous hw
  obtain ⟨role₁, hk, hm, hrun⟩ := hf a st₁ w (hr hw)
  have hright : ∀ w', (∀ e ∈ w ++ w', Event.Nonempty e) → ∀ e ∈ w', Event.Nonempty e :=
    fun w' h e he => h e (List.mem_append_right _ he)
  exact ends.mono hrun (fun _ _ w' hq h => hq (hright w' h))
    (fun _ w' hq h => (hq (hright w' h)).after hk hm) fun _ w' hq h => (hq (hright w' h)).after hm

end

/-! ## Eviction -/

section
variable {root : Frame} {role : Frame → Role} {st : St}

theorem St.exited_mem (st : St) (status : Int) : (st.exited status).sys.mem = st.sys.mem := by
  unfold St.exited
  dsimp only
  split <;> rfl

theorem pagedExit_last {st₁ : St} {w : List Event} (hlast : Space.Last st.space w st₁.space)
    (hown : Own root role st₁) (hmem : st₁.sys.mem = st.sys.mem) (status : Int) :
    PagedExit root role st w (st₁.exited status) := by
  refine ⟨role, _, _, [], w, status, rfl, hown.exited status, ?_, .moves (.refl _), hlast,
    St.space_exited _ _⟩
  rw [St.exited_mem, hmem]
  exact .refl _ _ _

theorem pagedPanic_pending {m : String} {w : List Event} (hm : m ≠ "kalloc failed after eviction")
    (hw : ∀ e ∈ w, e.Pending) : PagedPanic st m w :=
  ⟨_, [], w, rfl, .moves (.refl _), hw, fun h => absurd h hm⟩

/-- A swap write that went through had a file and a mapped page. -/
theorem Own.swapWrite (h : Own root role st) {va slot : Nat} {fs : Fs} (hva : UserVa va)
    (hw : SwapWrite st.sys.fs slot (st.userPage root va) st.p.swapFile fs 0) :
    ∃ ino x, st.p.swapFile = some ino ∧ st.space.img va = some x ∧
      st.sys.fs.writei ino (fun i => x.2 (pgoff i)) (slot * 4096) 4096 = (fs, 4096) := by
  generalize hr : (0 : Int) = r at hw
  generalize hfile : st.p.swapFile = file at hw
  cases hw with
  | null => cases hr
  | @write ino pg hsrc =>
      split at hr
      · rename_i hfull
        refine ⟨ino, ((leaf st.sys.mem root va).perm, pg), rfl, ?_, Prod.ext rfl hfull⟩
        unfold St.userPage userPa at hsrc
        split at hsrc
        · rename_i hu
          cases hsrc
          rw [space_img h.root_eq, imgOf_user hva]
          exact if_pos hu.2.1
        · cases hsrc
      · cases hr
  | noBlock => cases hr
  | refused => cases hr

/-- The end of `evict_page`: the victim is unmapped and leaves the list. -/
theorem ends_dropVictim (h : Own root role st) (hpos : 0 < st.p.numResident) {i va : Nat}
    (hi : i = st.p.victim) (hva : va = st.p.victimPage.va) {r : Frame} {n : Int} {s : Sys}
    {Q : Int → St → List Event → Prop} {E : St → List Event → Prop}
    {P : String → List Event → Prop}
    (hQ : ∀ role' s', Own root role' ⟨s', st.p.dropVictim⟩ →
      Kept (Role.foreign root) role role' st.sys.mem s'.mem → Unmaps root va st.sys s' →
      (⟨s', st.p.dropVictim⟩ : St).space = (st.space.unmap va).withProc st.p.dropVictim →
      Q 0 ⟨s', st.p.dropVictim⟩
        [st.space.removeEvent, .evicted r va n (st.p.numResident - 1) s s']) :
    ends (do
      onSys (uvmunmap root va 1 true)
      removeResident i
      let st' ← Prog.get
      Prog.tell (.evicted r va n st'.p.numResident s st'.sys)
      pure (0 : Int)) Q E P st := by
  rw [ends_bind]
  refine ends_onSys_wp (quiet_uvmunmap _ _ _ _) (h.unmap (hva ▸ h.lists.victim hpos))
    (fun _ s' hc hs => ?_) fun _ hf => hf.elim
  obtain ⟨role', hown, hkept, hun, hsp⟩ := hs
  simp only [ends_bind, ends_get, ends_tell, ends_pure, List.nil_append, List.append_nil]
  refine ends_removeResident hpos hi ?_
  refine hQ role' s' (hown.withProc rfl (h.lists.dropVictim hpos)) hkept hun ?_
  have hsp' : (St.space ⟨s', st.p⟩).withProc st.p.dropVictim
      = (st.space.unmap va).withProc st.p.dropVictim := by rw [hsp]
  exact hsp'

/-- **`evict_page`** on a non-empty list is one move. -/
theorem ends_evictPage (h : Own root role st) (hpos : 0 < st.p.numResident) :
    ends evictPage
      (fun r st' w => r = 0 ∧ (∃ role', Own root role' st' ∧
          Kept (Role.foreign root) role role' st.sys.mem st'.sys.mem ∧
          Space.Step st.space w st'.space) ∧
        ∃ w₀ r va n n' s, w = w₀ ++ [.evicted r va n n' s st'.sys])
      (fun st' w => PagedExit root role st w st') (fun m w => PagedPanic st m w) st := by
  obtain rfl := h.root_eq
  have hvic := h.lists.victim hpos
  have hmapped : (st.space.img st.p.victimPage.va).isSome
      = (leaf st.sys.mem st.p.pagetable st.p.victimPage.va).v := imgOf_isSome hvic
  unfold evictPage
  rw [ends_bind, ends_get, ends_bind, ends_tell]
  simp only [List.nil_append]
  split
  · -- a dirty victim goes to the swap file first
    rename_i hdirty
    rw [ends_bind]
    refine ends_swapOut (fun hslot => ⟨?_, ?_⟩) (fun slot fs hslot hwrite => ?_)
      (fun slot fs r hslot hwrite hr => ⟨?_, ?_⟩) fun slot hslot => ?_
    · exact pagedExit_last (.swapFull hpos hslot) h rfl (-1)
    · exact pagedPanic_pending (by decide) (by simp [Event.Pending])
    · obtain ⟨ino, x, hfile, himg, hw⟩ := h.swapWrite hvic hwrite
      have hout : Own st.p.pagetable role ((st.withFs fs).withProc
          ((st.p.takeSlot slot).recordSwapped st.p.victimPage.va slot)) :=
        (h.withFs fs).withProc rfl (h.lists.swapOut hvic slot)
      refine ends_dropVictim hout hpos rfl rfl ?_
      intro role' s' hown hkept hun hsp
      refine ⟨rfl, ⟨role', hown, hkept, ?_⟩, [_, _, _], _, _, _, _, _, rfl⟩
      rw [hsp]
      exact .swapOut ⟨hpos, hmapped, hun.other, hun.gone, hun.freed⟩ hdirty hslot hfile himg hw
    · have hown : Own st.p.pagetable role ((st.withFs fs).withProc (st.p.takeSlot slot)) :=
        (h.withFs fs).withProc rfl
          ⟨h.lists.sz_le, h.lists.nonneg, h.lists.resident, h.lists.swapped⟩
      have hlast : Space.Last st.space _ ((st.withFs fs).withProc (st.p.takeSlot slot)).space :=
        .swapFail hpos hslot hwrite
      exact pagedExit_last hlast hown rfl (-1)
    · exact pagedPanic_pending (by decide) (by simp [Event.Pending, swapOutEvent])
    · exact pagedPanic_pending (by decide) (by simp [Event.Pending, swapOutEvent])
  · rename_i hclean
    refine ends_dropVictim h hpos rfl rfl ?_
    intro role' s' hown hkept hun hsp
    refine ⟨rfl, ⟨role', hown, hkept, ?_⟩, [_, _], _, _, _, _, _, rfl⟩
    rw [hsp]
    exact .discard ⟨hpos, hmapped, hun⟩ (Bool.not_eq_true _ ▸ hclean)

/-! ## A frame for the page -/

theorem Role.not_foreign_of_idle {root : Frame} {r : Role} (h : r.idle = true) :
    r.foreign root = false := by
  cases r <;> simp_all [Role.foreign, Role.idle]

/-- `kalloc` leaves the address space alone. -/
theorem Own.kalloc (h : Own root role st) :
    wp (fun _ => True) Xv6.kalloc ⟨fun r s' => ∃ role', Own root role' ⟨s', st.p⟩ ∧
        Kept (Role.foreign root) role role' st.sys.mem s'.mem ∧
        (⟨s', st.p⟩ : St).space = st.space ∧
        (match r with
          | none => st.sys.others.freelist = []
          | some f => role' f = .lost ∧ (role f).foreign root = false),
      fun _ => False, fun _ => False⟩ st.sys := by
  refine (kalloc_spec h.inv).mono ?_ (fun _ h => h) (fun _ h => h)
  rintro r s' ⟨role', hinv, hc, hk, hr⟩
  obtain ⟨hwf, -, hleaf⟩ := h.wf.kept hk
  have hkept : Kept (Role.foreign root) role role' st.sys.mem s'.mem :=
    hk.mono fun r hr => by rw [Role.not_idle_of_foreign hr]; rfl
  have hview : SameView root st.sys.mem s'.mem :=
    h.wf.sameView fun f u hf => hk.mem_eq f (by rw [hf]; rfl)
  refine ⟨role', h.step ⟨hinv, hwf, hkept, hc⟩ fun b _ _ _ => hleaf b, hkept,
    h.space_same hc hview, ?_⟩
  cases r with
  | none => exact hr
  | some f => exact ⟨hr.2, Role.not_foreign_of_idle hr.1⟩

/-- **The allocation at the head of `handle_pgfault`**: any evictions are
moves, and the frame it returns was nobody else's. -/
theorem runs_allocOrEvict (h : Own root role st) :
    Runs root role st allocOrEvict fun r st' w => ∃ role', Own root role' st' ∧
      Kept (Role.foreign root) role role' st.sys.mem st'.sys.mem ∧
      Space.Moves st.space w st'.space ∧
      ∀ f, r = some f → role' f = .lost ∧ (role f).foreign root = false := by
  unfold Runs allocOrEvict
  rw [ends_bind]
  refine ends_onSys_wp quiet_kalloc h.kalloc (fun r s' hc hr => ?_) fun _ hf => hf.elim
  obtain ⟨role₁, hown₁, hk₁, hsp₁, hr⟩ := hr
  cases r with
  | some f =>
      refine ends_pure.mpr fun _ => ⟨role₁, hown₁, hk₁, ?_, fun f' hf' => ?_⟩
      · rw [hsp₁]
        exact .refl _
      · cases hf'
        exact hr
  | none =>
      have huse : Space.Uses st.space [] (⟨s', st.p⟩ : St).space := by
        rw [hsp₁]
        exact .moves (.refl _)
      rw [ends_bind]
      by_cases hpos : 0 < st.p.numResident
      · refine (ends_evictPage hown₁ hpos).mono ?_ ?_ ?_
        · rintro r st₂ w ⟨rfl, ⟨role₂, hown₂, hk₂, hstep⟩, w₀, r', va, n, n', s, hw₀⟩
          rw [hsp₁] at hstep
          rw [if_neg (by decide), ends_bind]
          refine ends_onSys_wp quiet_kalloc hown₂.kalloc (fun r s₃ hc₃ hr₃ => ?_) fun _ hf => hf.elim
          obtain ⟨role₃, hown₃, hk₃, hsp₃, hr₃⟩ := hr₃
          simp only [List.nil_append]
          cases r with
          | none =>
              -- the frame just freed is gone again
              refine ends_panic.mpr fun _ => ?_
              simp only [List.append_nil]
              have hmem : Event.evicted r' va n n' s st₂.sys ∈ w := by
                rw [hw₀]
                exact List.mem_append_right _ List.mem_cons_self
              exact ⟨_, w, [], (List.append_nil w).symm, .moves (.step hstep), by simp,
                fun _ => ⟨r', va, n, n', s, st₂.sys, hmem, hr₃⟩⟩
          | some f =>
              refine ends_pure.mpr fun _ => ⟨role₃, hown₃, (hk₁.trans hk₂).trans hk₃, ?_, ?_⟩
              · simp only [List.append_nil]
                rw [hsp₃]
                exact .step hstep
              · intro f' hf'
                cases hf'
                refine ⟨hr₃.1, ?_⟩
                -- a foreign frame would still be foreign before the second `kalloc`
                by_contra hfor
                rw [Bool.not_eq_false] at hfor
                have hkeep := (hk₁.trans hk₂).role_eq f hfor
                rw [← hkeep, hr₃.2] at hfor
                cases hfor
        · exact fun st₂ w hexit _ => hexit.after hk₁ huse
        · exact fun m w hpanic _ => hpanic.after huse
      · have hneg : ¬ 0 < (⟨s', st.p⟩ : St).p.numResident := hpos
        refine ends_evictPage_empty hneg (fun r st' w hw => ?_) ?_ ?_
        · refine ends_of_forall (fun _ _ w' hw' => ?_) (fun _ w' hw' => ?_) fun _ w' hw' => ?_
          all_goals exact absurd (fun e he => hw' e (by simp [he])) hw
        · exact fun _ _ hw hw' => absurd hw' hw
        · exact fun _ _ hw hw' => absurd hw' hw

/-! ## Fetching a page -/

/-- The frame `f` is set aside for the page at `va`. -/
structure Holds (root : Frame) (role : Frame → Role) (st : St) (f : Frame) (va : Nat) : Prop where
  own : Own root role st
  page : role f = .owned root (.page va)
  unmapped : Unmapped st.sys.mem root f

/-- A frame from `kalloc` is filled and set aside. -/
theorem Own.hold (h : Own root role st) {f : Frame} (hf : role f = .lost) (va : Nat) (c : Cell) :
    ∃ role', Holds root role' ⟨st.sys.setCell f c, st.p⟩ f va ∧
      (⟨st.sys.setCell f c, st.p⟩ : St).space = st.space ∧
      ∀ role₀ m₀, (role₀ f).foreign root = false →
        Kept (Role.foreign root) role₀ role m₀ st.sys.mem →
        Kept (Role.foreign root) role₀ role' m₀ (st.sys.setCell f c).mem := by
  have hne : ∀ g u, role g = .owned root u → g ≠ f := by
    rintro g u hg rfl
    rw [hf] at hg
    cases hg
  have hmem : ∀ g u, role g = .owned root u → (st.sys.setCell f c).mem g = st.sys.mem g :=
    fun g u hg => Function.update_of_ne (hne g u hg) _ _
  have hview : SameView root st.sys.mem (st.sys.setCell f c).mem := h.wf.sameView hmem
  refine ⟨Function.update role f (.owned root (.page va)), ⟨⟨h.root_eq, ?_, ?_, ?_, h.lists⟩, ?_, ?_⟩,
    h.space_same (.setCell _ _ _) hview, fun role₀ m₀ hfor hk => ⟨fun g hg => ?_, fun g hg => ?_⟩⟩
  · exact h.inv.update (by rw [hf]; rfl) (by rw [hf]; simp) rfl c
  · exact h.wf.agree (fun g u hg => by rw [Function.update_of_ne (hne g u hg)]; exact hg)
      fun g u hg _ => hmem g u hg
  · intro b h1 h2 h3
    rw [hview.leaf]
    exact h.top b h1 h2 h3
  · exact Function.update_self ..
  · intro b hbal hbt hv
    rw [hview.leaf] at hv ⊢
    exact hne _ _ (h.wf.page b hbal hbt hv)
  all_goals
    have hgf : g ≠ f := by
      rintro rfl
      rw [hfor] at hg
      cases hg
  · rw [Function.update_of_ne hgf]
    exact hk.role_eq g hg
  · rw [show (st.sys.setCell f c).mem g = st.sys.mem g from Function.update_of_ne hgf _ _]
    exact hk.mem_eq g hg

section
variable {f : Frame} {va : Nat}

/-- Filling the frame is not seen. -/
theorem Holds.fill (h : Holds root role st f va) (c : Cell) :
    Holds root role ⟨st.sys.setCell f c, st.p⟩ f va ∧
      (⟨st.sys.setCell f c, st.p⟩ : St).space = st.space ∧
      Kept (Role.foreign root) role role st.sys.mem (st.sys.setCell f c).mem := by
  have hmem : ∀ g, g ≠ f → (st.sys.setCell f c).mem g = st.sys.mem g :=
    fun g hg => Function.update_of_ne hg _ _
  have htab : ∀ g u, role g = .owned root u → (∀ b, u ≠ .page b) →
      (st.sys.setCell f c).mem g = st.sys.mem g := by
    rintro g u hg hu
    refine hmem g ?_
    rintro rfl
    rw [h.page] at hg
    cases hg
    exact hu va rfl
  have hleaf := h.own.wf.leaf_agree htab
  have hview : SameView root st.sys.mem (st.sys.setCell f c).mem := by
    refine ⟨hleaf, h.own.wf.leafAddr_agree htab, fun b hbal hbt => ?_⟩
    unfold pageAt
    rw [hleaf]
    split
    · rename_i hv
      rw [hmem _ (h.unmapped b hbal hbt hv)]
    · rfl
  refine ⟨⟨⟨h.own.root_eq, h.own.inv.setCell _ _, h.own.wf.agree (fun _ _ hg => hg) htab, ?_,
    h.own.lists⟩, h.page, ?_⟩, h.own.space_same (.setCell _ _ _) hview, fun _ _ => rfl, ?_⟩
  · intro b h1 h2 h3
    rw [hleaf]
    exact h.own.top b h1 h2 h3
  · intro b hbal hbt hv
    rw [hleaf] at hv ⊢
    exact h.unmapped b hbal hbt hv
  · intro g hg
    refine hmem g ?_
    rintro rfl
    rw [h.page] at hg
    simp [Role.foreign] at hg

/-- A frame that is not used goes back. -/
theorem Holds.kfree (h : Holds root role st f va) :
    wp (fun _ => True) (Xv6.kfree f) ⟨fun _ s' => ∃ role', Own root role' ⟨s', st.p⟩ ∧
        Kept (Role.foreign root) role role' st.sys.mem s'.mem ∧
        (⟨s', st.p⟩ : St).space = st.space,
      fun _ => False, fun _ => False⟩ st.sys := by
  refine (kfree_booked_spec h.own.inv h.own.wf h.page h.unmapped).mono ?_ (fun _ h => h)
    (fun _ h => h)
  rintro _ s' ⟨role', hstep, hview, -⟩
  exact ⟨role', h.own.step hstep fun b _ _ _ => hview.leaf b, hstep.kept,
    h.own.space_same hstep.conf hview⟩

end

/-- **What `mapOrFree` does to an address space**; `r` is its result. -/
inductive Mapped (a : Space) (va : Nat) (x : Perm × Page) : Bool → Space → Prop where
  | done {low : Nat → Bool} (hva : va < trapframeVa) (himg : a.img va = none)
      (hmono : ∀ b, a.low b = true → low b = true) (hlow : low va = true) :
      Mapped a va x true (Space.map { a with low := low } va x)
  | failed {low : Nat → Bool} (hmono : ∀ b, a.low b = true → low b = true)
      (h : va < trapframeVa → a.low va = false ∨ (a.img va).isSome) :
      Mapped a va x false { a with low := low }

theorem Holds.mapOrFree {f : Frame} {va : Nat} (h : Holds root role st f va)
    (hal : va % 4096 = 0) (hva : va < maxva) (perm : Perm) :
    wp (fun _ => True) (Xv6.mapOrFree root va f perm) ⟨fun r s' => ∃ role',
        Own root role' ⟨s', st.p⟩ ∧ Kept (Role.foreign root) role role' st.sys.mem s'.mem ∧
        Mapped st.space va (perm, (st.sys.mem f).page) r (⟨s', st.p⟩ : St).space,
      fun _ => False, fun _ => False⟩ st.sys := by
  refine (mapOrFree_spec h.own.inv h.own.wf hal hva h.page h.unmapped).mono ?_ (fun _ h => h)
    (fun _ h => h)
  rintro r s' ⟨role', hres⟩
  have hroot := h.own.root_eq
  have hmono : ∀ b, st.space.low b = true → (leafAddr s'.mem root b).isSome = true := by
    intro b hb
    rw [space_low hroot] at hb
    rw [hres.tables b hb]
    exact hb
  -- the two top pages are taken
  have hlt : r = true → va < trapframeVa := by
    intro hr
    by_contra hge
    have htaken := (h.own.top va hal (not_lt.mp hge) hva).1
    rw [hres.fresh hr] at htaken
    cases htaken
  have htop : ∀ b, b % 4096 = 0 → trapframeVa ≤ b → b < maxva →
      leaf s'.mem root b = leaf st.sys.mem root b := by
    intro b hbal hbt hbm
    rw [hres.leaf b hbal hbm, if_neg]
    rintro ⟨rfl, hr⟩
    exact absurd (hlt hr) (by omega)
  refine ⟨role', h.own.step hres.step htop, hres.step.kept, ?_⟩
  rw [space_mk hroot hres.step.conf]
  cases r with
  | true =>
      have huser : UserVa va := ⟨hal, hlt rfl⟩
      rw [imgOf_update huser (m := st.sys.mem) (x := some (perm, (st.sys.mem f).page))
        fun b hbal hbt => by simpa using hres.page b hbal hbt]
      rw [← space_img hroot]
      refine .done (hlt rfl) ?_ hmono ?_
      · rw [space_img hroot, imgOf_user huser]
        exact pageAt_eq_none.mpr (hres.fresh rfl)
      · refine leafAddr_of_valid ?_
        rw [hres.leaf va hal hva, if_pos ⟨rfl, rfl⟩]
  | false =>
      rw [imgOf_congr (m := st.sys.mem) fun b hbal hbt => by simpa using hres.page b hbal hbt,
        ← space_img hroot]
      refine .failed hmono fun hva' => ?_
      rcases hres.failed rfl with hv | hn
      · right
        rw [space_img hroot, imgOf_isSome ⟨hal, hva'⟩]
        exact hv
      · left
        rw [space_low hroot]
        simp [hn]

/-- Where a page comes from: a slot of the swap file, or Case 2. -/
def Space.Source (a : Space) (va : Nat) : Option Nat → Perm × Page → Prop
  | none, x => a.load va = some x
  | some slot, x => ∃ ino, a.p.swapFile = some ino ∧
      Fs.readi (a.fs.inode ino) (slot * 4096) 4096 = 4096 ∧
      x = (Perm.ur, swapPage (a.fs.inode ino) slot)

/-- What the two cases of `handle_pgfault` do to an address space. -/
def Fetched (a : Space) (va : Nat) (slot : Option Nat) (r : Bool) (a' : Space) : Prop :=
  (∃ x, a.Source va slot x ∧ Mapped a va x r a') ∨ (slot = none ∧ r = false ∧ a' = a)

/-- The result of a fetch. -/
def FetchPost (root : Frame) (role : Frame → Role) (st : St) (va : Nat) (slot : Option Nat)
    (r : Bool) (st' : St) (w : List Event) : Prop :=
  w = [] ∧ ∃ role', Own root role' st' ∧
    Kept (Role.foreign root) role role' st.sys.mem st'.sys.mem ∧
    Fetched st.space va slot r st'.space

section
variable {f : Frame} {va : Nat}

/-- A page from its source is mapped; `st₀` is the state before the frame
was filled. -/
theorem Holds.ends_map {st₀ : St} (h : Holds root role st f va) (hsp : st.space = st₀.space)
    (hk : Kept (Role.foreign root) role role st₀.sys.mem st.sys.mem) (hal : va % 4096 = 0)
    (hva : va < maxva) {slot : Option Nat} {perm : Perm} {pg : Page}
    (hpg : (st.sys.mem f).page = pg) (hx : st₀.space.Source va slot (perm, pg))
    {E : St → List Event → Prop} {P : String → List Event → Prop} :
    ends (onSys (Xv6.mapOrFree root va f perm)) (FetchPost root role st₀ va slot) E P st := by
  refine ends_onSys_wp (quiet_mapOrFree _ _ _ _) (h.mapOrFree hal hva perm)
    (fun r s' _ hr => ?_) fun _ hf => hf.elim
  obtain ⟨role', hown, hkept, hm⟩ := hr
  rw [hpg, hsp] at hm
  exact ⟨rfl, role', hown, hk.trans hkept, .inl ⟨_, hx, hm⟩⟩

/-- A frame that is not used goes back. -/
theorem Holds.ends_kfree (h : Holds root role st f va) {E : St → List Event → Prop}
    {P : String → List Event → Prop} :
    ends (do onSys (Xv6.kfree f); pure false) (FetchPost root role st va none) E P st := by
  rw [ends_bind]
  refine ends_onSys_wp (quiet_kfree _) h.kfree (fun _ s' _ hs => ?_) fun _ hf => hf.elim
  obtain ⟨role', hown, hkept, hsp⟩ := hs
  exact ends_pure.mpr ⟨rfl, role', hown, hkept, .inr ⟨rfl, rfl, hsp⟩⟩

/-- **Case 1 of `handle_pgfault`.** -/
theorem Holds.ends_swapIn (h : Holds root role st f va) (hal : va % 4096 = 0) (hva : va < maxva)
    (slot : Nat) {E : St → List Event → Prop} :
    ends (swapIn root va slot f) (FetchPost root role st va (some slot)) E
      (fun m w => w = [] ∧ m ≠ "kalloc failed after eviction") st := by
  unfold swapIn
  rw [ends_bind, ends_get]
  dsimp only
  split
  · exact ends_panic.mpr ⟨rfl, by decide⟩
  · rename_i ino hfile
    split
    · exact ends_panic.mpr ⟨rfl, by decide⟩
    · rename_i hread
      obtain ⟨hh, hsp, hk⟩ := h.fill (.bytes (swapPage (st.sys.fs.inode ino) slot))
      unfold fillFrame
      rw [ends_bind, ends_onSys_modify]
      have hsrc : st.space.Source va (some slot)
          (Perm.ur, swapPage (st.sys.fs.inode ino) slot) := ⟨ino, hfile, not_not.mp hread, rfl⟩
      exact hh.ends_map hsp hk hal hva (congrArg Cell.page (Function.update_self ..)) hsrc

/-- **Case 2 of `handle_pgfault`**, with a zeroed frame. -/
theorem Holds.ends_loadPage (h : Holds root role st f va) (hal : va % 4096 = 0) (hva : va < maxva)
    (hzero : (st.sys.mem f).page = fun _ => 0) {E : St → List Event → Prop} :
    ends (loadPage root va f) (FetchPost root role st va none) E
      (fun m w => w = [] ∧ m ≠ "kalloc failed after eviction") st := by
  unfold loadPage
  rw [ends_bind, ends_get]
  split
  · exact ends_pure.mpr ⟨rfl, role, h.own, .refl _ _ _, .inr ⟨rfl, rfl, rfl⟩⟩
  · rename_i hrange
    have hrange' : va < st.space.p.heapStart ∨ va < st.space.p.sz := by
      show va < st.p.heapStart ∨ va < st.p.sz
      omega
    split
    · exact ends_panic.mpr ⟨rfl, by decide⟩
    · rename_i ino hip
      have hmap : ∀ x, st.space.load va = some x → st.space.Source va none x := fun _ hx => hx
      dsimp only
      split
      · rename_i ph hseg
        split
        · exact h.ends_kfree
        · rename_i hread
          obtain ⟨hh, hsp, hk⟩ := h.fill
            (.bytes (filePage (st.sys.fs.inode ino) (ph.fileOffset va) (ph.fileSize va)))
          unfold fillFrame
          rw [ends_bind, ends_onSys_modify]
          exact hh.ends_map hsp hk hal hva (congrArg Cell.page (Function.update_self ..))
            (hmap _ (Space.load_seg hrange' hip hseg (not_not.mp hread)))
      · rename_i hseg
        have hzeroed : ∀ hor, _ := fun hor =>
          h.ends_map rfl (.refl _ _ _) hal hva hzero
            (hmap _ (Space.load_zero hrange' hip hseg hor)) (E := E)
            (P := fun m w => w = [] ∧ m ≠ "kalloc failed after eviction")
        split
        · rename_i hsz
          exact hzeroed (.inl hsz)
        · split
          · rename_i hsp
            exact hzeroed (.inr hsp)
          · exact h.ends_kfree

theorem Holds.ends_fetchPage (h : Holds root role st f va) (hal : va % 4096 = 0) (hva : va < maxva)
    (hzero : (st.sys.mem f).page = fun _ => 0) (slot : Option Nat) {E : St → List Event → Prop} :
    ends (fetchPage root va slot f) (FetchPost root role st va slot) E
      (fun m w => w = [] ∧ m ≠ "kalloc failed after eviction") st := by
  unfold fetchPage
  cases slot with
  | none => exact h.ends_loadPage hal hva hzero
  | some slot => exact h.ends_swapIn hal hva slot

end

/-! ## The page fault -/

/-- The swap lookup by its result. -/
theorem takeSwapped_of_none {p : Proc} {va : Nat} (h : p.swappedIdx va = none) :
    p.takeSwapped va = (none, p) := by
  unfold Proc.takeSwapped
  rw [h]

theorem takeSwapped_of_some {p : Proc} {va i : Nat} (h : p.swappedIdx va = some i) :
    (p.takeSwapped va).1 = some (p.swappedPages i).slot := by
  unfold Proc.takeSwapped
  rw [h]

/-- The lookup changes the swapped list and the bitmap only. -/
theorem takeSwapped_frame (p : Proc) (va : Nat) :
    ∃ sp n sl, (p.takeSwapped va).2 = { p with swappedPages := sp, numSwapped := n, swapSlots := sl } := by
  unfold Proc.takeSwapped
  split
  · exact ⟨_, _, _, rfl⟩
  · exact ⟨_, _, _, rfl⟩

section
variable {a a' : Space} {va : Nat} {r : Bool}

theorem Fetched.p_eq {slot : Option Nat} (h : Fetched a va slot r a') : a'.p = a.p := by
  rcases h with ⟨x, -, hm⟩ | ⟨-, -, rfl⟩
  · cases hm <;> rfl
  · rfl

/-- A fetch that maps nothing. -/
theorem Fetched.reject (hlt : ∀ i, a.p.swappedIdx va = some i → va < trapframeVa)
    (h : Fetched (a.withProc (a.p.takeSwapped va).2) va (a.p.takeSwapped va).1 false a') :
    Space.Moves a [a.faultEvent va] a' := by
  cases hidx : a.p.swappedIdx va with
  | none =>
      rw [takeSwapped_of_none hidx] at h
      rcases h with ⟨x, -, hm⟩ | ⟨-, -, rfl⟩
      · cases hm with
        | failed hmono _ => exact .trans (.step (.reject hidx)) (.step (.grow _ _ hmono))
      · exact .step (.reject hidx)
  | some i =>
      rw [takeSwapped_of_some hidx] at h
      rcases h with ⟨x, -, hm⟩ | ⟨hn, -⟩
      · cases hm with
        | failed hmono hno =>
            exact .trans (.step (.lost hidx (hno (hlt i hidx)))) (.step (.grow _ _ hmono))
      · cases hn

/-- The page a fault on `va` brings in: from the swap file if it is swapped
out, and the one of Case 2 if it is not. -/
def Space.Brings (a : Space) (va : Nat) (x : Perm × Page) : Prop :=
  (a.p.swappedIdx va = none ∧ a.load va = some x) ∨ ((a.p.swappedIdx va).isSome ∧ x.1 = Perm.ur)

/-- A fetch that maps a page, which joins the resident list. -/
theorem Fetched.insert (hal : va % 4096 = 0) (hroom : a.p.numResident < maxResidentPages)
    (h : Fetched (a.withProc (a.p.takeSwapped va).2) va (a.p.takeSwapped va).1 true a') :
    Space.Moves a [a.faultEvent va, a.insertEvent va (a.p.takeSwapped va).1.isSome]
        (a'.withProc (a'.p.insertResident va (a.p.takeSwapped va).1.isSome)) ∧
      ∃ x, a'.img va = some x ∧ a.Brings va x := by
  cases hidx : a.p.swappedIdx va with
  | none =>
      rw [takeSwapped_of_none hidx] at h ⊢
      rcases h with ⟨x, hx, hm⟩ | ⟨-, hr, -⟩
      · cases hm with
        | done hva himg hmono hlow =>
            refine ⟨.trans (.step (.grow a _ hmono)) (.step ?_), x, Space.map_self ..,
              .inl ⟨hidx, hx⟩⟩
            exact .load hal hva hidx hx himg hlow hroom
      · cases hr
  | some i =>
      rw [takeSwapped_of_some hidx] at h ⊢
      rcases h with ⟨x, ⟨ino, hfile, hread, rfl⟩, hm⟩ | ⟨hn, -⟩
      · obtain ⟨sp, n, sl, hp⟩ := takeSwapped_frame a.p va
        have hfile' : a.p.swapFile = some ino := by rw [hp] at hfile; exact hfile
        cases hm with
        | done hva himg hmono hlow =>
            refine ⟨.trans (.step (.grow a _ hmono)) (.step ?_), _, Space.map_self ..,
              .inr ⟨by rw [hidx]; rfl, rfl⟩⟩
            exact .swapIn hal hva hidx hfile' hread himg hlow hroom
      · cases hn

/-- A fetch that maps a page for which the list has no room. -/
theorem Fetched.full (hal : va % 4096 = 0) (hroom : maxResidentPages ≤ a.p.numResident)
    (h : Fetched (a.withProc (a.p.takeSwapped va).2) va (a.p.takeSwapped va).1 true a') :
    ∃ a₁, Space.Moves a [] a₁ ∧ Space.Last a₁ [a.faultEvent va] a' := by
  cases hidx : a.p.swappedIdx va with
  | none =>
      rw [takeSwapped_of_none hidx] at h
      rcases h with ⟨x, hx, hm⟩ | ⟨-, hr, -⟩
      · cases hm with
        | @done low hva himg hmono hlow =>
            refine ⟨{ a with low := low }, .step (.grow a _ hmono), ?_⟩
            have hlast := Space.Last.full (a := { a with low := low }) hal hva (.inr hx) himg hroom
            rwa [show (Space.p { a with low := low }).takeSwapped va = _ from
              takeSwapped_of_none hidx] at hlast
      · cases hr
  | some i =>
      rw [takeSwapped_of_some hidx] at h
      rcases h with ⟨x, -, hm⟩ | ⟨hn, -⟩
      · cases hm with
        | @done low hva himg hmono hlow =>
            refine ⟨{ a with low := low }, .step (.grow a _ hmono), ?_⟩
            refine .full (a := { a with low := low }) hal hva (.inl ?_) himg hroom
            show (a.p.swappedIdx va).isSome = true
            rw [hidx]
            rfl
      · cases hn

end

/-- The page at `va` was faulted in on the way. -/
def FaultedIn (st : St) (va : Nat) (w : List Event) (st' : St) : Prop :=
  ∃ a x w₁ w₂, w = w₁ ++ w₂ ∧ Space.Moves st.space w₁ a ∧ st'.space.img va = some x ∧
    (x.1 = Perm.ur ∨ a.load va = some x)

/-- The same, with the address space in which the handler looked for the
page. -/
def FaultedFrom (st : St) (va : Nat) (w : List Event) (st' : St) : Prop :=
  ∃ a x w₁, w = w₁ ++ [a.faultEvent va, a.insertEvent va (a.p.takeSwapped va).1.isSome] ∧
    Space.Moves st.space w₁ a ∧ st'.space.img va = some x ∧ a.Brings va x

theorem FaultedFrom.faultedIn {st' : St} {va : Nat} {w : List Event}
    (h : FaultedFrom st va w st') : FaultedIn st va w st' := by
  obtain ⟨a, x, w₁, hw, hm, hx, hsrc⟩ := h
  refine ⟨a, x, w₁, _, hw, hm, hx, ?_⟩
  rcases hsrc with ⟨-, hload⟩ | ⟨-, hperm⟩
  · exact .inr hload
  · exact .inl hperm

/-- **`handle_pgfault`** makes moves; when it returns 0, the page is
mapped. -/
theorem runs_handlePgfault_from (h : Own root role st) (va : Nat) :
    Runs root role st (handlePgfault root va) fun r st' w => Paged root role st w st' ∧
      (r = 0 ∨ r = -1) ∧ (r = 0 → FaultedFrom st (pgrounddown va) w st') := by
  unfold Runs handlePgfault
  by_cases hmax : maxva ≤ va
  · rw [if_pos hmax]
    exact ends_pure.mpr fun _ => ⟨⟨role, h, .refl _ _ _, .refl _⟩, .inr rfl, fun hr => by cases hr⟩
  rw [if_neg hmax]
  have hal := pgrounddown_aligned va
  have hva : pgrounddown va < maxva := (pgrounddown_le va).trans_lt (not_le.mp hmax)
  generalize pgrounddown va = va0 at hal hva
  rw [ends_bind]
  refine ends.mono (runs_allocOrEvict h) (fun r st₁ w hr => ?_) (fun _ _ hx => hx) fun _ _ hx => hx
  by_cases hw : ∀ e ∈ w, e.Nonempty
  swap
  · exact ends_vacuous hw
  obtain ⟨role₁, hown₁, hk₁, hm₁, hf⟩ := hr hw
  cases r with
  | none =>
      refine ends_pure.mpr fun _ => ⟨⟨role₁, hown₁, hk₁, ?_⟩, .inr rfl, fun hr => by cases hr⟩
      rwa [List.append_nil]
  | some f =>
      obtain ⟨hlost, hfor⟩ := hf f rfl
      obtain ⟨role₂, hh, hsp, hkeep⟩ := hown₁.hold hlost va0 (Cell.fill 0)
      have hk₂ := hkeep _ _ hfor hk₁
      obtain ⟨sp, n, sl, hp⟩ := takeSwapped_frame st₁.p va0
      have hroot : (st₁.p.takeSwapped va0).2.pagetable = st₁.p.pagetable := by rw [hp]
      have htake : Holds root role₂
          ⟨st₁.sys.setCell f (Cell.fill 0), (st₁.p.takeSwapped va0).2⟩ f va0 :=
        ⟨hh.own.withProc hroot (hown₁.lists.takeSwapped va0), hh.page, hh.unmapped⟩
      have hspt : (⟨st₁.sys.setCell f (Cell.fill 0), (st₁.p.takeSwapped va0).2⟩ : St).space
          = st₁.space.withProc (st₁.p.takeSwapped va0).2 := by
        rw [← hsp]
        exact St.space_withProc ⟨_, st₁.p⟩ hroot
      have hzero : ((st₁.sys.setCell f (Cell.fill 0)).mem f).page = fun _ => 0 := by
        rw [show (st₁.sys.setCell f (Cell.fill 0)).mem f = Cell.fill 0 from Function.update_self ..]
        rfl
      have hlt : ∀ i, st₁.space.p.swappedIdx va0 = some i → va0 < trapframeVa := by
        intro i hi
        obtain ⟨hmem, hva0⟩ := swappedIdx_some hi
        rw [← hva0]
        exact (hown₁.lists.swapped _ hmem).2
      unfold zeroFrame takeSwapped
      simp only [ends_bind, ends_onSys_modify, ends_get, ends_tell, ends_modifyProc, ends_pure,
        List.nil_append, List.append_nil]
      refine (htake.ends_fetchPage hal hva hzero _).mono ?_ (fun _ _ hx => hx) ?_
      · rintro r st₄ w₄ ⟨rfl, role₄, hown₄, hk₄, hfet⟩
        rw [hspt] at hfet
        have hk := hk₂.trans hk₄
        have hp₄ : st₄.p = (st₁.p.takeSwapped va0).2 := hfet.p_eq
        have hnum : st₄.p.numResident = st₁.p.numResident := by rw [hp₄, hp]
        cases r with
        | false =>
            rw [if_neg (by decide)]
            refine ends_pure.mpr fun _ => ⟨⟨role₄, hown₄, hk, ?_⟩, .inr rfl, fun hr => by cases hr⟩
            exact hm₁.trans (hfet.reject hlt)
        | true =>
            rw [if_pos rfl, ends_bind]
            refine ends_addToResidentSet hown₄.lists.nonneg (fun hfull => ⟨fun _ => ?_, fun _ => ?_⟩)
              fun hroom => ends_pure.mpr fun _ => ?_
            · -- the process dies with the page mapped
              rw [hnum] at hfull
              obtain ⟨a₁, hm₂, hlast⟩ := hfet.full hal hfull
              have hm₃ := hm₁.trans hm₂
              rw [List.append_nil] at hm₃
              refine ⟨role₄, a₁, _, w, _, -1, rfl, hown₄.exited _, ?_, .moves hm₃, hlast,
                St.space_exited _ _⟩
              rw [St.exited_mem]
              exact hk
            · exact ⟨_, w, [st₁.space.faultEvent va0], rfl, .moves hm₁,
                by simp [Event.Pending, Space.faultEvent], fun hm => absurd hm (by decide)⟩
            · rw [hnum] at hroom
              obtain ⟨hm₂, x, hx, hsrc⟩ := hfet.insert hal hroom
              have hval : UserVa va0 := (imgOf_eq_some.mp hx).1
              have hins : Own root role₄ (st₄.withProc (st₄.p.insertResident va0
                  (st₁.p.takeSwapped va0).1.isSome)) :=
                hown₄.withProc rfl (hown₄.lists.insertResident hval _)
              have hev : Event.inserted va0 (wrap32 (st₄.p.nextFifoSeq + 1))
                  (st₁.p.takeSwapped va0).1.isSome
                  = st₁.space.insertEvent va0 (st₁.p.takeSwapped va0).1.isSome := by
                rw [hp₄, hp]
                rfl
              rw [hev]
              refine ⟨⟨role₄, hins, hk, ?_⟩, .inl rfl, fun _ => ?_⟩
              · exact hm₁.trans hm₂
              · exact ⟨st₁.space, x, w, rfl, hm₁, hx, hsrc⟩
      · rintro m w₄ ⟨rfl, hm⟩ _
        exact ⟨_, w, [st₁.space.faultEvent va0], rfl, .moves hm₁,
          by simp [Event.Pending, Space.faultEvent], fun hm' => absurd hm' hm⟩

theorem runs_handlePgfault (h : Own root role st) (va : Nat) :
    Runs root role st (handlePgfault root va) fun r st' w => Paged root role st w st' ∧
      (r = 0 ∨ r = -1) ∧ (r = 0 → FaultedIn st (pgrounddown va) w st') :=
  (runs_handlePgfault_from h va).mono fun _ _ _ hq =>
    ⟨hq.1, hq.2.1, fun hr => (hq.2.2 hr).faultedIn⟩

end

end OsSuite.Xv6
