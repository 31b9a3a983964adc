import OsSuite.Xv6.PageMap
import OsSuite.Xv6.Run

/-!
# FailedFault — what a page fault that fails leaves behind

`handle_pgfault` takes a frame and consumes the swap entry of the page
before it knows whether the address is one of the process or whether the
page can be mapped. `Unchanged root st st'` is what a caller that is told
-1 would like to find. `Holding root f s s'` follows the frame through
the error exits: it has left the pool and hangs nowhere. Every exit but
one gives it back (`Holding.give`); the one that does not has LOST it
(`Holding.lost`).

Evictions are not followed: they change the process on purpose.
-/

namespace OsSuite.Xv6

/-- `evict_page` was not called. -/
def Event.NoEvict : Event → Prop
  | .evict _ => False
  | _ => True

/-- **Nothing has changed**: the paging tables of the process and their
counters, the pages the table maps, and the frames, up to new table
pages. -/
structure Unchanged (root : Frame) (st st' : St) : Prop where
  residentPages : st'.p.residentPages = st.p.residentPages
  swappedPages : st'.p.swappedPages = st.p.swappedPages
  swapSlots : st'.p.swapSlots = st.p.swapSlots
  numResident : st'.p.numResident = st.p.numResident
  nextFifoSeq : st'.p.nextFifoSeq = st.p.nextFifoSeq
  numSwapped : st'.p.numSwapped = st.p.numSwapped
  lookup : ∀ a, lookup st'.sys.mem root a = lookup st.sys.mem root a
  frames : FramesKept root st.sys st'.sys

/-! ## The frame in hand -/

/-- Since `s`, the frame `f` has left the pool and was put to no use; no
entry has changed and no other frame is lost. -/
structure Holding (root f : Frame) (s s' : Sys) : Prop extends Extends root s s' where
  kept : ∀ p t, tableAt s.mem root p = some t → tableAt s'.mem root p = some t
  taken : ∃ l, s.pool.Perm (f :: (l ++ s'.pool)) ∧
    ∀ g ∈ l, ∃ p, tableAt s.mem root p = none ∧ tableAt s'.mem root p = some g
  unlinked : Unlinked s'.mem root f
  out : f ∉ s'.pool

section
variable {A : Event → Prop} {root f : Frame} {s s' s'' : Sys} {va : Nat}

/-- A frame that `kalloc` has handed out. -/
theorem TableOk.holding (h : TableOk root s) (hs : Shuffled s s') (hpool : s'.pool = f :: s''.pool)
    {c : Cell} (hmem : s''.mem = Function.update s'.mem f c) : Holding root f s s'' := by
  obtain ⟨h₂, hperm, hun, hf⟩ := h.handed hs hpool hmem
  refine ⟨h₂.extends, fun p t hp => ?_, ⟨[], hperm, fun g hg => absurd hg List.not_mem_nil⟩, hun, hf⟩
  rw [h₂.tableAt p]
  exact hp

/-- What is written to the frame does not matter. -/
theorem Holding.setCell (h : Holding root f s s') (c : Cell) :
    Holding root f s (s'.setCell f c) := by
  have hmem : ∀ p t, tableAt s'.mem root p = some t → (s'.setCell f c).mem t = s'.mem t := by
    intro p t hp
    refine Function.update_of_ne ?_ _ _
    rintro rfl
    exact h.unlinked p hp
  have hun : Untouched root s' (s'.setCell f c) := h.ok.untouched hmem h.ok.busy h.ok.pool
  obtain ⟨l, hl, hat⟩ := h.taken
  refine ⟨h.toExtends.trans hun.extends, fun p t hp => ?_, ⟨l, hl, fun g hg => ?_⟩,
    fun p hp => ?_, h.out⟩
  · rw [hun.tableAt p]
    exact h.kept p t hp
  · obtain ⟨p, hnone, hsome⟩ := hat g hg
    exact ⟨p, hnone, by rw [hun.tableAt p]; exact hsome⟩
  · rw [hun.tableAt p] at hp
    exact h.unlinked p hp

/-- New table pages are other frames. -/
theorem Holding.grow (h : Holding root f s s') (hg : Grows root s' s'') : Holding root f s s'' := by
  obtain ⟨hun, hout⟩ := hg.unlinked h.unlinked h.out
  refine ⟨h.toExtends.trans hg.toExtends, fun p t hp => hg.kept p t (h.kept p t hp), ?_, hun, hout⟩
  obtain ⟨l, hl, hat⟩ := h.taken
  obtain ⟨l', hl', hat'⟩ := hg.taken
  refine ⟨l ++ l', ?_, fun g hmem => ?_⟩
  · rw [List.append_assoc]
    exact hl.trans ((hl'.append_left l).cons f)
  · rcases List.mem_append.mp hmem with hmem | hmem
    · obtain ⟨p, hnone, hsome⟩ := hat g hmem
      exact ⟨p, hnone, hg.kept p g hsome⟩
    · obtain ⟨p, hnone, hsome⟩ := hat' g hmem
      refine ⟨p, Option.eq_none_iff_forall_ne_some.mpr fun t ht => ?_, hsome⟩
      rw [h.kept p t ht] at hnone
      cases hnone

/-- **The frame is given back.** -/
theorem Holding.give (h : Holding root f s s') (hpool : s''.pool = f :: s'.pool) {c : Cell}
    (hmem : s''.mem = Function.update s'.mem f c) :
    (∀ a, leaf s''.mem root a = leaf s.mem root a) ∧ FramesKept root s s'' := by
  have hun := h.ok.give h.out h.unlinked hpool hmem
  obtain ⟨l, hl, hat⟩ := h.taken
  refine ⟨(h.toExtends.trans hun.extends).leaf, l, ?_, fun g hg => ?_⟩
  · rw [hpool]
    exact hl.trans List.perm_middle.symm
  · obtain ⟨p, hnone, hsome⟩ := hat g hg
    exact ⟨p, hnone, by rw [hun.tableAt p]; exact hsome⟩

/-- **The frame is lost**: it is not in the pool and hangs nowhere. -/
theorem Holding.lost (h : Holding root f s s') : ¬ FramesKept root s s' := by
  rintro ⟨l', hl', hat'⟩
  obtain ⟨l, hl, -⟩ := h.taken
  have hf : f ∈ l' ++ s'.pool := hl'.mem_iff.mp (hl.mem_iff.mpr List.mem_cons_self)
  rcases List.mem_append.mp hf with hf | hf
  · obtain ⟨p, -, hsome⟩ := hat' f hf
    exact h.unlinked p hsome
  · exact h.out hf

/-! ## The error exits -/

/-- No entry has changed and no frame is lost. -/
def Released (root : Frame) (s s' : Sys) : Prop :=
  (∀ a, leaf s'.mem root a = leaf s.mem root a) ∧ FramesKept root s s'

theorem kfree_releases (h : Holding root f s s') :
    wp A (kfree f) ⟨fun _ s'' => Released root s s'', fun _ => True, fun _ => True⟩ s' := by
  unfold wp kfree
  split
  · exact fun _ => trivial
  · exact fun _ => h.give rfl rfl

/-- **`mapOrFree`** gives the frame back when it fails. -/
theorem mapOrFree_releases {perm : Perm} (h : Holding root f s s') (hal : va % 4096 = 0)
    (hva : va < maxva) :
    wp A (mapOrFree root va f perm) ⟨fun r s'' => r = false → Released root s s'',
      fun _ => True, fun _ => True⟩ s' := by
  unfold mapOrFree
  rw [wp_bind]
  refine (mappages_writes h.ok hal hva).mono ?_ (fun _ _ => trivial) (fun _ _ => trivial)
  rintro r s₁ (⟨rfl, -⟩ | ⟨rfl, hgrow⟩)
  · exact wp_pure.mpr nofun
  · show wp A (do kfree f; pure false) _ s₁
    rw [wp_bind]
    refine (kfree_releases (h.grow hgrow)).weaken fun _ s₂ hrel => ?_
    exact wp_pure.mpr fun _ => hrel

end

section
variable {α : Type} {root f : Frame} {va : Nat} {st : St} {s : Sys}

/-- Page-table and allocator code does not touch the process. -/
theorem onSys_proc {A : Event → Prop} {x : Prog Sys Event α} {Q : α → Sys → Prop}
    (h : wp A x ⟨Q, fun _ => True, fun _ => True⟩ st.sys) :
    wp A (onSys x) ⟨fun r st' => st'.p = st.p ∧ Q r st'.sys, fun _ => True, fun _ => True⟩ st := by
  rw [onSys, wp_zoom]
  exact h.weaken fun _ _ hq => ⟨rfl, hq⟩

/-- The allocation, when nothing is evicted. -/
theorem allocOrEvict_holding (h : TableOk root st.sys) :
    wp Event.NoEvict allocOrEvict ⟨fun r st' => st'.p = st.p ∧
        ∃ f, r = some f ∧ Holding root f st.sys st'.sys,
      fun _ => True, fun _ => True⟩ st := by
  simp only [allocOrEvict, wp_bind, onSys, wp_zoom]
  refine wp_kalloc (fun s₁ _ => ?_) fun f s₁ s₂ hs hpool hmem _ => ?_
  · simp only [evictPage, wp_bind, wp_get, wp_tell]
    exact fun hA => False.elim hA
  · exact wp_pure.mpr ⟨rfl, f, rfl, h.holding hs hpool hmem⟩

theorem fillAndMap_releases {A : Event → Prop} {b : Page} {perm : Perm}
    (h : Holding root f s st.sys) (hal : va % 4096 = 0) (hva : va < maxva) :
    wp A (do onSys (fillFrame f b); onSys (mapOrFree root va f perm))
      ⟨fun r st' => st'.p = st.p ∧ (r = false → Released root s st'.sys),
        fun _ => True, fun _ => True⟩ st := by
  have hfill : Holding root f s (St.sys ⟨st.sys.setCell f (.bytes b), st.p⟩) := h.setCell _
  rw [wp_bind, onSys, wp_zoom, fillFrame, wp_modify]
  exact onSys_proc (mapOrFree_releases hfill hal hva)

/-- **Case 1**, the swap file: the frame is given back. -/
theorem swapIn_releases {slot : Nat} (h : Holding root f s st.sys) (hal : va % 4096 = 0)
    (hva : va < maxva) :
    wp Event.NoEvict (swapIn root va slot f)
      ⟨fun r st' => st'.p = st.p ∧ (r = false → Released root s st'.sys),
        fun _ => True, fun _ => True⟩ st := by
  unfold swapIn
  rw [wp_get_bind]
  split
  · exact wp_panic.mpr trivial
  · rw [wp_ite]
    exact ⟨fun _ => wp_panic.mpr trivial, fun _ => fillAndMap_releases h hal hva⟩

/-- **Case 2**: an address that is rejected leaves the frame in hand;
after every other failure it is given back. -/
theorem loadPage_releases (h : Holding root f s st.sys) (hal : va % 4096 = 0) (hva : va < maxva) :
    wp Event.NoEvict (loadPage root va f) ⟨fun r st' => st'.p = st.p ∧ (r = false →
        if va < st.p.heapStart ∨ va < st.p.sz then Released root s st'.sys
        else Holding root f s st'.sys),
      fun _ => True, fun _ => True⟩ st := by
  unfold loadPage
  rw [wp_get_bind]
  by_cases hin : va < st.p.heapStart ∨ va < st.p.sz
  · rw [if_neg (by omega)]
    simp only [if_pos hin]
    have hmap : ∀ perm, wp Event.NoEvict (onSys (mapOrFree root va f perm))
        ⟨fun r st' => st'.p = st.p ∧ (r = false → Released root s st'.sys),
          fun _ => True, fun _ => True⟩ st :=
      fun perm => onSys_proc (mapOrFree_releases h hal hva)
    have hfree : wp Event.NoEvict (do onSys (kfree f); pure false)
        ⟨fun r st' => st'.p = st.p ∧ (r = false → Released root s st'.sys),
          fun _ => True, fun _ => True⟩ st := by
      rw [wp_bind]
      refine (onSys_proc (kfree_releases h)).weaken fun _ st₁ hrel => ?_
      exact wp_pure.mpr ⟨hrel.1, fun _ => hrel.2⟩
    split
    · exact wp_panic.mpr trivial
    · split
      · rw [wp_ite]
        exact ⟨fun _ => hfree, fun _ => fillAndMap_releases h hal hva⟩
      · simp only [wp_ite]
        exact ⟨fun _ => hmap _, fun _ => ⟨fun _ => hmap _, fun _ => hfree⟩⟩
  · rw [if_pos (by omega)]
    exact wp_pure.mpr ⟨rfl, fun _ => by rw [if_neg hin]; exact h⟩

/-! ## The handler -/

/-- A page that is not recorded as swapped out and lies in the image of
the process. -/
def Proc.Fetches (p : Proc) (va : Nat) : Prop :=
  (∀ e ∈ p.swapped, e.va ≠ va) ∧ (va < p.heapStart ∨ va < p.sz)

theorem swappedIdx_eq_none {p : Proc} :
    p.swappedIdx va = none ↔ ∀ e ∈ p.swapped, e.va ≠ va := by
  rw [Proc.swappedIdx, Table.firstIdx_none]
  simp only [beq_eq_false_iff_ne]
  rfl

theorem Released.unchanged {st' : St} (h : Released root st.sys st'.sys) (hp : st'.p = st.p) :
    Unchanged root st st' where
  residentPages := by rw [hp]
  swappedPages := by rw [hp]
  swapSlots := by rw [hp]
  numResident := by rw [hp]
  nextFifoSeq := by rw [hp]
  numSwapped := by rw [hp]
  lookup a := lookup_of_leaf (h.1 a)
  frames := h.2

/-- The entry of a page that is swapped in is gone. -/
theorem numSwapped_takeSwapped {p : Proc} {i : Nat} (h : p.swappedIdx va = some i) :
    (p.takeSwapped va).2.numSwapped ≠ p.numSwapped := by
  have hi := (Table.firstIdx_some h).1
  simp only [Proc.takeSwapped, h]
  omega

/-- **A page that is fetched in vain.** -/
theorem fetchPage_failed {st₀ : St} (h : Holding root f st₀.sys st.sys)
    (hp : st.p = (st₀.p.takeSwapped va).2) (hal : va % 4096 = 0) (hva : va < maxva) :
    wp Event.NoEvict (fetchPage root va (st₀.p.takeSwapped va).1 f)
      ⟨fun r st' => r = false → (Unchanged root st₀ st' ↔ st₀.p.Fetches va),
        fun _ => True, fun _ => True⟩ st := by
  unfold Proc.Fetches
  rw [← swappedIdx_eq_none]
  cases hi : st₀.p.swappedIdx va with
  | some i =>
      have hne := numSwapped_takeSwapped hi
      rw [show (st₀.p.takeSwapped va).1 = some (st₀.p.swappedPages i).slot by
        simp only [Proc.takeSwapped, hi]]
      refine (swapIn_releases h hal hva).weaken fun r st' hst' _ => ?_
      refine ⟨fun hun => ?_, nofun⟩
      rw [← hp, ← hst'.1] at hne
      exact absurd hun.numSwapped hne
  | none =>
      have htake : st₀.p.takeSwapped va = (none, st₀.p) := by simp only [Proc.takeSwapped, hi]
      rw [htake] at hp ⊢
      refine (loadPage_releases h hal hva).weaken fun r st' hst' hr => ?_
      obtain ⟨hp', hcase⟩ := hst'
      have hend := hcase hr
      rw [hp] at hp' hend
      by_cases hin : va < st₀.p.heapStart ∨ va < st₀.p.sz
      · rw [if_pos hin] at hend
        exact ⟨fun _ => ⟨rfl, hin⟩, fun _ => hend.unchanged hp'⟩
      · rw [if_neg hin] at hend
        exact ⟨fun hun => absurd hun.frames hend.lost, fun hc => absurd hc.2 hin⟩

/-- **The handler**, when it fails without evicting a page. -/
theorem handlePgfault_failed (h : TableOk root st.sys) :
    wp Event.NoEvict (handlePgfault root va) ⟨fun r st' => r = -1 →
        (Unchanged root st st' ↔ maxva ≤ va ∨ st.p.Fetches (pgrounddown va)),
      fun _ => True, fun _ => True⟩ st := by
  unfold handlePgfault
  split
  · rename_i hva
    refine wp_pure.mpr fun _ => ⟨fun _ => .inl hva, fun _ => ?_⟩
    exact Released.unchanged ⟨fun _ => rfl, (Grows.refl h).taken⟩ rfl
  · rename_i hva
    have hpage : pgrounddown va < maxva := by
      unfold pgrounddown
      omega
    refine (allocOrEvict_holding h).bind fun r st₁ hst₁ => ?_
    obtain ⟨hp, f, rfl, hold⟩ := hst₁
    simp only [wp_bind, wp_get, wp_tell, onSys, wp_zoom, wp_zeroFrame, takeSwapped, modifyProc,
      wp_modify, wp_pure, hp]
    intro _
    refine (fetchPage_failed (hold.setCell _) rfl (pgrounddown_aligned va) hpage).weaken ?_
    intro r st₂ hst₂
    cases r with
    | true =>
        rw [if_pos rfl, wp_bind]
        exact .of_forall (fun _ _ => wp_pure.mpr fun h => absurd h (by decide)) (fun _ => trivial) fun _ => trivial
    | false =>
        refine wp_pure.mpr fun _ => ?_
        rw [hst₂ rfl]
        exact ⟨.inr, fun h => h.resolve_left hva⟩

/-- **A failing page fault changes nothing exactly when** the address is
beyond `MAXVA`, or its page is not recorded as swapped out and lies in
the image of the process. A fault at any other address loses the frame;
a fault on a page that is swapped out loses the record of it, and with
it the contents. -/
theorem failed_fault_unchanged_iff {st' : St} {w : List Event} (h : TableOk root st.sys)
    (hrun : handlePgfault root va st = .ret (-1) st' w) (hno : ∀ e ∈ w, e.NoEvict) :
    Unchanged root st st' ↔ maxva ≤ va ∨ st.p.Fetches (pgrounddown va) :=
  (handlePgfault_failed h).of_ret hrun hno rfl

end

/-- A process on a kernel with two free frames: three pages of heap, of
which the last is swapped out. -/
def bareSt : St where
  sys := { bareSys with
    fs := ⟨fun _ => { Inode.empty with size := 4096 }, 0, fun _ => none, []⟩ }
  p := { Proc.zero with
    pagetable := 524301, sz := 12288, execIp := some 2, swapFile := some 3,
    swapSlots := Function.update Proc.zero.swapSlots 0 1,
    swappedPages := fun _ => ⟨8192, 0⟩, numSwapped := 1 }

theorem tableOk_bareSt : TableOk 524301 bareSt.sys := .empty rfl (by decide) (by decide)

/-- There is no frame for the second table page of the first heap page. -/
theorem failed_fault_unchanged_heap :
    ∃ st', handlePgfault 524301 4096 bareSt = .ret (-1) st' [.fault 4096 12288 0 false] ∧
      Unchanged 524301 bareSt st' := by
  obtain ⟨st', hrun⟩ : ∃ st', handlePgfault 524301 4096 bareSt =
      .ret (-1) st' [.fault 4096 12288 0 false] := ⟨_, rfl⟩
  refine ⟨st', hrun, (failed_fault_unchanged_iff tableOk_bareSt hrun ?_).mpr (.inr ⟨?_, .inr ?_⟩)⟩
  · exact List.forall_mem_singleton.mpr trivial
  · decide
  · decide

/-- **What a failing fault costs.** An address far outside the image takes
a frame with it, and a page that is swapped out is forgotten when there
is no frame for its table. -/
theorem failed_fault_costs :
    TableOk 524301 bareSt.sys ∧
    (∃ st', handlePgfault 524301 2147483648 bareSt =
        .ret (-1) st' [.fault 2147483648 12288 0 false] ∧
      ¬ FramesKept 524301 bareSt.sys st'.sys ∧ ¬ Unchanged 524301 bareSt st') ∧
    ∃ st', handlePgfault 524301 8192 bareSt = .ret (-1) st' [.fault 8192 12288 0 true] ∧
      bareSt.p.slots = [0] ∧ st'.p.slots = [] ∧ ¬ Unchanged 524301 bareSt st' := by
  -- the frame has been handed out and zeroed, and that is all
  have hold : Holding 524301 524302 bareSt.sys
      (({ bareSt.sys with freelist := [524303] }.setCell 524302 (Cell.fill 5)).setCell 524302
        (Cell.fill 0)) :=
    (tableOk_bareSt.holding (.refl _) rfl rfl).setCell _
  refine ⟨tableOk_bareSt, ⟨_, rfl, hold.lost, fun hun => hold.lost hun.frames⟩, _, rfl, rfl, rfl, ?_⟩
  exact fun hun => absurd hun.numSwapped (by decide)

end OsSuite.Xv6
