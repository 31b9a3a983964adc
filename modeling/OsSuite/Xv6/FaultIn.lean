import OsSuite.Xv6.Grants
import OsSuite.Xv6.UserMem

/-!
# FaultIn — when a page fault maps the page

`Paging` says what `handle_pgfault` has done when it returns 0. Here the
frames are counted as well: on a machine that grants the page and the
table pages it lacks, the handler maps the page EXACTLY when there is
something to map (`Space.arrival`) and room in the resident list.
-/

namespace OsSuite.Xv6

/-! ## Frames in stock -/

/-- The table at `root` has table pages at `T`, and `n` more frames are
granted. -/
structure Stocked (root : Frame) (T : Finset Spot) (n : Nat) (s : Sys) : Prop where
  ok : TableOk root s
  built : Built root T s
  grants : s.grants n = true

section
variable {A : Event → Prop} {root f : Frame} {T : Finset Spot} {n va : Nat} {s s' : Sys} {st : St}

theorem Stocked.of_le {m : Nat} (h : Stocked root T n s) (hle : m ≤ n) : Stocked root T m s :=
  ⟨h.ok, h.built, grants_of_le hle h.grants⟩

/-- A frame that is no table page may hold anything. -/
theorem TableOk.setUnlinked (h : TableOk root s) (hf : Unlinked s.mem root f) (c : Cell) :
    Untouched root s (s.setCell f c) := by
  refine h.untouched (fun p t hp => Function.update_of_ne ?_ _ _) h.busy h.pool
  rintro rfl
  exact hf p hp

theorem Stocked.setCell (h : Stocked root T n s) (hf : Unlinked s.mem root f) (c : Cell) :
    Stocked root T n (s.setCell f c) := by
  have hun := h.ok.setUnlinked hf c
  have hsame : SameAlloc s (s.setCell f c) := ⟨rfl, rfl, rfl⟩
  refine ⟨hun.ok, h.built.congr hun.tableAt, ?_⟩
  rw [hsame.grants]
  exact h.grants

/-- **`kalloc`** takes one frame of the stock. -/
theorem kalloc_stocked (h : Stocked root T (1 + n) s) :
    wp A kalloc ⟨fun r s' => ∃ f, r = some f ∧ Stocked root T n s' ∧ Unlinked s'.mem root f ∧
        ∀ a, leaf s'.mem root a = leaf s.mem root a,
      fun _ => False, fun _ => False⟩ s := by
  refine (kalloc_pool.and kalloc_grants).mono ?_ (fun _ h => h.1) (fun _ h => h.1)
  rintro r s' ⟨hr, hsome, hnone⟩
  cases r with
  | none =>
      have := grants_of_le (Nat.le_add_right 1 n) h.grants
      rw [hnone rfl] at this
      cases this
  | some f =>
      obtain ⟨s₁, hs, hpool, hmem⟩ := hr
      obtain ⟨hun, -, hunlinked, -⟩ := h.ok.handed hs hpool hmem
      refine ⟨f, rfl, ⟨hun.ok, h.built.congr hun.tableAt, ?_⟩, hunlinked, hun.extends.leaf⟩
      rw [← hsome f rfl n]
      exact h.grants

/-- **`mapOrFree`** takes the table pages that the page lacks. -/
theorem mapOrFree_stocked {perm : Perm} (h : Stocked root T ((tablesFor va \ T).card + n) s)
    (hal : va % 4096 = 0) (hva : va < maxva) (hv : (leaf s.mem root va).v = false) :
    wp A (mapOrFree root va f perm) ⟨fun r s' => r = true ∧ Stocked root (T ∪ tablesFor va) n s',
      fun _ => False, fun _ => False⟩ s := by
  unfold mapOrFree
  rw [wp_bind]
  refine (mappages_counts h.ok h.built hal hva hv).weaken ?_
  rintro r s' (⟨rfl, hw, hbuilt, hafter⟩ | ⟨rfl, hno⟩)
  · rw [if_neg (by decide)]
    refine wp_pure.mpr ⟨rfl, hw.ok, hbuilt, ?_⟩
    rw [← hafter n]
    exact h.grants
  · have := grants_of_le (Nat.le_add_right _ n) h.grants
    rw [hno] at this
    cases this

/-! ## Fetching -/

/-- A page from its source, with enough frames for its table. -/
theorem fetchPage_stocked {slot : Option Nat}
    (h : Stocked root T ((tablesFor va \ T).card + n) st.sys) (hf : Unlinked st.sys.mem root f)
    (hal : va % 4096 = 0) (hva : va < maxva) (hv : (leaf st.sys.mem root va).v = false) :
    wp A (fetchPage root va slot f) ⟨fun r st' =>
        (r = true ∧ (∃ x, st.space.Source va slot x) ∧ Stocked root (T ∪ tablesFor va) n st'.sys) ∨
        (r = false ∧ ¬ ∃ x, st.space.Source va slot x),
      fun _ => False, fun _ => ¬ ∃ x, st.space.Source va slot x⟩ st := by
  have hmap : ∀ (s : Sys) (perm : Perm), Stocked root T ((tablesFor va \ T).card + n) s →
      (leaf s.mem root va).v = false → (∃ x, st.space.Source va slot x) →
      wp A (onSys (mapOrFree root va f perm)) ⟨fun r st' =>
        (r = true ∧ (∃ x, st.space.Source va slot x) ∧ Stocked root (T ∪ tablesFor va) n st'.sys) ∨
        (r = false ∧ ¬ ∃ x, st.space.Source va slot x),
        fun _ => False, fun _ => ¬ ∃ x, st.space.Source va slot x⟩ ⟨s, st.p⟩ := by
    intro s perm hs hv hx
    rw [onSys, wp_zoom]
    refine (mapOrFree_stocked hs hal hva hv).mono ?_ (fun _ h => h) fun _ h => h.elim
    exact fun r s' hr => .inl ⟨hr.1, hx, hr.2⟩
  have hfill : ∀ (b : Page) (perm : Perm), (∃ x, st.space.Source va slot x) →
      wp A (do onSys (fillFrame f b); onSys (mapOrFree root va f perm)) ⟨fun r st' =>
        (r = true ∧ (∃ x, st.space.Source va slot x) ∧ Stocked root (T ∪ tablesFor va) n st'.sys) ∨
        (r = false ∧ ¬ ∃ x, st.space.Source va slot x),
        fun _ => False, fun _ => ¬ ∃ x, st.space.Source va slot x⟩ st := by
    intro b perm hx
    rw [wp_bind, onSys, wp_zoom, fillFrame, wp_modify]
    refine hmap _ perm (h.setCell hf _) ?_ hx
    rw [(h.ok.setUnlinked hf _).extends.leaf va]
    exact hv
  have hfree : (¬ ∃ x, st.space.Source va slot x) →
      wp A (do onSys (kfree f); pure false) ⟨fun r st' =>
        (r = true ∧ (∃ x, st.space.Source va slot x) ∧ Stocked root (T ∪ tablesFor va) n st'.sys) ∨
        (r = false ∧ ¬ ∃ x, st.space.Source va slot x),
        fun _ => False, fun _ => ¬ ∃ x, st.space.Source va slot x⟩ st := by
    intro hx
    rw [wp_bind, onSys, wp_zoom]
    exact kfree_any (fun _ => wp_pure.mpr (.inr ⟨rfl, hx⟩)) fun _ => hx
  cases slot with
  | some slot =>
      show wp A (swapIn root va slot f) _ st
      unfold swapIn
      rw [wp_get_bind]
      split
      · rename_i hfile
        refine wp_panic.mpr ?_
        rintro ⟨x, ino, hino, -⟩
        rw [show st.space.p.swapFile = st.p.swapFile from rfl, hfile] at hino
        cases hino
      · rename_i ino hfile
        dsimp only
        split
        · rename_i hread
          refine wp_panic.mpr ?_
          rintro ⟨x, ino', hino, hr, -⟩
          rw [show st.space.p.swapFile = st.p.swapFile from rfl, hfile] at hino
          cases hino
          exact hread hr
        · rename_i hread
          exact hfill _ _ ⟨_, ino, hfile, not_not.mp hread, rfl⟩
  | none =>
      have hno : st.space.load va = none → ¬ ∃ x, st.space.Source va none x := by
        rintro hn ⟨x, hx⟩
        rw [show st.space.load va = some x from hx] at hn
        cases hn
      show wp A (loadPage root va f) _ st
      unfold loadPage
      rw [wp_get_bind]
      split
      · rename_i hout
        exact wp_pure.mpr (.inr ⟨rfl, hno (if_pos hout)⟩)
      · rename_i hin
        have hload : st.space.load va = _ := if_neg hin
        have hrange : va < st.space.p.heapStart ∨ va < st.space.p.sz := by
          show va < st.p.heapStart ∨ va < st.p.sz
          omega
        split
        · rename_i hip
          refine wp_panic.mpr (hno ?_)
          rw [hload, show st.space.p.execIp = none from hip]
        · rename_i ino hip
          dsimp only
          split
          · rename_i ph hseg
            split
            · rename_i hread
              refine hfree (hno ?_)
              rw [hload, show st.space.p.execIp = some ino from hip]
              dsimp only
              rw [show segFor (st.space.fs.inode ino) st.space.stack va = some ph from hseg]
              exact if_pos hread
            · rename_i hread
              exact hfill _ _ ⟨_, Space.load_seg hrange hip hseg (not_not.mp hread)⟩
          · rename_i hseg
            split
            · rename_i hsz
              exact hmap st.sys _ h hv ⟨_, Space.load_zero hrange hip hseg (.inl hsz)⟩
            · rename_i hsz
              split
              · rename_i hsp
                exact hmap st.sys _ h hv ⟨_, Space.load_zero hrange hip hseg (.inr hsp)⟩
              · rename_i hsp
                refine hfree (hno ?_)
                rw [hload, show st.space.p.execIp = some ino from hip]
                dsimp only
                rw [show segFor (st.space.fs.inode ino) st.space.stack va = none from hseg]
                exact (if_neg hsz).trans (if_neg hsp)

/-! ## The handler -/

/-- **What a fault on page `va` finds to map**: its slot of the swap file
if it is swapped out, and the page of Case 2 if it is not. -/
def Space.arrival (a : Space) (va : Nat) : Option (Perm × Page) :=
  match (a.p.takeSwapped va).1 with
  | none => a.load va
  | some slot => a.p.swapFile.bind fun ino =>
      if Fs.readi (a.fs.inode ino) (slot * 4096) 4096 = 4096
      then some (Perm.ur, swapPage (a.fs.inode ino) slot) else none

/-- The address space after the page `x` was faulted in at `va`. -/
def Space.bring (a : Space) (va : Nat) (x : Perm × Page) (low : Nat → Bool) : Space :=
  ({ a with low := low }.map va x).withProc
    ((a.p.takeSwapped va).2.insertResident va (a.p.takeSwapped va).1.isSome)

/-- The handler looks for the page after it took it off the swapped list;
that does not matter. -/
theorem source_iff_arrival {a : Space} {x : Perm × Page} :
    (a.withProc (a.p.takeSwapped va).2).Source va (a.p.takeSwapped va).1 x ↔
      a.arrival va = some x := by
  obtain ⟨sp, m, sl, hp⟩ := takeSwapped_frame a.p va
  unfold Space.arrival
  rw [hp]
  cases (a.p.takeSwapped va).1 with
  | none => exact Iff.rfl
  | some slot =>
      show (∃ ino, a.p.swapFile = some ino ∧ _ ∧ _) ↔ _
      rw [Option.bind_eq_some_iff]
      refine exists_congr fun ino => and_congr Iff.rfl ?_
      show Fs.readi (a.fs.inode ino) (slot * 4096) 4096 = 4096 ∧
        x = (Perm.ur, swapPage (a.fs.inode ino) slot) ↔ _
      split
      · rename_i hr
        exact ⟨fun h => by rw [h.2], fun h => ⟨hr, (Option.some.inj h).symm⟩⟩
      · rename_i hr
        exact ⟨fun h => absurd h.1 hr, nofun⟩

variable {role : Frame → Role}

/-- **The handler up to the page's source**: a frame is in stock, is
zeroed, and the page is off the swapped list. -/
theorem Own.ends_handle (h : Own root role st) (hs : Stocked root T (1 + n) st.sys)
    (hva : va < maxva) {Q : Int → St → Prop} {P : Prop}
    (hQ : ∀ f role₂ s₂,
      Holds root role₂ ⟨s₂, (st.p.takeSwapped (pgrounddown va)).2⟩ f (pgrounddown va) →
      (⟨s₂, (st.p.takeSwapped (pgrounddown va)).2⟩ : St).space
        = st.space.withProc (st.p.takeSwapped (pgrounddown va)).2 →
      (s₂.mem f).page = (fun _ => 0) → Stocked root T n s₂ → Unlinked s₂.mem root f →
      (∀ a, leaf s₂.mem root a = leaf st.sys.mem root a) →
      ends (do
          if ← fetchPage root (pgrounddown va) (st.p.takeSwapped (pgrounddown va)).1 f then
            addToResidentSet (pgrounddown va) (st.p.takeSwapped (pgrounddown va)).1.isSome
            pure (0 : Int)
          else pure (-1))
        (fun r st' _ => Q r st') (fun _ _ => P) (fun _ _ => P)
        ⟨s₂, (st.p.takeSwapped (pgrounddown va)).2⟩) :
    ends (handlePgfault root va) (fun r st' _ => Q r st') (fun _ _ => P) (fun _ _ => P) st := by
  unfold handlePgfault
  rw [if_neg (Nat.not_le.mpr hva)]
  generalize pgrounddown va = va0 at *
  unfold allocOrEvict
  simp only [ends_bind]
  refine ends_onSys_wp quiet_kalloc (h.kalloc.and (kalloc_stocked hs)) (fun r s₁ _ hr => ?_)
    fun _ hf => hf.1.elim
  obtain ⟨⟨role₁, hown₁, -, hsp₁, hr₁⟩, f, rfl, hs₁, hun, hleaf⟩ := hr
  obtain ⟨role₂, hh, hsp, -⟩ := hown₁.hold hr₁.1 va0 (Cell.fill 0)
  obtain ⟨sp, k, sl, hp⟩ := takeSwapped_frame st.p va0
  have hroot : (st.p.takeSwapped va0).2.pagetable = st.p.pagetable := by rw [hp]
  have htake : Holds root role₂ ⟨s₁.setCell f (Cell.fill 0), (st.p.takeSwapped va0).2⟩ f va0 :=
    ⟨hh.own.withProc hroot (hown₁.lists.takeSwapped va0), hh.page, hh.unmapped⟩
  have hspt : (⟨s₁.setCell f (Cell.fill 0), (st.p.takeSwapped va0).2⟩ : St).space
      = st.space.withProc (st.p.takeSwapped va0).2 := by
    rw [← hsp₁, ← hsp]
    exact St.space_withProc ⟨_, st.p⟩ hroot
  have hzero : ((s₁.setCell f (Cell.fill 0)).mem f).page = fun _ => 0 := by
    rw [show (s₁.setCell f (Cell.fill 0)).mem f = Cell.fill 0 from Function.update_self ..]
    rfl
  have hun₂ := hs₁.ok.setUnlinked hun (Cell.fill 0)
  have hlinked : Unlinked (s₁.setCell f (Cell.fill 0)).mem root f := fun p hp =>
    hun p ((hun₂.tableAt p).symm.trans hp)
  have hrest := hQ f role₂ _ htake hspt hzero (hs₁.setCell hun _) hlinked
    fun a => (hun₂.extends.leaf a).trans (hleaf a)
  unfold zeroFrame takeSwapped
  simp only [ends_bind, ends_onSys_modify, ends_get, ends_tell, ends_modifyProc,
    ends_pure] at hrest ⊢
  exact hrest

/-- **`handle_pgfault` on a page that is not mapped.** -/
theorem Own.fault (h : Own root role st)
    (hs : Stocked root T (1 + ((tablesFor (pgrounddown va) \ T).card + n)) st.sys)
    (hlt : pgrounddown va < trapframeVa) (habs : st.space.img (pgrounddown va) = none) :
    decides (handlePgfault root va) (· = 0)
      ((∃ x, st.space.arrival (pgrounddown va) = some x) ∧ st.p.numResident < maxResidentPages)
      (fun _ st' => ∃ role' x low, st.space.arrival (pgrounddown va) = some x ∧
        Own root role' st' ∧ Stocked root (T ∪ tablesFor (pgrounddown va)) n st'.sys ∧
        st'.space = st.space.bring (pgrounddown va) x low) st := by
  have hmax : va < maxva := by
    have h1 := pgrounddown_add_pgoff va
    have h2 := (pgoff va).isLt
    unfold trapframeVa at hlt
    unfold maxva
    omega
  have hal := pgrounddown_aligned va
  have hva : pgrounddown va < maxva := (pgrounddown_le va).trans_lt hmax
  refine h.ends_handle hs hmax fun f role₂ s₂ hh hspt hzero hs₂ hun hleaf => ?_
  generalize pgrounddown va = va0 at *
  obtain ⟨sp, k, sl, hp⟩ := takeSwapped_frame st.p va0
  have hv : (leaf s₂.mem root va0).v = false := by
    rw [space_img h.root_eq, imgOf_user ⟨hal, hlt⟩] at habs
    rw [hleaf]
    exact pageAt_eq_none.mp habs
  have hfetch := @fetchPage_stocked (fun _ => True) root f T n va0
    ⟨s₂, (st.p.takeSwapped va0).2⟩ (st.p.takeSwapped va0).1 hs₂ hun hal hva hv
  rw [hspt] at hfetch
  simp only [ends_bind]
  refine ((hh.ends_fetchPage hal hva hzero _ (E := fun _ _ => True)).and hfetch.ends).mono ?_
    (fun _ _ hx => (hx.2 fun _ _ => trivial).elim) ?_
  · rintro r st₄ w₄ ⟨⟨rfl, role₄, hown₄, -, hfet⟩, hcount⟩
    rw [hspt] at hfet
    have hp₄ : st₄.p = (st.p.takeSwapped va0).2 := hfet.p_eq
    have hnum : st₄.p.numResident = st.p.numResident := by rw [hp₄, hp]
    rcases hcount fun _ _ => trivial with ⟨rfl, ⟨x₀, hx₀⟩, hs₄⟩ | ⟨rfl, hno⟩
    · rw [if_pos rfl, ends_bind]
      have harr := source_iff_arrival.mp hx₀
      refine ends_addToResidentSet hown₄.lists.nonneg (fun hfull => ⟨?_, ?_⟩)
        fun hroom => ends_pure.mpr (.inl ⟨rfl, ⟨⟨x₀, harr⟩, by rw [← hnum]; exact hroom⟩, ?_⟩)
      · exact fun hc => absurd hc.2 (by rw [← hnum]; omega)
      · exact fun hc => absurd hc.2 (by rw [← hnum]; omega)
      · rcases hfet with ⟨x, hx, hm⟩ | ⟨-, hr, -⟩
        · have hxa := source_iff_arrival.mp hx
          generalize hsp₄ : st₄.space = a₄ at hm
          cases hm with
          | @done low hva' himg hmono hlow =>
              have hins : Own root role₄ (st₄.withProc (st₄.p.insertResident va0
                  (st.p.takeSwapped va0).1.isSome)) :=
                hown₄.withProc rfl (hown₄.lists.insertResident ⟨hal, hlt⟩ _)
              refine ⟨role₄, x, low, hxa, hins, hs₄, ?_⟩
              rw [@St.space_withProc st₄ (st₄.p.insertResident va0 _) rfl, hsp₄, hp₄]
              rfl
        · cases hr
    · rw [if_neg (by decide)]
      refine ends_pure.mpr (.inr ⟨by decide, ?_⟩)
      rintro ⟨⟨x, hx⟩, -⟩
      exact hno ⟨x, source_iff_arrival.mpr hx⟩
  · rintro m w₄ ⟨-, hno⟩ ⟨⟨x, hx⟩, -⟩
    exact hno (fun _ _ => trivial) ⟨x, source_iff_arrival.mpr hx⟩

/-- **`handle_pgfault` on a page that is mapped** fails. -/
theorem Own.fault_mapped (h : Own root role st) (hs : Stocked root T 1 st.sys) (hva : va < maxva)
    (hv : (leaf st.sys.mem root va).v = true) :
    ends (handlePgfault root va) (fun r _ _ => r < 0) (fun _ _ => True) (fun _ _ => True) st := by
  have hal := pgrounddown_aligned va
  have hva₀ : pgrounddown va < maxva := (pgrounddown_le va).trans_lt hva
  rw [← leaf_pgrounddown] at hv
  refine h.ends_handle (n := 0) hs hva fun f role₂ s₂ hh hspt hzero _ _ _ => ?_
  generalize pgrounddown va = va0 at *
  simp only [ends_bind]
  refine (hh.ends_fetchPage hal hva₀ hzero _ (E := fun _ _ => True)).mono ?_
    (fun _ _ _ => trivial) fun _ _ _ => trivial
  rintro r st₄ w₄ ⟨-, role₄, hown₄, -, hfet⟩
  rw [hspt] at hfet
  cases r with
  | false =>
      rw [if_neg (by decide)]
      exact ends_pure.mpr (by decide)
  | true =>
      rcases hfet with ⟨x, -, hm⟩ | ⟨-, hr, -⟩
      · generalize st₄.space = a₄ at hm
        cases hm with
        | done hlt himg _ _ =>
            -- the page would have been free
            have hnone : st.space.img va0 = none := himg
            rw [space_img h.root_eq, imgOf_user ⟨hal, hlt⟩, pageAt_eq_none, hv] at hnone
            cases hnone
      · cases hr

/-- The handler returns 0 or -1. -/
theorem handlePgfault_ret (root : Frame) (va : Nat) (st : St) :
    ends (handlePgfault root va) (fun r _ _ => r ≠ 0 → r < 0) (fun _ _ => True) (fun _ _ => True)
      st := by
  unfold handlePgfault
  split
  · exact ends_pure.mpr fun _ => by decide
  rw [ends_bind]
  refine ends_of_forall (fun r st₁ w => ?_) (fun _ _ => trivial) fun _ _ => trivial
  cases r with
  | none => exact ends_pure.mpr fun _ => by decide
  | some f =>
      simp only [ends_bind]
      refine ends_of_forall (fun _ _ _ => ?_) (fun _ _ => trivial) fun _ _ => trivial
      refine ends_of_forall (fun _ _ _ => ?_) (fun _ _ => trivial) fun _ _ => trivial
      refine ends_of_forall (fun _ _ _ => ?_) (fun _ _ => trivial) fun _ _ => trivial
      refine ends_of_forall (fun _ _ _ => ?_) (fun _ _ => trivial) fun _ _ => trivial
      refine ends_of_forall (fun r _ _ => ?_) (fun _ _ => trivial) fun _ _ => trivial
      cases r with
      | false =>
          rw [if_neg (by decide)]
          exact ends_pure.mpr fun _ => by decide
      | true =>
          rw [if_pos rfl, ends_bind]
          refine ends_of_forall (fun _ _ _ => ?_) (fun _ _ => trivial) fun _ _ => trivial
          exact ends_pure.mpr fun h => absurd rfl h

/-- A page is handled by its address. -/
theorem handlePgfault_pgrounddown (root : Frame) (va : Nat) :
    handlePgfault root (pgrounddown va) = handlePgfault root va := by
  have hmax : maxva ≤ pgrounddown va ↔ maxva ≤ va := by
    unfold pgrounddown maxva
    omega
  unfold handlePgfault
  simp only [hmax, pgrounddown_of_aligned (pgrounddown_aligned va)]

/-! ## The trap -/

/-- `usertrap` returns if the fault was resolved and the process was not
marked killed before. -/
theorem usertrap_decides {acc : Access} {C : Prop} {R : St → Prop} (hva : va < maxva)
    (h : ends (pageFault acc va)
      (fun _ st' _ => (C ∧ R st' ∧ st'.p.killed = st.p.killed) ∨ (¬ C ∧ st'.p.killed = true))
      (fun _ _ => ¬ C) (fun _ _ => ¬ C) st) :
    decides (usertrapFault acc va) (fun _ => True) (C ∧ st.p.killed = false) (fun _ => R) st := by
  unfold decides usertrapFault
  rw [if_neg (Nat.not_le.mpr hva), ends_bind]
  refine h.mono (fun _ st' w hr => ?_) (fun _ _ hn hc => hn hc.1) fun _ _ hn hc => hn hc.1
  rw [ends_bind, ends_get]
  rcases hr with ⟨hC, hR, hk⟩ | ⟨hC, hk⟩
  · by_cases hkill : st.p.killed = true
    · rw [if_pos (hk.trans hkill)]
      refine ends_kexit ?_ ?_ <;> exact fun hc => by rw [hkill] at hc; cases hc.2
    · rw [if_neg (by rwa [hk])]
      exact ends_pure.mpr (.inl ⟨trivial, ⟨hC, by simpa using hkill⟩, hR⟩)
  · rw [if_pos hk]
    exact ends_kexit (fun hc => hC hc.1) fun hc => hC hc.1

/-- A fault on a page that is not mapped. -/
theorem Own.trap_absent (h : Own root role st)
    (hs : Stocked root T (1 + ((tablesFor (pgrounddown va) \ T).card + n)) st.sys)
    (hlt : pgrounddown va < trapframeVa) (habs : st.space.img (pgrounddown va) = none)
    (acc : Access) :
    decides (usertrapFault acc va) (fun _ => True)
      (((∃ x, st.space.arrival (pgrounddown va) = some x) ∧
        st.p.numResident < maxResidentPages) ∧ st.p.killed = false)
      (fun _ st' => (∃ role' x low, st.space.arrival (pgrounddown va) = some x ∧
        Own root role' st' ∧ Stocked root (T ∪ tablesFor (pgrounddown va)) n st'.sys ∧
        st'.space = st.space.bring (pgrounddown va) x low) ∧
        ∃ w, handlePgfault root va st = .ret 0 st' w) st := by
  have hva : va < maxva := by
    have h1 := pgrounddown_add_pgoff va
    have h2 := (pgoff va).isLt
    unfold trapframeVa at hlt
    unfold maxva
    omega
  have hv : (leaf st.sys.mem root va).v = false := by
    rw [space_img h.root_eq, imgOf_user ⟨pgrounddown_aligned va, hlt⟩, pageAt_eq_none,
      leaf_pgrounddown] at habs
    exact habs
  refine usertrap_decides hva ?_
  unfold pageFault Xv6.setkilled
  rw [ends_bind, ends_get, ends_bind]
  refine ends_onSys_look (quiet_minorFault _ _ _) ((wp_minorFault hva).mpr ⟨rfl, rfl⟩) ?_
  rw [h.root_eq]
  have hminor : minorOf st.sys.mem root acc va = none := by
    unfold minorOf
    rw [hv]
    cases leafAddr st.sys.mem root va <;> simp
  rw [hminor, ends_bind]
  refine ((ends.run (h.fault hs hlt habs)).and (handlePgfault_ret root va st)).mono ?_
    (fun _ _ hn => hn.1) fun _ _ hn => hn.1
  rintro r st₁ w ⟨⟨⟨rfl, hC, role', x, low, hx, hown, hs', hsp⟩ | ⟨hne, hC⟩, hrun⟩, hneg⟩
  · rw [if_neg (by decide)]
    refine ends_pure.mpr (.inl ⟨hC, ⟨⟨role', x, low, hx, hown, hs', hsp⟩, w, hrun⟩, ?_⟩)
    obtain ⟨sp, k, sl, hp⟩ := takeSwapped_frame st.p (pgrounddown va)
    have hkill : st₁.space.p.killed = st.p.killed := by
      rw [hsp]
      show (st.p.takeSwapped (pgrounddown va)).2.killed = _
      rw [hp]
    exact hkill
  · rw [if_pos (hneg hne)]
    exact ends_modifyProc.mpr (.inr ⟨hC, rfl⟩)

/-- **`PTE_W` was granted**: `st'` is `st` after the write trap at `va`. -/
structure Upgraded (root : Frame) (role : Frame → Role) (va : Nat) (st st' : St) : Prop where
  own : Own root role st'
  stocked : ∀ {T n}, Stocked root T n st.sys → Stocked root T n st'.sys
  leaf : leaf st'.sys.mem root va =
    { leaf st.sys.mem root va with perm := { (leaf st.sys.mem root va).perm with w := true } }
  proc : ∃ l, st'.p = { st.p with residentPages := l }
  img : ∀ b, b ≠ pgrounddown va → st'.space.img b = st.space.img b
  fs : st'.sys.fs = st.sys.fs
  stack : st'.sys.stack = st.sys.stack

/-- The entry a write trap is about, rewritten. -/
theorem Own.upgrade (h : Own root role st) (hva : va < maxva)
    (hv : (leaf st.sys.mem root va).v = true) {pt : Frame} {i : Nat}
    (ha : leafAddr st.sys.mem root va = some (pt, i)) :
    Upgraded root role va st ⟨st.sys.setCell pt ((st.sys.mem pt).setPte i
      { leaf st.sys.mem root va with
        perm := { (leaf st.sys.mem root va).perm with w := true } }), st.p⟩ := by
  have hal := pgrounddown_aligned va
  have hlt : pgrounddown va < maxva := (pgrounddown_le va).trans_lt hva
  obtain ⟨hpt, -⟩ := leafAddr_eq_some.mp ha
  rw [← leafAddr_pgrounddown] at ha
  rw [← leaf_pgrounddown] at hv ⊢
  obtain ⟨s', hs', hown, -, htop, huser⟩ := h.allowWrite hal hlt ha
  obtain ⟨-, rfl, -, hleaf, -, -⟩ := reprotect_spec h.inv h.wf hal hlt ha
    { (leaf st.sys.mem root (pgrounddown va)).perm with w := true }
  rw [← hs'] at hleaf ⊢
  refine ⟨hown, fun {T n} hs => ?_, ?_, ⟨_, rfl⟩, fun b hb => ?_, by rw [hs']; rfl, by rw [hs']; rfl⟩
  · refine ⟨hown.wf.tableOk hown.inv, hs.built.congr fun p => ?_, ?_⟩
    · rw [hs']
      exact hs.ok.tree.tableAt_write hpt _ p
    · have hsame : SameAlloc st.sys s' := by
        rw [hs']
        exact ⟨rfl, rfl, rfl⟩
      rw [hsame.grants]
      exact hs.grants
  · rw [← leaf_pgrounddown, hleaf _ hal hlt, if_pos rfl, leaf_pgrounddown]
  · by_cases hu : pgrounddown va < trapframeVa
    · have himg : st.space.img (pgrounddown va) = some ((leaf st.sys.mem root (pgrounddown va)).perm,
          (st.sys.mem (leaf st.sys.mem root (pgrounddown va)).pa).page) := by
        rw [space_img h.root_eq, imgOf_user ⟨hal, hu⟩]
        exact pageAt_eq_some.mpr ⟨hv, rfl, rfl⟩
      rw [huser _ himg]
      exact Space.map_ne _ hb _
    · rw [htop (Nat.not_lt.mp hu)]

/-- The dirty flag is set. -/
theorem Upgraded.markDirty {st' : St} (h : Upgraded root role va st st') {i : Nat}
    (hi : i < st'.p.numResident.toNat) :
    Upgraded root role va st (st'.withProc (st'.p.markDirty i)) where
  own := h.own.withProc rfl (h.own.lists.markDirty hi)
  stocked hs := h.stocked hs
  leaf := h.leaf
  proc := by
    obtain ⟨l, hp⟩ := h.proc
    exact ⟨_, by rw [hp]; rfl⟩
  img b hb := by
    rw [St.space_withProc st' (p := st'.p.markDirty i) rfl]
    exact h.img b hb
  fs := h.fs
  stack := h.stack

/-- **A write trap on a page that is mapped** grants `PTE_W` where the
page had it not and may have it; nothing else is resolved. -/
theorem Own.trap_mapped (h : Own root role st) (hs : Stocked root T 1 st.sys) (hva : va < maxva)
    (hv : (leaf st.sys.mem root va).v = true) :
    decides (usertrapFault .store va) (fun _ => True)
      (((leaf st.sys.mem root va).perm.w = false ∧ (st.p.heapStart ≤ pgrounddown va ∨
        st.p.phdrWritable (pgrounddown va) = true)) ∧ st.p.killed = false)
      (fun _ st' => Upgraded root role va st st') st := by
  refine usertrap_decides hva ?_
  unfold pageFault Xv6.setkilled
  rw [ends_bind, ends_get, ends_bind]
  refine ends_onSys_look (quiet_minorFault _ _ _) ((wp_minorFault hva).mpr ⟨rfl, rfl⟩) ?_
  rw [h.root_eq]
  obtain ⟨⟨pt, i⟩, ha⟩ := Option.isSome_iff_exists.mp (leafAddr_of_valid hv)
  have hminor : minorOf st.sys.mem root .store va =
      if (leaf st.sys.mem root va).perm.w = false then some (pt, i, leaf st.sys.mem root va)
      else none := by
    unfold minorOf
    rw [ha, hv]
    simp
  rw [hminor]
  by_cases hw : (leaf st.sys.mem root va).perm.w = false
  · rw [if_pos hw]
    dsimp only
    split
    · rename_i hok
      unfold writePte setDirty
      rw [ends_bind, ends_onSys_modify]
      have hup := h.upgrade hva hv ha
      rw [ends_bind, ends_get]
      split
      · exact ends_pure.mpr (.inl ⟨⟨hw, hok⟩, hup, rfl⟩)
      · rename_i j hj
        rw [ends_bind, ends_modifyProc, ends_tell]
        exact .inl ⟨⟨hw, hok⟩, hup.markDirty (residentIdx_some hj).1, rfl⟩
    · rename_i hok
      exact ends_modifyProc.mpr (.inr ⟨fun hc => hok hc.2, rfl⟩)
  · rw [if_neg hw]
    dsimp only
    rw [ends_bind]
    refine (h.fault_mapped hs hva hv).mono (fun r st₁ w hr => ?_) (fun _ _ _ hc => hw hc.1)
      fun _ _ _ hc => hw hc.1
    rw [if_pos hr]
    exact ends_modifyProc.mpr (.inr ⟨fun hc => hw hc.1, rfl⟩)

end

end OsSuite.Xv6
