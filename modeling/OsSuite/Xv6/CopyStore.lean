import OsSuite.Xv6.FaultIn
import OsSuite.Xv6.Started
import OsSuite.Xv6.Steps
import OsSuite.Xv6.UserCopy

/-!
# CopyStore — `copyout` and user stores

Two ways to write to user memory. A store traps until the page is there
and has `PTE_W`; the write trap grants `PTE_W` to pages of the heap and
of writable segments. `copyout` faults the page in as well, and then it
asks for `PTE_W` and grants nothing. Both are reduced to what the pages
of the range look like before the call (`Space.foundIn`), and
`copyout_agrees_iff` says for which pages the two come to the same.
-/

namespace OsSuite.Xv6

/-! ## The code -/

/-- User stores of the bytes `src` from `va` on, one after the other.
Three tries are enough for any store: one that faults the page in, one
that makes it writable, and the store itself. -/
def userStores : Nat → List UInt8 → PProg Bool
  | _, [] => pure true
  | va, b :: src => do
      match ← userAccess .store va b 3 with
      | none => pure false
      | some _ => userStores (va + 1) src

/-! ## The pages of a range -/

/-- The pages that hold the bytes from `va` to `va + len`. -/
def pagesOf (va len : Nat) : List Nat :=
  if len = 0 then []
  else (List.range ((va % 4096 + (len - 1)) / 4096 + 1)).map fun k => pgrounddown va + 4096 * k

theorem pagesOf_cons {va len : Nat} (h : 0 < len) :
    pagesOf va len = pgrounddown va ::
      pagesOf (pgrounddown va + 4096) (len - (4096 - va % 4096)) := by
  have hal := pgrounddown_aligned va
  have hnext : pgrounddown (pgrounddown va + 4096) = pgrounddown va + 4096 :=
    pgrounddown_of_aligned (by omega)
  have hmod : va % 4096 < 4096 := Nat.mod_lt _ (by decide)
  unfold pagesOf
  rw [if_neg (by omega), List.range_succ_eq_map, List.map_cons, Nat.mul_zero, Nat.add_zero, hnext]
  congr 1
  by_cases hend : len - (4096 - va % 4096) = 0
  · rw [if_pos hend, show (va % 4096 + (len - 1)) / 4096 = 0 by omega]
    rfl
  · rw [if_neg hend, List.map_map, show (va % 4096 + (len - 1)) / 4096 =
      ((pgrounddown va + 4096) % 4096 + (len - (4096 - va % 4096) - 1)) / 4096 + 1 by omega]
    refine List.map_congr_left fun k _ => ?_
    show pgrounddown va + 4096 * (k + 1) = _
    omega

/-- The pages of a range lie above its start. -/
theorem le_of_mem_pagesOf {va len b : Nat} (h : b ∈ pagesOf va len) : pgrounddown va ≤ b := by
  unfold pagesOf at h
  split at h
  · cases h
  · obtain ⟨k, -, rfl⟩ := List.mem_map.mp h
    exact Nat.le_add_right _ _

theorem not_mem_pagesOf (va len : Nat) : pgrounddown va ∉ pagesOf (pgrounddown va + 4096) len := by
  intro h
  have hle := le_of_mem_pagesOf h
  rw [pgrounddown_of_aligned (by have := pgrounddown_aligned va; omega)] at hle
  omega

/-- What becomes of a page of the range. -/
structure Found where
  va : Nat
  perm : Perm
  /-- The page is not mapped yet. -/
  brought : Bool
  deriving DecidableEq

namespace Space

/-- The page at `va`: as it is mapped, or as `handle_pgfault` would map
it for a process with the lists of `p`; `none` if it would not. -/
def find (a : Space) (p : Proc) (va : Nat) : Option Found :=
  if trapframeVa ≤ va then none
  else
    match a.img va with
    | some x => some ⟨va, x.1, false⟩
    | none =>
        if p.numResident < maxResidentPages then
          ((a.withProc p).arrival va).map fun x => ⟨va, x.1, true⟩
        else none

/-- The process after the page was looked up. -/
def next (a : Space) (p : Proc) (va : Nat) : Proc :=
  match a.img va with
  | some _ => p
  | none => (p.takeSwapped va).2.insertResident va (p.takeSwapped va).1.isSome

/-- **The pages of a range, one after the other.** -/
def foundIn (a : Space) : Proc → List Nat → Option (List Found)
  | _, [] => some []
  | p, va :: L => (a.find p va).bind fun q => (a.foundIn (a.next p va) L).map (q :: ·)

/-- All pages are found, and they are `good`. -/
def All (a : Space) (good : Found → Prop) (p : Proc) (L : List Nat) : Prop :=
  ∃ l, a.foundIn p L = some l ∧ ∀ q ∈ l, good q

section
variable {a : Space} {p : Proc} {va : Nat} {L : List Nat} {x : Perm × Page} {good : Found → Prop}

theorem all_cons : a.All good p (va :: L) ↔
    (∃ q, a.find p va = some q ∧ good q) ∧ a.All good (a.next p va) L := by
  unfold All
  rw [foundIn]
  constructor
  · rintro ⟨l, hl, hgood⟩
    obtain ⟨q, hq, hl⟩ := Option.bind_eq_some_iff.mp hl
    obtain ⟨l', hl', rfl⟩ := Option.map_eq_some_iff.mp hl
    exact ⟨⟨q, hq, hgood q List.mem_cons_self⟩, l', hl', fun q' hq' =>
      hgood q' (List.mem_cons_of_mem _ hq')⟩
  · rintro ⟨⟨q, hq, hgood⟩, l, hl, hall⟩
    refine ⟨q :: l, ?_, fun q' hq' => ?_⟩
    · rw [hq, Option.bind_some, hl]
      rfl
    · rcases List.mem_cons.mp hq' with rfl | hq'
      · exact hgood
      · exact hall q' hq'

theorem find_mapped (hlt : va < trapframeVa) (hx : a.img va = some x) :
    a.find p va = some ⟨va, x.1, false⟩ ∧ a.next p va = p := by
  unfold find next
  rw [if_neg (Nat.not_le.mpr hlt), hx]
  exact ⟨rfl, rfl⟩

theorem find_absent (hlt : va < trapframeVa) (hx : a.img va = none) {q : Found} :
    a.find p va = some q ↔ p.numResident < maxResidentPages ∧
      ∃ x, (a.withProc p).arrival va = some x ∧ q = ⟨va, x.1, true⟩ := by
  unfold find
  rw [if_neg (Nat.not_le.mpr hlt), hx]
  dsimp only
  split
  · rename_i hroom
    rw [Option.map_eq_some_iff]
    exact ⟨fun ⟨x, hx, hq⟩ => ⟨hroom, x, hx, hq.symm⟩, fun ⟨_, x, hx, hq⟩ => ⟨x, hx, hq.symm⟩⟩
  · rename_i hroom
    exact ⟨nofun, fun h => absurd h.1 hroom⟩

theorem next_absent (hx : a.img va = none) : a.next p va =
    (p.takeSwapped va).2.insertResident va (p.takeSwapped va).1.isSome := by
  unfold next
  rw [hx]

theorem find_top (hge : trapframeVa ≤ va) : a.find p va = none := if_pos hge

/-- The pages that have to be faulted in. -/
def absentIn (a : Space) (L : List Nat) : List Nat :=
  L.filter fun va => decide (va < trapframeVa) && (a.img va).isNone

end

end Space

/-! ## Frames -/

/-- The table pages on the way to any of these pages. -/
def tablesOf : List Nat → Finset Spot
  | [] => ∅
  | va :: L => tablesFor va ∪ tablesOf L

/-- The frames it takes to fault in what is absent, with table pages at
`T`. The last one is for `handle_pgfault`, which takes a frame before it
finds that a page is mapped. -/
def Space.framesFor (a : Space) (T : Finset Spot) (L : List Nat) : Nat :=
  (a.absentIn L).length + (tablesOf (a.absentIn L) \ T).card + 1

/-- **Frames are available** for the pages `L`. -/
def FramesFor (root : Frame) (L : List Nat) (st : St) : Prop :=
  st.sys.grants ((st.space.absentIn L).length + ((tablesOf (st.space.absentIn L)).filter
    fun p => (tableAt st.sys.mem root p).isNone).card + 1) = true

section
variable {a : Space} {p : Proc} {va : Nat} {L : List Nat} {T : Finset Spot} {root : Frame} {s : Sys}

theorem framesFor_mapped (hx : (a.img va).isSome) : a.framesFor T (va :: L) = a.framesFor T L := by
  unfold Space.framesFor Space.absentIn
  rw [List.filter_cons_of_neg (by rw [Option.isNone_eq_false_iff.mpr hx]; simp)]

theorem framesFor_absent (hlt : va < trapframeVa) (hx : a.img va = none) :
    a.framesFor T (va :: L) = 1 + ((tablesFor va \ T).card + a.framesFor (T ∪ tablesFor va) L) := by
  unfold Space.framesFor Space.absentIn
  rw [List.filter_cons_of_pos (by rw [hx]; simpa using hlt), List.length_cons, tablesOf,
    card_union_sdiff]
  omega

/-- The spots of a table whose pages have `n` entries. -/
theorem exists_spots (n : Nat) : ∃ S : Finset Spot, .top ∈ S ∧ (∀ i, i < n → .mid i ∈ S) ∧
    ∀ i j, i < n → j < n → .low i j ∈ S := by
  refine ⟨insert .top ((Finset.range n).image .mid ∪
    (Finset.range n ×ˢ Finset.range n).image fun x => .low x.1 x.2), ?_, fun i hi => ?_,
    fun i j hi hj => ?_⟩
  · exact Finset.mem_insert_self ..
  · exact Finset.mem_insert_of_mem (Finset.mem_union_left _
      (Finset.mem_image.mpr ⟨i, Finset.mem_range.mpr hi, rfl⟩))
  · exact Finset.mem_insert_of_mem (Finset.mem_union_right _ (Finset.mem_image.mpr
      ⟨(i, j), Finset.mem_product.mpr ⟨Finset.mem_range.mpr hi, Finset.mem_range.mpr hj⟩, rfl⟩))

/-- A page table has finitely many table pages. -/
theorem exists_built (root : Frame) (s : Sys) : ∃ T, Built root T s := by
  obtain ⟨S, htop, hmid, hlow⟩ := exists_spots 512
  refine ⟨S.filter fun p => (tableAt s.mem root p).isSome, fun p => ?_⟩
  rw [Finset.mem_filter]
  refine ⟨fun h => ⟨?_, h⟩, fun h => h.2⟩
  obtain ⟨f, hf⟩ := Option.isSome_iff_exists.mp h
  cases p with
  | top => exact htop
  | mid i => exact hmid i (child_eq_some.mp hf).1
  | low i j =>
      obtain ⟨t, ht, hf⟩ := Option.bind_eq_some_iff.mp hf
      exact hlow i j (child_eq_some.mp ht).1 (child_eq_some.mp hf).1

/-- Frames that are available are in stock. -/
theorem FramesFor.stocked {st : St} (h : FramesFor root L st) (hok : TableOk root st.sys) :
    ∃ T, Stocked root T (st.space.framesFor T L) st.sys := by
  obtain ⟨T, hT⟩ := exists_built root st.sys
  refine ⟨T, hok, hT, ?_⟩
  have hmissing : (tablesOf (st.space.absentIn L)).filter (fun p => (tableAt st.sys.mem root p).isNone)
      = tablesOf (st.space.absentIn L) \ T := by
    ext p
    rw [Finset.mem_filter, Finset.mem_sdiff, ← hT p, Option.not_isSome_iff_eq_none,
      Option.isNone_iff_eq_none]
  unfold FramesFor at h
  rwa [hmissing] at h

end

/-! ## Where a copy stands -/

/-- **The state in the middle of a copy**: the pages `L` are still to
come. They are mapped as they were in `a`, and the process is `p` up to
the dirty flags. -/
structure Tracks (root : Frame) (role : Frame → Role) (T : Finset Spot) (a : Space) (p : Proc)
    (L : List Nat) (st : St) : Prop where
  own : Own root role st
  stocked : Stocked root T (a.framesFor T L) st.sys
  img : ∀ va ∈ L, (st.space.img va).map Prod.fst = (a.img va).map Prod.fst
  proc : ∃ l, st.p = { p with residentPages := l }
  fs : st.sys.fs = a.fs
  stack : st.sys.stack = a.stack
  killed : p.killed = a.p.killed
  heapStart : p.heapStart = a.p.heapStart
  phdr : ∀ va, p.phdrWritable va = a.p.phdrWritable va

section
variable {root : Frame} {role role' : Frame → Role} {T : Finset Spot} {a : Space} {p : Proc}
  {L : List Nat} {st st' : St} {va : Nat} {x : Perm × Page}

/-- The swapped list does not see the resident list. -/
theorem takeSwapped_residents (p : Proc) (l : Nat → ResidentPage) (va : Nat) :
    ({ p with residentPages := l } : Proc).takeSwapped va =
      ((p.takeSwapped va).1, { (p.takeSwapped va).2 with residentPages := l }) := by
  unfold Proc.takeSwapped
  rw [show ({ p with residentPages := l } : Proc).swappedIdx va = p.swappedIdx va from rfl]
  cases p.swappedIdx va <;> rfl

theorem Tracks.arrival (h : Tracks root role T a p L st) :
    st.space.arrival va = (a.withProc p).arrival va := by
  obtain ⟨l, hp⟩ := h.proc
  have hsp : st.space = ⟨st.space.img, st.space.low, { p with residentPages := l }, a.fs, a.stack⟩ := by
    rw [← hp, ← h.fs, ← h.stack]
    rfl
  rw [hsp]
  unfold Space.arrival
  dsimp only
  rw [takeSwapped_residents]
  rfl

theorem Tracks.room (h : Tracks root role T a p L st) : st.p.numResident = p.numResident := by
  obtain ⟨l, hp⟩ := h.proc
  rw [hp]

/-- What is done to other pages does not matter. -/
theorem Tracks.moved (h : Tracks root role T a p L st) (hown : Own root role' st')
    (hs : Stocked root T (a.framesFor T L) st'.sys)
    (himg : ∀ b ∈ L, (st'.space.img b).map Prod.fst = (st.space.img b).map Prod.fst)
    (hp : ∃ l, st'.p = { st.p with residentPages := l }) (hfs : st'.sys.fs = st.sys.fs)
    (hstack : st'.sys.stack = st.sys.stack) : Tracks root role' T a p L st' where
  own := hown
  stocked := hs
  img b hb := (himg b hb).trans (h.img b hb)
  proc := by
    obtain ⟨l, hl⟩ := h.proc
    obtain ⟨l', hl'⟩ := hp
    exact ⟨l', by rw [hl', hl]⟩
  fs := hfs.trans h.fs
  stack := hstack.trans h.stack
  killed := h.killed
  heapStart := h.heapStart
  phdr := h.phdr

/-- A page that is mapped now was mapped before. -/
theorem Tracks.mapped (h : Tracks root role T a p (va :: L) st) (hx : st.space.img va = some x) :
    ∃ y, a.img va = some y ∧ y.1 = x.1 := by
  have := h.img va List.mem_cons_self
  rw [hx] at this
  obtain ⟨y, hy, he⟩ := Option.map_eq_some_iff.mp this.symm
  exact ⟨y, hy, he⟩

theorem Tracks.absent (h : Tracks root role T a p (va :: L) st) (hx : st.space.img va = none) :
    a.img va = none := by
  have := h.img va List.mem_cons_self
  rw [hx] at this
  exact Option.map_eq_none_iff.mp this.symm

/-- A page that is there is passed. -/
theorem Tracks.pass (h : Tracks root role T a p (va :: L) st) (hx : (a.img va).isSome) :
    Tracks root role T a p L st :=
  { h with
    stocked := by
      have hs := h.stocked
      rwa [framesFor_mapped hx] at hs
    img := fun b hb => h.img b (List.mem_cons_of_mem _ hb) }

/-- The page has been faulted in. -/
theorem Tracks.brought {low : Nat → Bool} (h : Tracks root role T a p (va :: L) st) (hnot : va ∉ L)
    (hx : a.img va = none) (hown : Own root role' st')
    (hs : Stocked root (T ∪ tablesFor va) (a.framesFor (T ∪ tablesFor va) L) st'.sys)
    (hsp : st'.space = st.space.bring va x low) :
    Tracks root role' (T ∪ tablesFor va) a (a.next p va) L st' := by
  obtain ⟨l, hp⟩ := h.proc
  obtain ⟨sp, k, sl, htake⟩ := takeSwapped_frame p va
  have hnext : a.next p va = { p with
      swappedPages := sp, numSwapped := k, swapSlots := sl,
      residentPages := (a.next p va).residentPages, numResident := p.numResident + 1,
      nextFifoSeq := wrap32 (p.nextFifoSeq + 1) } := by
    rw [Space.next_absent hx]
    unfold Proc.insertResident
    rw [htake]
  refine ⟨hown, hs, fun b hb => ?_, ?_, ?_, ?_, ?_, ?_, fun b => ?_⟩
  · have hne : b ≠ va := fun he => hnot (he ▸ hb)
    rw [hsp, ← h.img b (List.mem_cons_of_mem _ hb)]
    exact congrArg _ (Space.map_ne _ hne _)
  · have hp' : st'.p = (st.p.takeSwapped va).2.insertResident va (st.p.takeSwapped va).1.isSome :=
      congrArg Space.p hsp
    rw [hp', hp, Space.next_absent hx, takeSwapped_residents]
    exact ⟨_, rfl⟩
  · exact (congrArg Space.fs hsp).trans h.fs
  · exact (congrArg Space.stack hsp).trans h.stack
  · rw [hnext]
    exact h.killed
  · rw [hnext]
    exact h.heapStart
  · rw [hnext]
    exact h.phdr b

/-! ## `copyout` -/

/-- A user page, looked up. -/
theorem Own.userPa_eq (h : Own root role st) (hal : va % 4096 = 0) (hx : st.space.img va = some x) :
    userPa st.sys.mem root va =
      if x.1.u = true then some (leaf st.sys.mem root va).pa else none := by
  have hx' : st.space.img (pgrounddown va) = some x := by rwa [pgrounddown_of_aligned hal]
  obtain ⟨hva, hv, hperm, -⟩ := h.leaf_of_img hx'
  unfold userPa
  rw [hperm]
  simp only [hva, hv, true_and]

/-- The page is free, or a page of the user or the kernel is there. -/
theorem Own.img_none (h : Own root role st) (hal : va % 4096 = 0) (hva : va < maxva)
    (hv : (leaf st.sys.mem root va).v = false) : va < trapframeVa ∧ st.space.img va = none := by
  have hlt : va < trapframeVa := by
    by_contra hge
    rw [(h.top va hal (Nat.not_lt.mp hge) hva).1] at hv
    cases hv
  refine ⟨hlt, ?_⟩
  rw [space_img h.root_eq, imgOf_user ⟨hal, hlt⟩]
  exact pageAt_eq_none.mpr hv

theorem Own.img_some (h : Own root role st) (hal : va % 4096 = 0) (hlt : va < trapframeVa)
    (hv : (leaf st.sys.mem root va).v = true) :
    ∃ x, st.space.img va = some x ∧ x.1 = (leaf st.sys.mem root va).perm := by
  rw [space_img h.root_eq, imgOf_user ⟨hal, hlt⟩]
  exact ⟨((leaf st.sys.mem root va).perm, _), pageAt_eq_some.mpr ⟨hv, rfl, rfl⟩, rfl⟩

/-- What is found at a page that is mapped. -/
theorem Tracks.find_mapped (h : Tracks root role T a p (va :: L) st) (hal : va % 4096 = 0)
    (hv : (leaf st.sys.mem root va).v = true) {q : Found} (hq : a.find p va = some q) :
    q = ⟨va, (leaf st.sys.mem root va).perm, false⟩ := by
  have hlt : va < trapframeVa := by
    by_contra hge
    rw [Space.find_top (Nat.not_lt.mp hge)] at hq
    cases hq
  obtain ⟨x, hx, hperm⟩ := h.own.img_some hal hlt hv
  obtain ⟨y, hy, hyx⟩ := h.mapped hx
  rw [(Space.find_mapped hlt hy).1, hyx, hperm] at hq
  exact (Option.some.inj hq).symm

/-- **The lookup of a page** by `copyout`. -/
theorem Tracks.userFrame (h : Tracks root role T a p (va :: L) st) (hal : va % 4096 = 0)
    (hva : va < maxva) (hnot : va ∉ L) :
    decides (Xv6.userFrame root va) (fun r => r.isSome = true)
      (∃ q, a.find p va = some q ∧ q.perm.u = true)
      (fun r st' => ∃ pa q role' T', r = some pa ∧ a.find p va = some q ∧
        Tracks root role' T' a (a.next p va) L st' ∧ userPa st'.sys.mem root va = some pa ∧
        (leaf st'.sys.mem root va).perm = q.perm) st := by
  unfold decides Xv6.userFrame
  rw [ends_bind]
  refine ends_walkaddr ?_
  have hround := pgrounddown_of_aligned hal
  cases hpa : userPa st.sys.mem root va with
  | some pa =>
      obtain ⟨x, hx, hu, hperm, -, -⟩ := h.own.img_of_userPa hpa
      rw [hround] at hx
      have hlt : va < trapframeVa := by
        rw [space_img h.own.root_eq] at hx
        exact (imgOf_eq_some.mp hx).1.2
      obtain ⟨y, hy, hyx⟩ := h.mapped hx
      obtain ⟨hfind, hnext⟩ := Space.find_mapped (p := p) hlt hy
      refine ends_pure.mpr (.inl ⟨rfl, ⟨_, hfind, by rw [hyx]; exact hu⟩, pa, _, role, T, rfl, hfind,
        ?_, hpa, ?_⟩)
      · rw [hnext]
        exact h.pass (by rw [hy]; rfl)
      · rw [← hperm]
        exact hyx.symm
  | none =>
      dsimp only
      rw [ends_bind]
      by_cases hv : (leaf st.sys.mem root va).v = true
      · -- the page is the kernel's, or the guard page of the stack
        have hno : ¬ ∃ q, a.find p va = some q ∧ q.perm.u = true := by
          rintro ⟨q, hq, hu⟩
          rw [h.find_mapped hal hv hq] at hu
          unfold userPa at hpa
          rw [if_pos ⟨hva, hv, hu⟩] at hpa
          cases hpa
        have hs1 := h.stocked.of_le (Nat.le_add_left 1 _)
        refine (h.own.fault_mapped hs1 hva hv).mono (fun r st₁ w hr => ?_) (fun _ _ _ => hno)
          fun _ _ _ => hno
        rw [if_pos (by omega)]
        exact ends_pure.mpr (.inr ⟨nofun, hno⟩)
      · obtain ⟨hlt, hx⟩ := h.own.img_none hal hva (by simpa using hv)
        have ha := h.absent hx
        have hs := h.stocked
        rw [framesFor_absent hlt ha] at hs
        have hfree : st.space.img (pgrounddown va) = none := by rw [hround]; exact hx
        have hfault := h.own.fault (by rw [hround]; exact hs) (by rw [hround]; exact hlt) hfree
        rw [hround, h.arrival, h.room] at hfault
        have hfind : ∀ {q}, a.find p va = some q →
            (∃ x, (a.withProc p).arrival va = some x) ∧ p.numResident < maxResidentPages := by
          intro q hq
          obtain ⟨hroom, x, hx, -⟩ := (Space.find_absent hlt ha).mp hq
          exact ⟨⟨x, hx⟩, hroom⟩
        refine ends.mono hfault ?_ (fun _ _ hn => fun ⟨q, hq, _⟩ => hn (hfind hq))
          fun _ _ hn => fun ⟨q, hq, _⟩ => hn (hfind hq)
        rintro r st₁ w (⟨rfl, ⟨-, hroom⟩, role', x, low, hx, hown, hs', hsp⟩ | ⟨hr, hn⟩)
        · rw [if_neg (by decide)]
          refine ends_walkaddr ?_
          have himg : st₁.space.img va = some x := by
            rw [hsp]
            exact Space.map_self ..
          have hq : a.find p va = some ⟨va, x.1, true⟩ :=
            (Space.find_absent hlt ha).mpr ⟨hroom, x, hx, rfl⟩
          rw [hown.userPa_eq hal himg]
          by_cases hu : x.1.u = true
          · rw [if_pos hu]
            refine .inl ⟨rfl, ⟨_, hq, hu⟩, _, _, role', _, rfl, hq,
              h.brought hnot ha hown hs' hsp, ?_, ?_⟩
            · rfl
            · rw [← pgrounddown_of_aligned hal] at himg
              exact (hown.leaf_of_img himg).2.2.1
          · rw [if_neg hu]
            refine .inr ⟨nofun, fun ⟨q, hq', hu'⟩ => ?_⟩
            rw [hq] at hq'
            cases hq'
            exact hu hu'
        · rw [if_pos hr]
          exact ends_pure.mpr (.inr ⟨nofun, fun ⟨q, hq, _⟩ => hn (hfind hq)⟩)

/-- The frame of a page holds no table. -/
theorem Own.page_unlinked (h : Own root role st) (hx : st.space.img va = some x) :
    Unlinked st.sys.mem root (leaf st.sys.mem root va).pa := by
  rw [space_img h.root_eq] at hx
  obtain ⟨⟨hal, hlt⟩, hx⟩ := imgOf_eq_some.mp hx
  have hrole := h.wf.page va hal hlt (pageAt_eq_some.mp hx).1
  intro p hp
  rw [h.wf.role_at hp] at hrole
  cases p <;> cases hrole

/-- The page is overwritten. -/
theorem Tracks.write (h : Tracks root role T a p L st) (hnot : va ∉ L)
    (hx : st.space.img va = some x) (pg : Page) :
    Tracks root role T a p L
      ⟨st.sys.setCell (leaf st.sys.mem root va).pa (.bytes pg), st.p⟩ := by
  obtain ⟨s', rfl, hown, -, hsp, -⟩ := h.own.write hx pg
  refine h.moved hown (h.stocked.setCell (h.own.page_unlinked hx) _) (fun b hb => ?_) ⟨_, rfl⟩ rfl rfl
  have hne : b ≠ va := fun he => hnot (he ▸ hb)
  rw [hsp, Space.map_ne _ hne]

/-- `copyout` gets through the page. -/
def Found.copies (q : Found) : Prop := q.perm.u = true ∧ q.perm.w = true

theorem all_nil (good : Found → Prop) : a.All good p [] := ⟨[], rfl, nofun⟩

/-- **`copyout` succeeds when all pages have `PTE_U` and `PTE_W`**, as
they are mapped or as the fault maps them. -/
theorem copyoutLoop_decides (fuel : Nat) : ∀ {role : Frame → Role} {T : Finset Spot} {p : Proc}
    {st : St} (va : Nat) (src : List UInt8), src.length ≤ fuel →
    Tracks root role T a p (pagesOf va src.length) st →
    decides (copyoutLoop root fuel va src) (fun r => r.1 = true)
      (a.All Found.copies p (pagesOf va src.length)) (fun _ _ => True) st := by
  induction fuel with
  | zero =>
      intro role T p st va src hlen h
      obtain rfl : src = [] := List.length_eq_zero_iff.mp (by omega)
      exact ends_pure.mpr (.inl ⟨rfl, all_nil _, trivial⟩)
  | succ fuel ih =>
      intro role T p st va src hlen h
      rw [copyoutLoop]
      split
      · rename_i h0
        obtain rfl := List.isEmpty_iff.mp h0
        exact ends_pure.mpr (.inl ⟨rfl, all_nil _, trivial⟩)
      rename_i h0
      have hpos : 0 < src.length := List.length_pos_iff.mpr fun he => h0 (by rw [he]; rfl)
      rw [pagesOf_cons hpos] at h ⊢
      rw [Space.all_cons]
      split
      · rename_i hmax
        refine decides.never ?_ (ends_pure.mpr (by simp))
        rintro ⟨⟨q, hq, -⟩, -⟩
        rw [Space.find_top (le_trans (by decide) hmax)] at hq
        cases hq
      rename_i hmax
      refine (h.userFrame (pgrounddown_aligned va) (Nat.not_le.mp hmax) (not_mem_pagesOf _ _)).bind
        ?_ ?_ ?_
      · rintro ⟨⟨q, hq, hu, -⟩, -⟩
        exact ⟨q, hq, hu⟩
      · rintro r st₁ w - - ⟨q, hq, hu⟩ ⟨pa, q', role', T', rfl, hq', htr, hpa, hperm⟩
        obtain rfl : q = q' := Option.some.inj (hq.symm.trans hq')
        obtain ⟨x, hx, -, -, -, rfl⟩ := htr.own.img_of_userPa hpa
        rw [pgrounddown_of_aligned (pgrounddown_aligned va)] at hx
        unfold decides
        rw [ends_bind, ends_get]
        split
        · rename_i hw
          rw [ends_bind]
          unfold storeBytes
          rw [ends_onSys_modify]
          have hnext := htr.write (not_mem_pagesOf _ _) hx
            (fun i => if va % 4096 ≤ i.val then ((src.take (4096 - va % 4096))[i.val - va % 4096]?).getD
              ((st₁.sys.mem (leaf st₁.sys.mem root (pgrounddown va)).pa).page i)
              else (st₁.sys.mem (leaf st₁.sys.mem root (pgrounddown va)).pa).page i)
          rw [← List.length_drop] at hnext ⊢
          refine decides.mono (ih _ _ ?_ hnext) ?_ fun _ _ _ _ _ => trivial
          · rw [List.length_drop]
            omega
          · rw [hperm] at hw
            exact ⟨fun hall => ⟨⟨q, hq, hu, hw⟩, hall⟩, fun hall => hall.2⟩
        · rename_i hw
          refine ends_pure.mpr (.inr ⟨by simp, ?_⟩)
          rintro ⟨⟨q', hq', -, hw'⟩, -⟩
          rw [hq] at hq'
          cases hq'
          rw [hperm] at hw
          exact hw hw'
      · intro r st₁ hr
        cases r with
        | none => exact ends_pure.mpr (by simp)
        | some pa => exact absurd rfl hr

/-! ## User stores -/

/-- The state after the byte at `va` was stored. -/
def St.stored (st : St) (root : Frame) (va : Nat) (b : UInt8) : St :=
  ⟨st.sys.setCell (leaf st.sys.mem root va).pa (.bytes (Function.update
    (st.sys.mem (leaf st.sys.mem root va).pa).page (pgoff va) b)), st.p⟩

/-- A store that the hardware permits. -/
theorem userAccess_store {b : UInt8} {n : Nat} (hroot : st.p.pagetable = root) (hva : va < maxva)
    (hp : (leaf st.sys.mem root va).permits .store = true) :
    userAccess .store va b (n + 1) st = .ret (some b) (st.stored root va b) [] := by
  rw [userAccess, Prog.get_bind, hroot, if_pos ⟨hva, hp⟩, if_pos rfl]
  rfl

/-- A store that it does not. -/
theorem userAccess_trap {b : UInt8} {n : Nat} (hroot : st.p.pagetable = root)
    (hp : ¬ (va < maxva ∧ (leaf st.sys.mem root va).permits .store = true)) :
    userAccess .store va b (n + 1) st =
      (do usertrapFault .store va; userAccess .store va b n : PProg (Option UInt8)) st := by
  rw [userAccess, Prog.get_bind, hroot, if_neg hp]

theorem permits_store {e : Pte} (hv : e.v = true) :
    e.permits .store = true ↔ e.perm.u = true ∧ e.perm.r = true ∧ e.perm.w = true := by
  simp only [Pte.permits, hv, Bool.and_eq_true, true_and]
  tauto

/-- **A store to a page that is mapped** gets through, if need be after
one write trap. -/
theorem Own.access_mapped (h : Own root role st) (hs : Stocked root T 1 st.sys) (hva : va < maxva)
    (hv : (leaf st.sys.mem root va).v = true) (b : UInt8) (n : Nat) :
    decides (userAccess .store va b (n + 2)) (fun r => r.isSome = true)
      ((leaf st.sys.mem root va).perm.u = true ∧ (leaf st.sys.mem root va).perm.r = true ∧
        ((leaf st.sys.mem root va).perm.w = true ∨ ((st.p.heapStart ≤ pgrounddown va ∨
          st.p.phdrWritable (pgrounddown va) = true) ∧ st.p.killed = false)))
      (fun _ st' => ∃ st₁, ((leaf st.sys.mem root va).perm.w = true ∧ st₁ = st ∨
          (leaf st.sys.mem root va).perm.w = false ∧ Upgraded root role va st st₁) ∧
        (leaf st₁.sys.mem root va).permits .store = true ∧ st' = st₁.stored root va b) st := by
  by_cases hp : (leaf st.sys.mem root va).permits .store = true
  · obtain ⟨hu, hr, hw⟩ := (permits_store hv).mp hp
    refine (ends_of_eq (userAccess_store h.root_eq hva hp)).mpr ?_
    exact .inl ⟨rfl, ⟨hu, hr, .inl hw⟩, st, .inl ⟨hw, rfl⟩, hp, rfl⟩
  · refine (ends_congr (userAccess_trap h.root_eq fun hc => hp hc.2)).mpr ?_
    refine (h.trap_mapped hs hva hv).bind ?_ ?_ fun _ _ hn => absurd trivial hn
    · rintro ⟨hu, hr, hw | ⟨hok, hk⟩⟩
      · exact absurd ((permits_store hv).mpr ⟨hu, hr, hw⟩) hp
      · refine ⟨⟨?_, hok⟩, hk⟩
        by_contra hw
        exact hp ((permits_store hv).mpr ⟨hu, hr, by simpa using hw⟩)
    · rintro - st₁ w - - ⟨⟨hw, hok⟩, hk⟩ hup
      have hv₁ : (leaf st₁.sys.mem root va).v = true := by
        rw [hup.leaf]
        exact hv
      by_cases hp₁ : (leaf st₁.sys.mem root va).permits .store = true
      · refine (ends_of_eq (userAccess_store hup.own.root_eq hva hp₁)).mpr ?_
        obtain ⟨hu, hr, -⟩ := (permits_store hv₁).mp hp₁
        rw [hup.leaf] at hu hr
        exact .inl ⟨rfl, ⟨hu, hr, .inr ⟨hok, hk⟩⟩, st₁, .inr ⟨hw, hup⟩, hp₁, rfl⟩
      · -- the page is not the user's, and the next trap finds nothing to do
        refine decides.never ?_ ?_
        · rintro ⟨hu, hr, -⟩
          refine hp₁ ((permits_store hv₁).mpr ?_)
          rw [hup.leaf]
          exact ⟨hu, hr, rfl⟩
        · refine (ends_congr (userAccess_trap hup.own.root_eq fun hc => hp₁ hc.2)).mpr ?_
          rw [ends_bind]
          refine ends.mono (hup.own.trap_mapped (hup.stocked hs) hva hv₁) (fun _ st₂ w₂ hr => ?_)
            (fun _ _ _ => trivial) fun _ _ _ => trivial
          rcases hr with ⟨-, ⟨⟨hw₁, -⟩, -⟩, -⟩ | hn
          · rw [hup.leaf] at hw₁
            cases hw₁
          · exact absurd trivial hn.1

/-- Stores get through the page, for the process `p`. -/
def Found.stores (p : Proc) (q : Found) : Prop :=
  q.perm.u = true ∧ q.perm.r = true ∧
    (q.perm.w = true ∨ p.heapStart ≤ q.va ∨ p.phdrWritable q.va = true) ∧
    (p.killed = true → q.perm.w = true ∧ q.brought = false)

theorem Tracks.upgraded (h : Tracks root role T a p L st) (hnot : pgrounddown va ∉ L)
    (hup : Upgraded root role va st st') : Tracks root role T a p L st' := by
  refine h.moved hup.own (hup.stocked h.stocked) (fun b hb => ?_) hup.proc hup.fs hup.stack
  rw [hup.img b fun he => hnot (he ▸ hb)]

/-- The lookup of a page that is faulted in. -/
theorem userFrame_fault {pa : Frame} {w : List Event} (hno : userPa st.sys.mem root va = none)
    (hrun : handlePgfault root va st = .ret 0 st' w) (hpa : userPa st'.sys.mem root va = some pa) :
    ∃ w, userFrame root va st = .ret (some pa) st' w := by
  have hx₁ := walkaddr_run root va st
  have hx₂ := walkaddr_run root va st'
  rw [hno] at hx₁
  rw [hpa] at hx₂
  unfold userFrame
  rw [Prog.bind_ret hx₁]
  dsimp only
  rw [Prog.bind_ret hrun, if_neg (by decide), hx₂]
  exact ⟨_, rfl⟩

theorem stores_mapped {perm : Perm} : Found.stores p ⟨va, perm, false⟩ ↔
    perm.u = true ∧ perm.r = true ∧ (perm.w = true ∨
      ((p.heapStart ≤ va ∨ p.phdrWritable va = true) ∧ p.killed = false)) := by
  unfold Found.stores
  cases p.killed <;> simp
  tauto

theorem stores_brought {perm : Perm} : Found.stores p ⟨va, perm, true⟩ ↔
    (perm.u = true ∧ perm.r = true ∧ (perm.w = true ∨
      ((p.heapStart ≤ va ∨ p.phdrWritable va = true) ∧ p.killed = false))) ∧ p.killed = false := by
  unfold Found.stores
  cases p.killed <;> simp

/-- What the stores depend on does not change on the way. -/
theorem Tracks.gates (h : Tracks root role T a p L st) : st.p.killed = a.p.killed ∧
    st.p.heapStart = a.p.heapStart ∧ ∀ b, st.p.phdrWritable b = a.p.phdrWritable b := by
  obtain ⟨l, hp⟩ := h.proc
  rw [hp]
  exact ⟨h.killed, h.heapStart, h.phdr⟩

/-- The store got through a page that is there. -/
theorem Tracks.landed (h : Tracks root role T a p L st) (hnot : pgrounddown va ∉ L)
    (hst : (leaf st.sys.mem root va).perm.w = true ∧ st' = st ∨
      (leaf st.sys.mem root va).perm.w = false ∧ Upgraded root role va st st') :
    Tracks root role T a p L st' := by
  rcases hst with ⟨-, rfl⟩ | ⟨-, hup⟩
  · exact h
  · exact h.upgraded hnot hup

/-- After a store to the first page of those to come, and before the
byte is written, the process is at `st'`. A page that had `PTE_W` is then
as `copyout` finds it. -/
def Lands (root : Frame) (a : Space) (p : Proc) (L : List Nat) (va : Nat) (st st' : St) : Prop :=
  ∃ role T, Tracks root role T a (a.next p (pgrounddown va)) L st' ∧ va < maxva ∧
    (leaf st'.sys.mem root va).permits .store = true ∧
    ∀ q, a.find p (pgrounddown va) = some q → q.perm.w = true →
      ∃ w, userFrame root (pgrounddown va) st = .ret (some (leaf st'.sys.mem root va).pa) st' w

/-- A store to a page that is mapped. -/
theorem Tracks.access_mapped (h : Tracks root role T a p (pgrounddown va :: L) st)
    (hnot : pgrounddown va ∉ L) (hva : va < maxva) (hv : (leaf st.sys.mem root va).v = true)
    (b : UInt8) :
    decides (userAccess .store va b 3) (fun r => r.isSome = true)
      (∃ q, a.find p (pgrounddown va) = some q ∧ q.stores a.p)
      (fun _ st' => ∃ st₁, Lands root a p L va st st₁ ∧ st' = st₁.stored root va b) st := by
  have hal := pgrounddown_aligned va
  obtain ⟨hkill, hheap, hphdr⟩ := h.gates
  have hv₀ : (leaf st.sys.mem root (pgrounddown va)).v = true := by rwa [leaf_pgrounddown]
  have hfind : ∀ {q}, a.find p (pgrounddown va) = some q →
      q = ⟨pgrounddown va, (leaf st.sys.mem root va).perm, false⟩ := by
    intro q hq
    rw [h.find_mapped hal hv₀ hq, leaf_pgrounddown]
  have huser : (leaf st.sys.mem root va).perm.u = true → (a.img (pgrounddown va)).isSome ∧
      a.find p (pgrounddown va) = some ⟨pgrounddown va, (leaf st.sys.mem root va).perm, false⟩ ∧
      a.next p (pgrounddown va) = p := by
    intro hu
    have hx := h.own.img_of_user hva hv hu
    have hlt : pgrounddown va < trapframeVa := by
      have hx' := hx
      rw [space_img h.own.root_eq] at hx'
      exact (imgOf_eq_some.mp hx').1.2
    obtain ⟨y, hy, hyx⟩ := h.mapped hx
    obtain ⟨hq, hnext⟩ := Space.find_mapped (p := p) hlt hy
    rw [hyx] at hq
    exact ⟨by rw [hy]; rfl, hq, hnext⟩
  have hs1 := h.stocked.of_le (Nat.le_add_left 1 _)
  refine (h.own.access_mapped hs1 hva hv b 1).mono ?_ ?_
  · rw [hkill, hheap, hphdr, ← stores_mapped]
    constructor
    · intro hst
      exact ⟨_, (huser (stores_mapped.mp hst).1).2.1, hst⟩
    · rintro ⟨q, hq, hst⟩
      rwa [hfind hq] at hst
  · rintro r st' - ⟨hu, -⟩ ⟨st₁, hst, hp, rfl⟩
    obtain ⟨hsome, hq, hnext⟩ := huser hu
    have htr := (h.pass hsome).landed hnot hst
    refine ⟨st₁, ⟨role, T, by rw [hnext]; exact htr, hva, hp, fun q' hq' hw => ?_⟩, rfl⟩
    rw [hfind hq'] at hw
    rcases hst with ⟨-, rfl⟩ | ⟨hw', -⟩
    · refine ⟨_, userFrame_run ?_⟩
      unfold userPa
      rw [leaf_pgrounddown, if_pos ⟨(pgrounddown_le va).trans_lt hva, hv, hu⟩]
    · rw [show (leaf st.sys.mem root va).perm.w = true from hw] at hw'
      cases hw'

/-- A store to a page that is not mapped. -/
theorem Tracks.access_absent (h : Tracks root role T a p (pgrounddown va :: L) st)
    (hnot : pgrounddown va ∉ L) (hva : va < maxva) (hv : (leaf st.sys.mem root va).v = false)
    (b : UInt8) :
    decides (userAccess .store va b 3) (fun r => r.isSome = true)
      (∃ q, a.find p (pgrounddown va) = some q ∧ q.stores a.p)
      (fun _ st' => ∃ st₁, Lands root a p L va st st₁ ∧ st' = st₁.stored root va b) st := by
  have hal := pgrounddown_aligned va
  have hlt₀ : pgrounddown va < maxva := (pgrounddown_le va).trans_lt hva
  obtain ⟨hkill, -, -⟩ := h.gates
  obtain ⟨hlt, hx⟩ := h.own.img_none hal hlt₀ (by rwa [leaf_pgrounddown])
  have ha := h.absent hx
  have hs := h.stocked
  rw [framesFor_absent hlt ha] at hs
  have hdenied : (leaf st.sys.mem root va).permits .store = false := by
    simp only [Pte.permits, hv, Bool.false_and]
  refine (ends_congr (userAccess_trap h.own.root_eq fun hc => by rw [hdenied] at hc; cases hc.2)).mpr ?_
  have htrap := h.own.trap_absent hs hlt hx .store
  rw [h.arrival, h.room, hkill] at htrap
  refine htrap.bind ?_ ?_ fun _ _ hn => absurd trivial hn
  · rintro ⟨q, hq, hst⟩
    obtain ⟨hroom, x, hx, rfl⟩ := (Space.find_absent hlt ha).mp hq
    exact ⟨⟨⟨x, hx⟩, hroom⟩, (stores_brought.mp hst).2⟩
  · rintro - st₂ w - - ⟨⟨-, hroom⟩, hk⟩ ⟨⟨role', x, low, hx', hown, hs', hsp⟩, w', hrun⟩
    have himg : st₂.space.img (pgrounddown va) = some x := by
      rw [hsp]
      exact Space.map_self ..
    obtain ⟨-, hv₂, hperm, -⟩ := hown.leaf_of_img himg
    have htr := h.brought hnot ha hown hs' hsp
    obtain ⟨hkill₂, hheap, hphdr⟩ := htr.gates
    have hq : a.find p (pgrounddown va) = some ⟨pgrounddown va, x.1, true⟩ :=
      (Space.find_absent hlt ha).mpr ⟨hroom, x, hx', rfl⟩
    refine (hown.access_mapped (hs'.of_le (Nat.le_add_left 1 _)) hva hv₂ b 0).mono ?_ ?_
    · rw [hkill₂, hheap, hphdr, hperm]
      constructor
      · intro hst
        exact ⟨_, hq, stores_brought.mpr ⟨hst, hk⟩⟩
      · rintro ⟨q, hq', hst⟩
        obtain rfl := Option.some.inj (hq.symm.trans hq')
        exact (stores_brought.mp hst).1
    · rintro r st' - ⟨hu, -⟩ ⟨st₁, hst, hp, rfl⟩
      refine ⟨st₁, ⟨role', _, htr.landed hnot hst, hva, hp, fun q' hq' hw => ?_⟩, rfl⟩
      obtain rfl := Option.some.inj (hq.symm.trans hq')
      rcases hst with ⟨-, rfl⟩ | ⟨hw', -⟩
      · refine userFrame_fault ?_ (by rw [handlePgfault_pgrounddown]; exact hrun) ?_
        · unfold userPa
          rw [leaf_pgrounddown, hv, if_neg (by simp)]
        · unfold userPa
          rw [leaf_pgrounddown, if_pos ⟨hlt₀, hv₂, hu⟩]
      · rw [hperm, show x.1.w = true from hw] at hw'
        cases hw'

/-- **A store to the first page** of those to come. -/
theorem Tracks.access (h : Tracks root role T a p (pgrounddown va :: L) st)
    (hnot : pgrounddown va ∉ L) (b : UInt8) :
    decides (userAccess .store va b 3) (fun r => r.isSome = true)
      (∃ q, a.find p (pgrounddown va) = some q ∧ q.stores a.p)
      (fun _ st' => ∃ st₁, Lands root a p L va st st₁ ∧ st' = st₁.stored root va b) st := by
  by_cases hva : va < maxva
  · cases hv : (leaf st.sys.mem root va).v with
    | true => exact h.access_mapped hnot hva hv b
    | false => exact h.access_absent hnot hva hv b
  · have hge : trapframeVa ≤ pgrounddown va := by
      unfold pgrounddown trapframeVa
      unfold maxva at hva
      omega
    refine decides.never ?_ ?_
    · rintro ⟨q, hq, -⟩
      rw [Space.find_top hge] at hq
      cases hq
    · refine (ends_congr (userAccess_trap h.own.root_eq fun hc => hva hc.1)).mpr ?_
      unfold usertrapFault
      rw [if_pos (Nat.not_lt.mp hva), ends_bind]
      exact ends_kexit trivial trivial

/-- A byte stored, and the rest of a part that fits in the page. -/
theorem Page.patch_step (pg : Page) (b : UInt8) (l : List UInt8) {va : Nat}
    (hfit : va % 4096 + l.length < 4096) :
    Page.patch (Function.update pg (pgoff va) b) ((va + 1) % 4096) l
      = pg.patch (va % 4096) (b :: l) := by
  rw [← Page.patch_cons]
  cases l with
  | nil => rw [Page.patch_nil, Page.patch_nil]
  | cons c l =>
      rw [List.length_cons] at hfit
      rw [show (va + 1) % 4096 = va % 4096 + 1 by omega]

/-- **Stores within a page that permits them** go on without a trap. -/
theorem Own.stores_page (h : Own root role st) {A : Nat} (hal : A % 4096 = 0)
    (hx : st.space.img A = some x) (hp : (leaf st.sys.mem root A).permits .store = true)
    (rest : List UInt8) {l : List UInt8} {va : Nat} (hpage : ∀ i, i < l.length → pgrounddown (va + i) = A)
    (pg : Page) :
    userStores va (l ++ rest) ⟨st.sys.setCell (leaf st.sys.mem root A).pa (.bytes pg), st.p⟩ =
      userStores (va + l.length) rest
        ⟨st.sys.setCell (leaf st.sys.mem root A).pa (.bytes (pg.patch (va % 4096) l)), st.p⟩ := by
  induction l generalizing va pg with
  | nil =>
      rw [Page.patch_nil]
      rfl
  | cons b l ih =>
      have hA : pgrounddown va = A := hpage 0 (Nat.succ_pos _)
      obtain ⟨s', hs', hown, -, -, hleaf⟩ := h.write hx pg
      have hleaf' : leaf s'.mem root va = leaf st.sys.mem root A := by
        rw [← leaf_pgrounddown, hA, hleaf]
      have himg : st.space.img (pgrounddown va) = some x := by rw [hA]; exact hx
      have hva : va < maxva := (h.leaf_of_img himg).1
      have hstored : (⟨s', st.p⟩ : St).stored root va b = ⟨st.sys.setCell (leaf st.sys.mem root A).pa
          (.bytes (Function.update pg (pgoff va) b)), st.p⟩ := by
        unfold St.stored
        dsimp only
        rw [hleaf', hs']
        unfold Sys.setCell
        simp only [Function.update_self, Function.update_idem]
        rfl
      have hlast : pgrounddown (va + l.length) = A := hpage l.length (by simp)
      have hpatch := @Page.patch_step pg b l va (by unfold pgrounddown at hA hlast; omega)
      rw [← hs', List.cons_append, userStores,
        Prog.bind_ret (userAccess_store hown.root_eq hva (by rw [hleaf']; exact hp)), hstored]
      dsimp only
      have hrest := @ih (va + 1) (fun i hi => by
        rw [show va + 1 + i = va + (i + 1) by omega]
        exact hpage (i + 1) (Nat.succ_lt_succ hi)) (Function.update pg (pgoff va) b)
      rw [hrest, hpatch, List.length_cons, show va + 1 + l.length = va + (l.length + 1) by omega]
      rw [Out.after_nil]

/-- The rest of the page, and then the next one. -/
theorem Own.stores_rest (h : Own root role st) (hx : st.space.img (pgrounddown va) = some x)
    (hp : (leaf st.sys.mem root va).permits .store = true) (b : UInt8) (src : List UInt8) {m : Nat}
    (hm : va % 4096 + (m + 1) = 4096) :
    userStores (va + 1) src (st.stored root va b) = userStores (pgrounddown va + 4096) (src.drop m)
      ⟨st.sys.setCell (leaf st.sys.mem root (pgrounddown va)).pa (.bytes
        ((st.sys.mem (leaf st.sys.mem root (pgrounddown va)).pa).page.patch (va % 4096)
          (b :: src.take m))), st.p⟩ := by
  have hle := List.length_take_le m src
  have hpage : ∀ i, i < (src.take m).length → pgrounddown (va + 1 + i) = pgrounddown va := by
    intro i hi
    unfold pgrounddown
    omega
  have hstores := h.stores_page (pgrounddown_aligned va) hx
    (by rw [leaf_pgrounddown]; exact hp) (src.drop m) hpage (Function.update
      (st.sys.mem (leaf st.sys.mem root (pgrounddown va)).pa).page (pgoff va) b)
  rw [List.take_append_drop, Page.patch_step _ _ _ (by omega)] at hstores
  unfold St.stored
  rw [← leaf_pgrounddown, hstores]
  by_cases hend : src.length ≤ m
  · rw [List.drop_eq_nil_of_le hend]
    rfl
  · rw [List.length_take_of_le (by omega),
      show va + 1 + m = pgrounddown va + 4096 by unfold pgrounddown; omega]

/-- One round of `copyout`. -/
theorem copyoutLoop_round {fuel : Nat} {src : List UInt8} {pa : Frame} {w : List Event}
    (hsrc : src ≠ []) (hva : pgrounddown va < maxva)
    (hrun : userFrame root (pgrounddown va) st = .ret (some pa) st' w)
    (hw : (leaf st'.sys.mem root (pgrounddown va)).perm.w = true) :
    copyoutLoop root (fuel + 1) va src st = (copyoutLoop root fuel (pgrounddown va + 4096)
      (src.drop (4096 - va % 4096)) ⟨st'.sys.setCell pa (.bytes ((st'.sys.mem pa).page.patch
        (va % 4096) (src.take (4096 - va % 4096)))), st'.p⟩).after w := by
  rw [copyoutLoop, if_neg (by simpa using hsrc), if_neg (Nat.not_le.mpr hva), Prog.bind_ret hrun]
  dsimp only
  rw [Prog.get_bind, if_pos hw]
  congr 1
  have hstore : onSys (storeBytes pa (va % 4096) (src.take (4096 - va % 4096))) st' =
      .ret () ⟨st'.sys.setCell pa (.bytes ((st'.sys.mem pa).page.patch
        (va % 4096) (src.take (4096 - va % 4096)))), st'.p⟩ [] := rfl
  rw [Prog.bind_ret hstore, Out.after_nil]

/-- **Stores succeed when all pages admit them**, and where `copyout`
succeeds as well it leaves the same state. -/
theorem userStores_decides (fuel : Nat) : ∀ {role : Frame → Role} {T : Finset Spot} {p : Proc}
    {st : St} (va : Nat) (src : List UInt8), src.length ≤ fuel →
    Tracks root role T a p (pagesOf va src.length) st →
    decides (userStores va src) (fun r => r = true)
      (a.All (Found.stores a.p) p (pagesOf va src.length))
      (fun _ st' => a.All Found.copies p (pagesOf va src.length) →
        ∃ r w, copyoutLoop root fuel va src st = .ret r st' w) st := by
  induction fuel with
  | zero =>
      intro role T p st va src hlen h
      obtain rfl : src = [] := List.length_eq_zero_iff.mp (by omega)
      exact ends_pure.mpr (.inl ⟨rfl, all_nil _, fun _ => ⟨_, _, rfl⟩⟩)
  | succ fuel ih =>
      intro role T p st va src hlen h
      cases src with
      | nil => exact ends_pure.mpr (.inl ⟨rfl, all_nil _, fun _ => ⟨_, _, rfl⟩⟩)
      | cons b src =>
      have hal := pgrounddown_aligned va
      have hmod : va % 4096 < 4096 := Nat.mod_lt _ (by decide)
      have hpos : 0 < (b :: src).length := Nat.succ_pos _
      rw [pagesOf_cons hpos, ← List.length_drop] at h ⊢
      rw [Space.all_cons, Space.all_cons]
      have hnot := not_mem_pagesOf va ((b :: src).drop (4096 - va % 4096)).length
      refine (h.access hnot b).bind (fun hall => hall.1) ?_ ?_
      · rintro r st' w - hr ⟨q, hq, hst⟩ ⟨st₁, ⟨role', T', htr, hva, hp, hframe⟩, rfl⟩
        obtain ⟨b', rfl⟩ := Option.isSome_iff_exists.mp hr
        have hv := (Pte.permits_user hp).1
        obtain ⟨hu, hr, hw⟩ := (permits_store hv).mp hp
        have hx := htr.own.img_of_user hva hv hu
        have hround := pgrounddown_of_aligned hal
        generalize hn : 4096 - va % 4096 = n at *
        obtain ⟨m, rfl⟩ : ∃ m, n = m + 1 := ⟨n - 1, by omega⟩
        rw [List.drop_succ_cons] at h hnot htr ⊢
        -- the rest of this page, and then the next one
        refine (ends_congr (htr.own.stores_rest hx hp b src (m := m) (by omega))).mpr ?_
        have hnext := htr.write hnot hx
          ((st₁.sys.mem (leaf st₁.sys.mem root (pgrounddown va)).pa).page.patch (va % 4096)
            (b :: src.take m))
        refine decides.mono (ih _ _ ?_ hnext) ?_ ?_
        · rw [List.length_drop]
          rw [List.length_cons] at hlen
          omega
        · exact ⟨fun hall => ⟨⟨q, hq, hst⟩, hall⟩, fun hall => hall.2⟩
        · rintro _ st₂ - - hcopy ⟨⟨q', hq', -, hw'⟩, hall⟩
          obtain ⟨r, w₂, hrun⟩ := hcopy hall
          obtain ⟨w₁, hframe⟩ := hframe q' hq' hw'
          have hcopied := @copyoutLoop_round root st st₁ va fuel (b :: src) _ w₁ (by simp)
            ((pgrounddown_le va).trans_lt hva) hframe (by rw [leaf_pgrounddown]; exact hw)
          rw [hn, List.drop_succ_cons, List.take_succ_cons] at hcopied
          rw [leaf_pgrounddown] at hrun
          rw [hcopied, hrun]
          exact ⟨_, _, rfl⟩
      · intro r st₁ hr
        cases r with
        | none => exact ends_pure.mpr nofun
        | some _ => exact absurd rfl hr

/-! ## Agreement -/

/-- `copyout(pagetable, va, src, len)` returns 0. -/
def CopyOk (root : Frame) (va : Nat) (src : List UInt8) (st : St) : Prop :=
  ∃ r st' w, copyout root va src st = .ret r st' w ∧ r.1 = true

/-- User stores to all bytes of the range are resolved. -/
def StoresOk (va : Nat) (src : List UInt8) (st : St) : Prop :=
  ∃ st' w, userStores va src st = .ret true st' w

/-- **`copyout` agrees with user stores**: it returns 0 exactly when they
are resolved, and then it leaves the same memory image. -/
def CopyAgrees (root : Frame) (va : Nat) (src : List UInt8) (st : St) : Prop :=
  (CopyOk root va src st ↔ StoresOk va src st) ∧
    ∀ r st₁ w₁ st₂ w₂, copyout root va src st = .ret r st₁ w₁ → r.1 = true →
      userStores va src st = .ret true st₂ w₂ → st₁.space.img = st₂.space.img

theorem tracks_start (h : Own root role st) (hf : FramesFor root L st) :
    ∃ T, Tracks root role T st.space st.p L st := by
  obtain ⟨T, hs⟩ := hf.stocked (h.wf.tableOk h.inv)
  exact ⟨T, h, hs, fun _ _ => rfl, ⟨_, rfl⟩, rfl, rfl, rfl, rfl, fun _ => rfl⟩

theorem Tracks.copyOk_iff {src : List UInt8}
    (h : Tracks root role T a p (pagesOf va src.length) st) :
    CopyOk root va src st ↔ a.All Found.copies p (pagesOf va src.length) := by
  have hdec := copyoutLoop_decides src.length va src (Nat.le_refl _) h
  constructor
  · rintro ⟨r, st', w, hrun, hr⟩
    exact (hdec.of_ret hrun hr).1
  · intro hall
    obtain ⟨r, st', w, hrun, hr, -⟩ := hdec.run hall
    exact ⟨r, st', w, hrun, hr⟩

theorem Tracks.storesOk_iff {src : List UInt8}
    (h : Tracks root role T a p (pagesOf va src.length) st) :
    StoresOk va src st ↔ a.All (Found.stores a.p) p (pagesOf va src.length) := by
  have hdec := userStores_decides src.length va src (Nat.le_refl _) h
  constructor
  · rintro ⟨st', w, hrun⟩
    exact (hdec.of_ret hrun rfl).1
  · intro hall
    obtain ⟨r, st', w, hrun, rfl, -⟩ := hdec.run hall
    exact ⟨st', w, hrun⟩

/-- **When `copyout` agrees with user stores.** -/
theorem copyout_agrees_iff (h : Own root role st) (src : List UInt8)
    (hf : FramesFor root (pagesOf va src.length) st) :
    CopyAgrees root va src st ↔
      ∀ l, st.space.foundIn st.p (pagesOf va src.length) = some l →
        ((∀ q ∈ l, q.copies) ↔ ∀ q ∈ l, q.stores st.p) := by
  obtain ⟨T, htr⟩ := tracks_start h hf
  have hall : ∀ {good : Found → Prop} {l}, st.space.foundIn st.p (pagesOf va src.length) = some l →
      (st.space.All good st.p (pagesOf va src.length) ↔ ∀ q ∈ l, good q) := by
    intro good l hl
    refine ⟨fun ⟨l', hl', hgood⟩ => ?_, fun hgood => ⟨l, hl, hgood⟩⟩
    obtain rfl := Option.some.inj (hl.symm.trans hl')
    exact hgood
  unfold CopyAgrees
  rw [htr.copyOk_iff, htr.storesOk_iff]
  constructor
  · rintro ⟨hiff, -⟩ l hl
    rw [← hall hl, ← hall hl]
    exact hiff
  · intro hgood
    refine ⟨?_, fun r st₁ w₁ st₂ w₂ hcopy hr hstores => ?_⟩
    · cases hl : st.space.foundIn st.p (pagesOf va src.length) with
      | none =>
          unfold Space.All
          rw [hl]
          exact ⟨nofun, nofun⟩
      | some l =>
          rw [hall hl, hall hl]
          exact hgood l hl
    · have hcopies := htr.copyOk_iff.mp ⟨r, st₁, w₁, hcopy, hr⟩
      obtain ⟨r', w', hrun⟩ := ((userStores_decides src.length va src (Nat.le_refl _) htr).of_ret
        hstores rfl).2 hcopies
      rw [show copyoutLoop root src.length va src st = _ from hcopy] at hrun
      cases hrun
      rfl

end

/-! ## Two pages of the small executable -/

instance (root : Frame) (L : List Nat) (st : St) : Decidable (FramesFor root L st) := by
  unfold FramesFor
  infer_instance

/-- The first page of the executable belongs to a writable segment, which
is mapped with `PTE_W`. -/
theorem copyout_agrees_iff_segment : FramesFor 524300 (pagesOf 0 2) startedSt ∧
    CopyOk 524300 0 [8, 9] startedSt ∧ CopyAgrees 524300 0 [8, 9] startedSt := by
  have hfound : startedSt.space.foundIn startedSt.p (pagesOf 0 2) =
      some [⟨0, ⟨true, true, false, true⟩, true⟩] := by decide +kernel
  have hcopy : (copyout 524300 0 [8, 9] startedSt).returns (true, []) = true := by decide +kernel
  have hframes : FramesFor 524300 (pagesOf 0 2) startedSt := by decide +kernel
  have hkilled : startedSt.p.killed = false := by decide +kernel
  obtain ⟨st, w, hret⟩ := Out.of_returns hcopy
  obtain ⟨role, hown⟩ := own_startedSt.1
  refine ⟨hframes, ⟨_, st, w, hret, rfl⟩, (copyout_agrees_iff hown [8, 9] hframes).mpr ?_⟩
  intro l hl
  obtain rfl := Option.some.inj (hfound.symm.trans hl)
  refine ⟨fun _ q hq => ?_, fun _ q hq => ?_⟩
  · obtain rfl := List.mem_singleton.mp hq
    exact ⟨rfl, rfl, .inl rfl, fun hc => by rw [hkilled] at hc; cases hc⟩
  · obtain rfl := List.mem_singleton.mp hq
    exact ⟨rfl, rfl⟩

/-- A process may store to a page that `sbrk` gave it, but `copyout`
refuses the page until the process has done so. -/
theorem copyout_refuses_heap : ∃ k tr, Run EvictsNonempty k tr ∧
    FramesFor (k.proc 0).pagetable (pagesOf 28672 1) (k.at 0) ∧
    (∃ st w, copyout (k.proc 0).pagetable 28672 [7] (k.at 0) = .ret (false, [7]) st w) ∧
    StoresOk 28672 [7] (k.at 0) ∧ ¬ CopyAgrees (k.proc 0).pagetable 28672 [7] (k.at 0) := by
  obtain ⟨k, tr, hrun, hp⟩ := Run.of_check EvictsNonempty smallKern_fresh
    [(0, execA), (0, .sbrk 4096)]
    (fun k _ => decide (FramesFor (k.proc 0).pagetable (pagesOf 28672 1) (k.at 0) ∧
      (copyout (k.proc 0).pagetable 28672 [7] (k.at 0)).returns (false, [7]) = true ∧
      (userStores 28672 [7] (k.at 0)).returns true = true)) (by decide +kernel)
  obtain ⟨hframes, hcopy, hstores⟩ := of_decide_eq_true hp
  obtain ⟨st, w, hret⟩ := Out.of_returns hcopy
  obtain ⟨st', w', hret'⟩ := Out.of_returns hstores
  refine ⟨k, tr, hrun, hframes, ⟨st, w, hret⟩, ⟨st', w', hret'⟩, fun hagrees => ?_⟩
  obtain ⟨r, _, _, hc, hr⟩ := hagrees.1.mpr ⟨st', w', hret'⟩
  rw [hret] at hc
  cases hc
  cases hr

end OsSuite.Xv6
