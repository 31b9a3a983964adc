import OsSuite.Xv6.Steps

/-!
# SwapSlots — the slot bitmap and the swapped-page table

`swap_allocated_slot` hands out the lowest free slot, `evict_page`
records it, `handle_pgfault` takes it back. `SlotsOk` says that the
bitmap marks exactly the recorded slots; no slot is recorded twice, so
the table cannot outgrow the bitmap.
-/

namespace OsSuite.Xv6

open Table

/-- **The bitmap marks the recorded slots.** The bitmap and the resident
list are neighbours in `struct proc`, so the list must not be negative
for this to last. -/
structure SlotsOk (p : Proc) : Prop where
  nonneg : 0 ≤ p.numResident
  nodup : p.slots.Nodup
  lt : ∀ s ∈ p.slots, s < maxSwapPages
  bit : ∀ s, s < maxSwapPages → p.swapSlots s = if s ∈ p.slots then 1 else 0

/-! ## What the code does to the recorded slots -/

theorem length_slots (p : Proc) : p.slots.length = p.numSwapped := by
  simp [Proc.slots, Proc.swapped]

theorem slots_recordSwapped (p : Proc) (va slot : Nat) :
    (p.recordSwapped va slot).slots = p.slots ++ [slot] := by
  simp [Proc.slots, swapped_recordSwapped]

/-- Taking an entry out takes out one slot. -/
theorem slots_takeSwapped {p : Proc} {va i : Nat} (h : p.swappedIdx va = some i) :
    ((p.swappedPages i).slot :: (p.takeSwapped va).2.slots).Perm p.slots :=
  (swapped_takeSwapped h).map SwappedPage.slot

theorem freeSlot_some {p : Proc} {slot : Nat} (h : p.freeSlot = some slot) :
    slot < maxSwapPages ∧ p.swapSlots slot = 0 ∧ ∀ s, s < slot → p.swapSlots s ≠ 0 := by
  obtain ⟨hlt, hz, hmin⟩ := firstIdx_some h
  refine ⟨hlt, by simpa using hz, fun s hs => ?_⟩
  simpa using hmin s hs

section
variable {p : Proc}

theorem SlotsOk.free_not_mem (h : SlotsOk p) {slot : Nat} (hf : p.freeSlot = some slot) :
    slot ∉ p.slots := by
  obtain ⟨hlt, hz, -⟩ := freeSlot_some hf
  intro hmem
  rw [h.bit slot hlt, if_pos hmem] at hz
  cases hz

/-- **The table cannot outgrow the bitmap.** -/
theorem SlotsOk.numSwapped_le (h : SlotsOk p) : p.numSwapped ≤ maxSwapPages := by
  rw [← length_slots]
  exact length_le_of_nodup_lt h.nodup h.lt

theorem SlotsOk.numSwapped_lt (h : SlotsOk p) {slot : Nat} (hf : p.freeSlot = some slot) :
    p.numSwapped < maxSwapPages := by
  have hnd : (slot :: p.slots).Nodup := List.nodup_cons.mpr ⟨h.free_not_mem hf, h.nodup⟩
  have hlt : ∀ s ∈ slot :: p.slots, s < maxSwapPages := by
    intro s hs
    rcases List.mem_cons.mp hs with rfl | hs
    · exact (freeSlot_some hf).1
    · exact h.lt s hs
  have := length_le_of_nodup_lt hnd hlt
  rw [List.length_cons, length_slots] at this
  omega

/-- A scan that finds nothing has seen every slot in use. -/
theorem SlotsOk.full (h : SlotsOk p) (hf : p.freeSlot = none) : p.numSwapped = maxSwapPages := by
  have hall : ∀ s ∈ List.range maxSwapPages, s ∈ p.slots := by
    intro s hs
    have hlt := List.mem_range.mp hs
    have hne := firstIdx_none.mp hf (p.swapSlots s) (mem_live.mpr ⟨s, hlt, rfl⟩)
    by_contra hmem
    rw [h.bit s hlt, if_neg hmem] at hne
    simp at hne
  have hle := (List.nodup_range.subperm hall).length_le
  rw [List.length_range, length_slots] at hle
  exact Nat.le_antisymm h.numSwapped_le hle

theorem SlotsOk.freeSlot_eq_none (h : SlotsOk p) :
    p.freeSlot = none ↔ p.numSwapped = maxSwapPages := by
  refine ⟨h.full, fun heq => ?_⟩
  cases hf : p.freeSlot with
  | none => rfl
  | some slot =>
      have := h.numSwapped_lt hf
      omega

/-! ## The steps -/

theorem SlotsOk.congr (h : SlotsOk p) {p' : Proc} (hn : 0 ≤ p'.numResident)
    (hs : p'.slots = p.slots) (hb : ∀ s, s < maxSwapPages → p'.swapSlots s = p.swapSlots s) :
    SlotsOk p' where
  nonneg := hn
  nodup := by rw [hs]; exact h.nodup
  lt := by rw [hs]; exact h.lt
  bit s hlt := by rw [hs, hb s hlt]; exact h.bit s hlt

theorem slots_same {p' : Proc} (hs : SameTables p p') : p'.slots = p.slots := by
  unfold Proc.slots Proc.swapped
  rw [hs.swappedPages, hs.numSwapped]

theorem SlotsOk.same (h : SlotsOk p) {p' : Proc} (hs : SameTables p p') : SlotsOk p' :=
  h.congr (by rw [hs.numResident]; exact h.nonneg) (slots_same hs)
    fun s _ => by rw [hs.swapSlots]

/-- A slot is taken and recorded. -/
theorem SlotsOk.swapOut (h : SlotsOk p) {slot : Nat} (hf : p.freeSlot = some slot) (va : Nat) :
    SlotsOk ((p.takeSlot slot).recordSwapped va slot) := by
  have hslots : ((p.takeSlot slot).recordSwapped va slot).slots = p.slots ++ [slot] :=
    slots_recordSwapped (p.takeSlot slot) va slot
  refine ⟨h.nonneg, ?_, ?_, ?_⟩
  · rw [hslots]
    refine List.nodup_append.mpr ⟨h.nodup, List.nodup_singleton _, ?_⟩
    rintro a ha b hb rfl
    rw [List.mem_singleton.mp hb] at ha
    exact h.free_not_mem hf ha
  · rw [hslots]
    intro s hs
    rcases List.mem_append.mp hs with hs | hs
    · exact h.lt s hs
    · rw [List.mem_singleton.mp hs]
      exact (freeSlot_some hf).1
  · intro s hs
    rw [hslots]
    show Function.update p.swapSlots slot 1 s = _
    rcases eq_or_ne s slot with rfl | hne
    · simp
    · rw [Function.update_of_ne hne, h.bit s hs]
      simp [hne]

/-- An entry is taken out and its slot is freed. -/
theorem SlotsOk.take (h : SlotsOk p) (va : Nat) : SlotsOk (p.takeSwapped va).2 := by
  cases hi : p.swappedIdx va with
  | none => simpa [Proc.takeSwapped, hi] using h
  | some i =>
      have hp := slots_takeSwapped hi
      have hnd := List.nodup_cons.mp (hp.nodup_iff.mpr h.nodup)
      have hbits : ∀ s, (p.takeSwapped va).2.swapSlots s =
          Function.update p.swapSlots (p.swappedPages i).slot 0 s := by
        simp [Proc.takeSwapped, hi]
      refine ⟨?_, hnd.2, fun s hs => h.lt s (hp.subset (List.mem_cons_of_mem _ hs)), ?_⟩
      · simpa [Proc.takeSwapped, hi] using h.nonneg
      · intro s hs
        rw [hbits]
        rcases eq_or_ne s (p.swappedPages i).slot with rfl | hne
        · rw [Function.update_self, if_neg hnd.1]
        · rw [Function.update_of_ne hne, h.bit s hs]
          simp only [← hp.mem_iff, List.mem_cons, hne, false_or]

end

/-- What is observed of the slots: a slot that is handed out is in bounds
and recorded for no other page, and a scan fails only when all slots are
recorded. -/
def SlotEvent : Event → Prop
  | .swapOut slot used _ => used.Nodup ∧ (∀ s ∈ used, s < maxSwapPages) ∧ slot < maxSwapPages ∧
      slot ∉ used ∧ used.length < maxSwapPages
  | .swapFull used => used.Nodup ∧ used.length = maxSwapPages
  | _ => True

theorem SlotsOk.swapOutEvent {st : St} (h : SlotsOk st.p) {slot : Nat}
    (hf : st.p.freeSlot = some slot) : SlotEvent (swapOutEvent st slot) :=
  ⟨h.nodup, h.lt, (freeSlot_some hf).1, h.free_not_mem hf,
    by rw [length_slots]; exact h.numSwapped_lt hf⟩

theorem SlotsOk.swapFullEvent {p : Proc} (h : SlotsOk p) (hf : p.freeSlot = none) :
    SlotEvent (.swapFull p.slots) :=
  ⟨h.nodup, by rw [length_slots]; exact h.full hf⟩

/-- Code of a process keeps `SlotsOk`. -/
def slotsLink : Link St Event :=
  keeps Event.Nonempty SlotEvent (fun st => SlotsOk st.p) fun _ => True

theorem slots_tables : TableRel slotsLink where
  composes := keeps_composes _ _ _ _
  same _ hs _ h := ⟨h.same hs, fun _ he => nomatch he⟩
  emptyRet hw hA := absurd hA hw
  emptyExit hw hA := absurd hA hw
  emptyPanic hw hA := absurd hA hw
  exited _ _ _ _ := ⟨trivial, fun _ he => nomatch he⟩
  stop _ _ _ _ _ he := nomatch he
  observe _ e he _ h := ⟨h, by cases e <;> first | exact he.elim | simp [SlotEvent]⟩
  evict _ _ h := ⟨h, by simp [SlotEvent]⟩
  swapOut st slot _ fs va hf hw _ h :=
    ⟨h.swapOut hf va, by simpa using h.swapOutEvent hf⟩
  swapFull st hf := ⟨fun _ h => ⟨trivial, by simpa using h.swapFullEvent hf⟩,
    fun _ _ h => by simpa using h.swapFullEvent hf⟩
  swapPanic st slot hf _ _ h := by simpa using h.swapOutEvent hf
  swapFail st slot _ fs r hf hw hr :=
    ⟨fun _ h => ⟨trivial, by simpa [SlotEvent] using h.swapOutEvent hf⟩,
      fun _ _ h => by simpa [SlotEvent] using h.swapOutEvent hf⟩
  remove st hpos _ h :=
    ⟨h.congr (by show 0 ≤ st.p.numResident - 1; omega) rfl fun _ _ => rfl, by simp [SlotEvent]⟩
  take st va _ h := ⟨h.take va, fun _ he => nomatch he⟩
  insert st va b hpos _ _ h :=
    ⟨h.congr (by show 0 ≤ st.p.numResident + 1; omega) rfl fun _ _ => rfl, by simp [SlotEvent]⟩
  insertNeg st p' va b hneg _ _ _ _ h := absurd h.nonneg (by omega)
  mark st va i _ _ h := ⟨h.congr h.nonneg rfl fun _ _ => rfl, by simp [SlotEvent]⟩
  create st d ino fs _ _ h := ⟨h.congr h.nonneg rfl fun _ _ => rfl, by simp [SlotEvent]⟩
  commit st _ h := ⟨h.congr (le_refl 0) rfl fun _ _ => rfl, by simp [SlotEvent]⟩
  env st n _ h := ⟨h, fun _ he => nomatch he⟩

/-! ## Runs -/

/-- Every live process keeps its slots in order. -/
def SlotsInv (k : Kern) : Prop := ∀ j, (k.proc j).Live → SlotsOk (k.proc j)

theorem slotsOk_reset (p : Proc) (pid : Nat) (tf root : Frame) :
    SlotsOk (p.fresh pid tf root) where
  nonneg := le_refl 0
  nodup := List.nodup_nil
  lt _ hs := nomatch hs
  bit s hs := by
    show (if s < maxSwapPages then (0 : Int) else _) = _
    rw [if_pos hs]
    rfl

/-- The copy of `kfork`. -/
theorem SlotsOk.forkFrom {p : Proc} (h : SlotsOk p) (np : Proc) (i : Nat) :
    SlotsOk (np.forkFrom p i) := by
  refine h.congr h.nonneg ?_ fun s hs => if_pos hs
  refine congrArg (List.map SwappedPage.slot) (live_congr fun j hj => ?_)
  exact if_pos hj

theorem slots_step {k k' : Kern} {i : Nat} {w : List Event} (hi : (k.proc i).state = .runnable)
    (hw : ∀ e ∈ w, e.Nonempty) (hk : SlotsInv k) (h : KShape slotsLink k i w k') :
    SlotsInv k' ∧ ∀ e ∈ w, SlotEvent e := by
  have hlive : (k.proc i).Live := by simp [Proc.Live, hi]
  cases h with
  | own hT hst =>
      obtain ⟨hok, hev⟩ := hT hw (hk i hlive)
      refine ⟨fun j hj => ?_, hev⟩
      rcases eq_or_ne j i with rfl | hne
      · rwa [Kern.put_self]
      · rw [Kern.put_ne k hne] at hj ⊢
        exact hk j hj
  | @exit w st hT hst =>
      obtain ⟨-, hev⟩ := hT hw (hk i hlive)
      refine ⟨fun j hj => ?_, hev⟩
      obtain ⟨par, hpar⟩ := reparent_proc i (k.put i st) j
      rw [hpar] at hj ⊢
      rcases eq_or_ne j i with rfl | hne
      · rw [Kern.put_self] at hj
        exact absurd hst hj.2
      · rw [Kern.put_ne k hne] at hj ⊢
        exact (hk j hj).same ⟨rfl, rfl, rfl, rfl, rfl, rfl, rfl, rfl, rfl⟩
  | @forkFail j s hj hc =>
      refine ⟨fun j' hj' => ?_, by simp [SlotEvent]⟩
      rcases eq_or_ne j' j with rfl | hne
      · rw [Kern.setProc_self] at hj'
        exact absurd rfl hj'.1
      · rw [Kern.setProc_ne _ hne] at hj' ⊢
        exact hk j' hj'
  | @fork j s tf root hj hc =>
      refine ⟨fun j' hj' => ?_, by simp [SlotEvent]⟩
      rcases eq_or_ne j' j with rfl | hne
      · rw [Kern.setProc_self]
        exact (hk i hlive).forkFrom _ _
      · rw [Kern.setProc_ne _ hne] at hj' ⊢
        exact hk j' hj'
  | @reap w st j s hT hst hj hc =>
      obtain ⟨hok, hev⟩ := hT hw (hk i hlive)
      refine ⟨fun j' hj' => ?_, hev⟩
      rcases eq_or_ne j' j with rfl | hne
      · rw [Kern.setProc_self] at hj'
        exact absurd rfl hj'.1
      · rw [Kern.setProc_ne _ hne] at hj' ⊢
        change ((k.put i st).proc j').Live at hj'
        show SlotsOk ((k.put i st).proc j')
        rcases eq_or_ne j' i with rfl | hne'
        · rwa [Kern.put_self]
        · rw [Kern.put_ne k hne'] at hj' ⊢
          exact hk j' hj'

theorem Reach.slotsInv {k : Kern} (h : Reach EvictsNonempty k) : SlotsInv k := by
  refine Reach.inv (fun k hb => ?_) (fun k i op w k' hk hs hw => ?_) h
  · obtain ⟨k₀, j, s, tf, root, hf, -, rfl⟩ := hb.shape
    intro j' hj'
    rcases eq_or_ne j' j with rfl | hne
    · rw [Kern.setProc_self]
      exact (slotsOk_reset Proc.zero 1 tf root).congr (le_refl 0) rfl fun _ _ => rfl
    · rw [Kern.setProc_ne _ hne] at hj'
      have hz : (k₀.bump.withSys s).proc j' = Proc.zero := hf.proc j'
      rw [hz] at hj'
      exact absurd rfl hj'.1
  · have hi : (k.proc i).state = .runnable := by cases hs <;> assumption
    exact (slots_step hi hw hk (hs.shape slots_tables hw)).1

/-- **The slots recorded for a live process are distinct, in bounds, and
exactly those the bitmap marks**, so the table never outgrows the bitmap
and `swap_allocated_slot` fails only when 60 pages are swapped out. The
last part says the same of every swap-out inside a step. -/
theorem swap_slots_exact {k : Kern} (h : Reach EvictsNonempty k) :
    (∀ i, (k.proc i).Live →
      (k.proc i).slots.Nodup ∧ (∀ s ∈ (k.proc i).slots, s < maxSwapPages) ∧
      (∀ s, s < maxSwapPages → ((k.proc i).swapSlots s = 1 ↔ s ∈ (k.proc i).slots)) ∧
      (k.proc i).numSwapped ≤ maxSwapPages ∧
      ((k.proc i).freeSlot = none ↔ (k.proc i).numSwapped = maxSwapPages)) ∧
    ∀ i op, (k.proc i).state = .runnable → (∀ e ∈ (kstep i op k).events, e.Nonempty) →
      ∀ e ∈ (kstep i op k).events, SlotEvent e := by
  have hinv := h.slotsInv
  refine ⟨fun i hlive => ?_, fun i op hi => ?_⟩
  · have hp := hinv i hlive
    refine ⟨hp.nodup, hp.lt, fun s hs => ?_, hp.numSwapped_le, hp.freeSlot_eq_none⟩
    rw [hp.bit s hs]
    split <;> simp_all
  · refine (kstep_shape slots_tables hi op).events
      (fun _ _ _ hsh hw => (slots_step hi hw hinv (hsh hw)).2)
      (fun _ _ hsh hw => (slots_step hi hw hinv (hsh hw)).2) fun _ w hp hw => ?_
    rcases hp with hp | ⟨j, -, rfl⟩
    · exact hp hw (hinv i (by simp [Proc.Live, hi]))
    · simp [SlotEvent]

/-- One page out, one slot marked. -/
theorem swap_slots_exact_swapRun : ∃ k, Reach EvictsNonempty k ∧ (k.proc 0).slots = [0] ∧
    ∀ s, s < maxSwapPages → ((k.proc 0).swapSlots s = 1 ↔ s ∈ (k.proc 0).slots) := by
  obtain ⟨k, tr, hk, hp⟩ := Run.of_check EvictsNonempty smallKern_fresh swapRun
    (fun k _ => decide ((k.proc 0).Live ∧ (k.proc 0).slots = [0])) (by decide +kernel)
  obtain ⟨hlive, hslots⟩ := of_decide_eq_true hp
  exact ⟨k, ⟨tr, hk⟩, hslots, ((swap_slots_exact ⟨tr, hk⟩).1 0 hlive).2.2.1⟩

end OsSuite.Xv6
