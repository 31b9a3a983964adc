import OsSuite.Xv6.Lazy

/-!
# Settle — every faulting access is settled

A trap that returns to user space has mapped a page that was not mapped,
or has set `PTE_W` where it was not set. So of three traps on one access
the third cannot return: the page is mapped since the first and writable
since the second, and `handle_pgfault` never maps a page twice.
-/

namespace OsSuite.Xv6

/-- Evictions start from a non-empty list and take another page than
`va`. -/
def Event.Spares (va : Nat) : Event → Prop
  | .evict n => 0 < n
  | .evicted _ v _ _ _ _ => v ≠ va
  | _ => True

theorem Event.Spares.nonempty {va : Nat} {e : Event} (h : e.Spares va) : e.Nonempty := by
  cases e <;> first | exact h | exact trivial

/-- The page `va` did not join the resident list. -/
def Event.NoInsert (va : Nat) : Event → Prop
  | .inserted v _ _ => v ≠ va
  | _ => True

/-- **A mapped page stays mapped**, and is not mapped again, unless it is
evicted. -/
theorem Space.Moves.stays_mapped {a a' : Space} {w : List Event} {va : Nat} (h : Moves a w a')
    (hw : ∀ e ∈ w, e.Spares va) (hx : (a.img va).isSome) :
    (a'.img va).isSome ∧ ∀ e ∈ w, e.NoInsert va := by
  have hmap : ∀ (a : Space) (b : Nat) (x : Perm × Page), (a.img va).isSome →
      ((a.map b x).img va).isSome := by
    intro a b x ha
    by_cases hb : va = b
    · rw [hb, Space.map_self]
      rfl
    · rw [Space.map_ne a hb]
      exact ha
  have hnone : ∀ {a : Space} {b : Nat}, a.img b = none → (a.img va).isSome → b ≠ va := by
    rintro a b hb ha rfl
    rw [hb] at ha
    cases ha
  refine h.observed (A := Event.Spares va) (G := Event.NoInsert va)
    (I := fun a => (a.img va).isSome) (fun a w a' hs hw ha => ?_) hw hx
  have hspared : ∀ {s s'}, a.Evicts s s' → a.evictEvent s s' ∈ w → a.p.victimPage.va ≠ va :=
    fun _ hm => hw _ hm
  cases hs with
  | kill | grow => exact ⟨ha, nofun⟩
  | discard he _ | swapOut he _ _ _ _ _ =>
      have hv := hspared he (by simp)
      refine ⟨?_, by simp [Space.removeEvent, Space.evictEvent, Space.swapOutEvent, Event.NoInsert]⟩
      show ((a.unmap _).img va).isSome
      rw [Space.unmap_ne a hv.symm]
      exact ha
  | swapIn _ _ _ _ _ himg _ _ | load _ _ _ _ himg _ _ =>
      refine ⟨hmap _ _ _ ha, ?_⟩
      simpa [Space.faultEvent, Space.insertEvent, Event.NoInsert] using hnone himg ha
  | reject | lost => exact ⟨ha, by simp [Space.faultEvent, Event.NoInsert]⟩
  | minor => exact ⟨hmap _ _ _ ha, nofun⟩
  | dirty => exact ⟨hmap _ _ _ ha, by simp [Event.NoInsert]⟩

section
variable {root : Frame} {role : Frame → Role} {st st' : St} {w : List Event} {acc : Access}
  {va : Nat}

/-- Two facts about one run. -/
theorem Runs.and {α : Type} {x : PProg α} {Q R : α → St → List Event → Prop}
    (h : Runs root role st x Q) (h' : Runs root role st x R) :
    Runs root role st x fun a st' w => Q a st' w ∧ R a st' w :=
  (ends.and h h').mono (fun _ _ _ hq hw => ⟨hq.1 hw, hq.2 hw⟩) (fun _ _ hq => hq.1)
    fun _ _ hq => hq.1

/-- A store to a page that is mapped without `PTE_W`. -/
def MinorAt (root : Frame) (acc : Access) (va : Nat) (st : St) : Prop :=
  acc = .store ∧ (leaf st.sys.mem root va).v = true ∧ (leaf st.sys.mem root va).perm.w = false

/-- **What a trap that returns has done**: it has set `PTE_W`, or mapped
the page. -/
def Progress (root : Frame) (acc : Access) (va : Nat) (st : St) (w : List Event) (st' : St) : Prop :=
  (MinorAt root acc va st ∧ (leaf st'.sys.mem root va).v = true ∧
      (leaf st'.sys.mem root va).perm.w = true) ∨
    (¬ MinorAt root acc va st ∧ FaultedFrom st (pgrounddown va) w st')

theorem runs_pageFault_progress (h : Own root role st) (hva : va < maxva) :
    Runs root role st (pageFault acc va) fun _ st' w =>
      st'.p.killed = true ∨ Progress root acc va st w st' := by
  have hlt : pgrounddown va < maxva := (pgrounddown_le va).trans_lt hva
  unfold pageFault setkilled
  refine .get ?_
  unfold Runs
  rw [ends_bind]
  refine ends_onSys_look (quiet_minorFault _ _ _) ((wp_minorFault hva).mpr ⟨rfl, rfl⟩) ?_
  rw [h.root_eq]
  simp only [List.nil_append]
  split
  · rename_i pt i pte hminor
    unfold minorOf at hminor
    obtain ⟨⟨pt', i'⟩, haddr, hminor⟩ := Option.bind_eq_some_iff.mp hminor
    split at hminor
    · rename_i hcond
      simp only [Option.some.injEq, Prod.mk.injEq] at hminor
      obtain ⟨rfl, rfl, rfl⟩ := hminor
      obtain ⟨hstore, hv, hnw⟩ := hcond
      split
      · -- the entry is written, and the dirty flag touches the process only
        have hat : MinorAt root acc va st := ⟨hstore, hv, by simpa using hnw⟩
        rw [← leafAddr_pgrounddown] at haddr
        have hw := (h.wf.tableOk h.inv).writes (pgrounddown_aligned va) hlt haddr
          { leaf st.sys.mem root va with perm := { (leaf st.sys.mem root va).perm with w := true } }
        have hleaf := hw.leaf _ (pgrounddown_aligned va) hlt
        rw [if_pos rfl, leaf_pgrounddown] at hleaf
        unfold writePte setDirty
        rw [ends_bind, ends_onSys_modify, ends_bind, ends_get]
        dsimp only
        have hdone : ∀ p : Proc, Progress root acc va st [] ⟨_, p⟩ := fun p =>
          .inl ⟨hat, by rw [hleaf]; exact hv, by rw [hleaf]⟩
        split
        · exact ends_pure.mpr fun _ => .inr (hdone _)
        · simp only [ends_bind, ends_modifyProc, ends_tell, List.nil_append]
          intro _
          refine .inr (.inl ⟨hat, ?_, ?_⟩)
          · rw [hleaf]
            exact hv
          · rw [hleaf]
      · exact ends_modifyProc.mpr fun _ => .inl rfl
    · cases hminor
  · rename_i hminor
    have hnot : ¬ MinorAt root acc va st := by
      rintro ⟨hstore, hv, hnw⟩
      obtain ⟨x, hx⟩ := Option.isSome_iff_exists.mp (leafAddr_of_valid hv)
      simp [minorOf, hx, hstore, hv, hnw] at hminor
    refine (runs_handlePgfault_from h va).bind fun r st₁ w hr => ?_
    obtain ⟨⟨role₁, hown₁, hk₁, hm₁⟩, hr, hin⟩ := hr
    refine ⟨role₁, hk₁, .moves hm₁, ?_⟩
    unfold Runs
    split
    · exact ends_modifyProc.mpr fun _ => .inl rfl
    · rename_i hnn
      refine ends_pure.mpr fun _ => .inr (.inr ⟨hnot, ?_⟩)
      rw [List.append_nil]
      exact hin (by omega)

/-- **`usertrap` on a page fault**, with what it has done when it
returns. -/
theorem runs_usertrapFault_progress (h : Own root role st) :
    Runs root role st (usertrapFault acc va) fun _ st' w =>
      Paged root role st w st' ∧ Progress root acc va st w st' := by
  unfold usertrapFault
  split
  · exact h.runs_kexit _
  · rename_i hmax
    refine ((runs_pageFault h acc (not_le.mp hmax)).and
      (runs_pageFault_progress h (not_le.mp hmax))).bind fun _ st₁ w hq => ?_
    obtain ⟨⟨⟨role₁, hown₁, hk₁, hm₁⟩, -⟩, hdone⟩ := hq
    refine ⟨role₁, hk₁, .moves hm₁, .get ?_⟩
    split
    · exact hown₁.runs_kexit _
    · rename_i hnot
      refine .pure ?_
      rw [List.append_nil]
      exact ⟨⟨role₁, hown₁, hk₁, hm₁⟩, hdone.resolve_left hnot⟩

/-- After a trap that returns, the page is mapped. -/
theorem Progress.mapped (h : Progress root acc va st w st') {role' : Frame → Role}
    (hown : Own root role' st') : (leaf st'.sys.mem root va).v = true := by
  rcases h with ⟨-, hv, -⟩ | ⟨-, -, x, -, -, -, hx, -⟩
  · exact hv
  · exact (hown.leaf_of_img hx).2.1

/-- **On a mapped page only the write trap returns.** -/
theorem Progress.minor (h : Progress root acc va st w st') (hown : Own root role st)
    (hm : Space.Moves st.space w st'.space) (hw : ∀ e ∈ w, e.Spares (pgrounddown va))
    (hv : (leaf st.sys.mem root va).v = true) :
    MinorAt root acc va st ∧ (leaf st'.sys.mem root va).perm.w = true := by
  rcases h with ⟨hat, -, hw'⟩ | ⟨-, a, x, w₁, hw₁, -, hx, -⟩
  · exact ⟨hat, hw'⟩
  · -- the handler would have mapped the page a second time
    exfalso
    have huser : UserVa (pgrounddown va) := (imgOf_eq_some.mp hx).1
    have himg : (st.space.img (pgrounddown va)).isSome := by
      rw [space_img hown.root_eq, imgOf_user huser, pageAt, leaf_pgrounddown, if_pos hv]
      rfl
    have hins := (hm.stays_mapped hw himg).2
      (a.insertEvent (pgrounddown va) (a.p.takeSwapped (pgrounddown va)).1.isSome)
      (by rw [hw₁]; simp)
    exact hins rfl

/-! ## Retries -/

/-- **The access is settled within `n` faults**, where evictions take
another page: it gets through or the process is gone. A trap that runs
into a panic does not come back at all; want of a frame is a reason for
that only if an eviction did not yield one. -/
def Settles (acc : Access) (va : Nat) (b : UInt8) (n : Nat) (st : St) : Prop :=
  ends (userAccess acc va b n)
    (fun r _ w => (∀ e ∈ w, e.Spares (pgrounddown va)) → ∃ c, r = some c)
    (fun st' w => (∀ e ∈ w, e.Spares (pgrounddown va)) → st'.p.state = .zombie)
    (fun m w => (∀ e ∈ w, e.Spares (pgrounddown va)) → m = "kalloc failed after eviction" →
      Starved w) st

theorem PagedExit.zombie (h : PagedExit root role st w st') : st'.p.state = .zombie := by
  obtain ⟨role', a, a', w₁, w₂, status, -, -, -, -, -, hsp⟩ := h
  have hp := congrArg Space.p hsp
  show st'.space.p.state = _
  rw [hp]
  rfl

/-- One try: it gets through, or what comes after its trap settles it. -/
theorem Own.settles_succ (h : Own root role st) {b : UInt8} {n : Nat}
    (hnext : ∀ role' st' w, Own root role' st' → Space.Moves st.space w st'.space →
      (∀ e ∈ w, e.Spares (pgrounddown va)) → Progress root acc va st w st' →
      Settles acc va b n st') : Settles acc va b (n + 1) st := by
  unfold Settles
  rw [userAccess, ends_bind, ends_get]
  dsimp only
  simp only [List.nil_append]
  rw [h.root_eq]
  split
  · rename_i hc
    exact (h.ends_access b hc.1 hc.2).mono
      (fun r _ _ hq _ => Option.isSome_iff_exists.mp hq.2) (fun _ _ => False.elim)
      fun _ _ => False.elim
  · rw [ends_bind]
    refine ends.mono (runs_usertrapFault_progress h) (fun _ st₁ w hq => ?_)
      (fun st₁ w hq hw => (hq fun e he => (hw e he).nonempty).zombie) fun m w hq hw hm => ?_
    · by_cases hw : ∀ e ∈ w, e.Spares (pgrounddown va)
      · obtain ⟨⟨role₁, hown₁, -, hm₁⟩, hprog⟩ := hq fun e he => (hw e he).nonempty
        exact (hnext role₁ st₁ w hown₁ hm₁ hw hprog).mono
          (fun _ _ _ hr hw' => hr fun e he => hw' e (List.mem_append_right _ he))
          (fun _ _ hr hw' => hr fun e he => hw' e (List.mem_append_right _ he))
          fun _ _ hr hw' hm => (hr (fun e he => hw' e (List.mem_append_right _ he)) hm).append _
      · have hno : ∀ {w'}, ¬ ∀ e ∈ w ++ w', e.Spares (pgrounddown va) := fun hall =>
          hw fun e he => hall e (List.mem_append_left _ he)
        exact ends_of_forall (fun _ _ _ h => absurd h hno) (fun _ _ h => absurd h hno)
          fun _ _ h => absurd h hno
    · obtain ⟨-, -, -, -, -, -, hstarved⟩ := hq fun e he => (hw e he).nonempty
      exact hstarved hm

end

end OsSuite.Xv6
