import OsSuite.Xv6.Tables

/-!
# Steps — what a step can do to the process table

One specification for each function of `proc.c` that touches more than
one process, and from them `kstep_shape`: the few forms a step of the
kernel can take. Memory is not looked at; `T` is whatever relation the
code of one process keeps (`Tables`).
-/

namespace OsSuite.Xv6

/-! ## The state of a process -/

/-- A process that returns from a call is in the state it was in; one
that exits is a zombie. -/
def staysLive : Link St Event where
  ret st w st' := (∀ e ∈ w, e.Nonempty) → st'.p.state = st.p.state
  exit _ w st' := (∀ e ∈ w, e.Nonempty) → st'.p.state = .zombie
  panic _ _ _ := True

theorem staysLive_tables : TableRel staysLive where
  composes :=
    { refl := fun _ _ => rfl
      trans := fun h h' hw => (h' fun e he => hw e (List.mem_append_right _ he)).trans
        (h fun e he => hw e (List.mem_append_left _ he))
      exit := fun _ h' hw => h' fun e he => hw e (List.mem_append_right _ he)
      panic := fun _ _ => trivial }
  same _ h _ := h.state
  emptyRet h hw := absurd hw h
  emptyExit h hw := absurd hw h
  emptyPanic _ := trivial
  stop _ _ := trivial
  exited _ _ _ := rfl
  observe _ _ _ _ := rfl
  evict _ _ := rfl
  swapOut _ _ _ _ _ _ _ _ := rfl
  swapFull _ _ := ⟨fun _ => rfl, fun _ => trivial⟩
  swapPanic _ _ _ _ := trivial
  swapFail _ _ _ _ _ _ _ _ := ⟨fun _ => rfl, fun _ => trivial⟩
  remove _ _ _ := rfl
  take st va _ := by
    show (st.p.takeSwapped va).2.state = st.p.state
    unfold Proc.takeSwapped
    split <;> rfl
  insert _ _ _ _ _ _ := rfl
  insertNeg _ _ _ _ _ h _ _ _ := h
  mark _ _ _ _ _ := rfl
  create _ _ _ _ _ _ := rfl
  commit _ _ := rfl
  env _ _ _ := rfl

/-! ## Slots -/

/-- What `freeproc` makes of a slot. -/
def Proc.freed (p : Proc) : Proc :=
  { p with
    trapframe := 0, pagetable := 0, sz := 0, pid := 0, parent := none, killed := false,
    xstate := 0, state := .unused }

/-- The same kernel with another machine state. -/
def Kern.withSys (k : Kern) (s : Sys) : Kern := { k with sys := s }

def Kern.setProc (k : Kern) (j : Nat) (p : Proc) : Kern :=
  { k with proc := Function.update k.proc j p }

/-- `nextpid++` -/
def Kern.bump (k : Kern) : Kern := { k with nextpid := k.nextpid + 1 }

section
variable {α : Type} {Q : α → Kern → List Event → Prop} {E : Kern → List Event → Prop}
  {P : String → List Event → Prop} {k : Kern}

theorem ends_onSysK {x : Prog Sys Event α} (hx : Respects quiet x)
    (h : ∀ a s', SameConf k.sys s' → Q a (k.withSys s') []) (hP : ∀ m, P m []) :
    ends (onSysK x) Q E P k := by
  unfold onSysK
  rw [ends_zoom]
  refine (hx k.sys).mono (fun a s' w hq => ?_) (fun _ _ hf => hf.elim) fun m w hw => ?_
  · rw [hq.1]
    exact h a s' hq.2
  · rw [show w = [] from hw]
    exact hP m

@[simp] theorem ends_modifyAt {j : Nat} {f : Proc → Proc} {Q : Unit → Kern → List Event → Prop} :
    ends (modifyAt j f) Q E P k ↔ Q () (k.setProc j (f (k.proc j))) [] := by
  unfold modifyAt
  rw [ends_modify]
  rfl

theorem quiet_freeTrapframe (f : Frame) : Respects quiet (freeTrapframe f) :=
  .ite (quiet_kfree f) (quiet_pure _)

theorem quiet_freePagetable (root : Frame) (sz : Nat) : Respects quiet (freePagetable root sz) :=
  .ite (quiet_procFreepagetable root sz) (quiet_pure _)

theorem ends_freeproc {j : Nat} {Q : Unit → Kern → List Event → Prop}
    (h : ∀ s', SameConf k.sys s' → Q () ((k.withSys s').setProc j (k.proc j).freed) [])
    (hP : ∀ m, P m []) : ends (freeproc j) Q E P k := by
  unfold freeproc
  simp only [ends_bind, ends_get, List.nil_append, ends_modifyAt]
  refine ends_onSysK (quiet_freeTrapframe _) (fun _ s' hc => ?_) hP
  refine ends_onSysK (quiet_freePagetable _ _) (fun _ s'' hc' => ?_) hP
  have hk := h s'' (hc.trans hc')
  simpa [Kern.setProc, Kern.withSys, Proc.freed] using hk

/-- A slot that `allocproc` has just taken. -/
def Proc.fresh (p : Proc) (pid : Nat) (tf root : Frame) : Proc :=
  { p.reset pid with trapframe := tf, pagetable := root }

theorem ends_allocproc {Q : Option Nat → Kern → List Event → Prop}
    (hfull : Q none k [])
    (hfail : ∀ j s', j < nproc → (k.proc j).state = .unused → SameConf k.sys s' →
      Q none ((k.bump.withSys s').setProc j ((k.proc j).reset k.nextpid).freed) [.alloc j])
    (hok : ∀ j s' tf root, j < nproc → (k.proc j).state = .unused → SameConf k.sys s' →
      Q (some j) ((k.bump.withSys s').setProc j ((k.proc j).fresh k.nextpid tf root)) [.alloc j])
    (hP : ∀ j m, (k.proc j).state = .unused → P m [.alloc j]) :
    ends allocproc Q E P k := by
  unfold allocproc
  rw [ends_bind, ends_get]
  cases hj : Table.firstIdx (fun p => p.state == .unused) k.proc nproc with
  | none => exact ends_pure.mpr hfull
  | some j =>
      obtain ⟨hlt, hst, -⟩ := Table.firstIdx_some hj
      have hunused : (k.proc j).state = .unused := by simpa using hst
      simp only [ends_bind, ends_modify, ends_tell, List.nil_append]
      refine ends_onSysK quiet_kalloc (fun tf s' hc => ?_) (hP j · hunused)
      cases tf with
      | none =>
          simp only [ends_bind, ends_modifyAt, ends_pure, List.nil_append, List.append_nil]
          refine ends_freeproc (fun s'' hc' => ?_) (hP j · hunused)
          have hk := hfail j s'' hlt hunused (hc.trans hc')
          simpa [Kern.setProc, Kern.withSys, Kern.bump, Proc.freed] using hk
      | some tf =>
          simp only [ends_bind, ends_modifyAt, List.nil_append]
          refine ends_onSysK (quiet_procPagetable _) (fun r s'' hc' => ?_) (hP j · hunused)
          cases r with
          | none =>
              simp only [ends_bind, ends_modifyAt, ends_pure, List.nil_append, List.append_nil]
              refine ends_freeproc (fun s₃ hc₃ => ?_) (hP j · hunused)
              have hk := hfail j s₃ hlt hunused ((hc.trans hc').trans hc₃)
              simpa [Kern.setProc, Kern.withSys, Kern.bump, Proc.freed] using hk
          | some root =>
              simp only [ends_bind, ends_modifyAt, ends_pure, List.nil_append, List.append_nil]
              have hk := hok j s'' tf root hlt hunused (hc.trans hc')
              simpa [Kern.setProc, Kern.withSys, Kern.bump, Proc.fresh] using hk

end

/-! ## Steps -/

/-- The machine as slot `i` sees it. -/
def Kern.at (k : Kern) (i : Nat) : St := ⟨k.sys, k.proc i⟩

/-- Slot `i` and the machine after some code of the slot. -/
def Kern.put (k : Kern) (i : Nat) (st : St) : Kern := (k.withSys st.sys).setProc i st.p

@[simp] theorem Kern.put_self (k : Kern) (i : Nat) (st : St) : (k.put i st).proc i = st.p :=
  Function.update_self ..

theorem Kern.put_ne (k : Kern) {i j : Nat} (h : j ≠ i) (st : St) :
    (k.put i st).proc j = k.proc j :=
  Function.update_of_ne h ..

@[simp] theorem Kern.setProc_self (k : Kern) (i : Nat) (p : Proc) : (k.setProc i p).proc i = p :=
  Function.update_self ..

theorem Kern.setProc_ne (k : Kern) {i j : Nat} (h : j ≠ i) (p : Proc) :
    (k.setProc i p).proc j = k.proc j :=
  Function.update_of_ne h ..

@[simp] theorem Kern.put_at (k : Kern) (i : Nat) : k.put i (k.at i) = k := by
  simp [Kern.put, Kern.at, Kern.withSys, Kern.setProc]

theorem ends_onProc {α : Type} {x : PProg α} {i : Nat} {k : Kern}
    {Q : α → Kern → List Event → Prop} {E : Kern → List Event → Prop} {P : String → List Event → Prop} :
    ends (onProc i x) Q E P k ↔
      ends x (fun a st w => Q a (k.put i st) w) (fun st w => E (k.put i st) w) P (k.at i) := by
  unfold onProc
  rw [ends_zoom]
  rfl

/-- `reparent` only changes parents. -/
theorem reparent_proc (i : Nat) (k : Kern) (j : Nat) :
    ∃ par, (reparent i k).proc j = { k.proc j with parent := par } := by
  unfold reparent
  dsimp only
  split
  · exact ⟨_, rfl⟩
  · exact ⟨(k.proc j).parent, rfl⟩

/-- **The forms of a step** of slot `i`. -/
inductive KShape (T : Link St Event) (k : Kern) (i : Nat) : List Event → Kern → Prop where
  /-- Code of the process itself. -/
  | own {w : List Event} {st : St} : T.ret (k.at i) w st → st.p.state = (k.proc i).state →
      KShape T k i w (k.put i st)
  | exit {w : List Event} {st : St} : T.exit (k.at i) w st → st.p.state = .zombie →
      KShape T k i w (reparent i (k.put i st))
  /-- A fork that failed after it had taken a slot. -/
  | forkFail {j : Nat} {s : Sys} : (k.proc j).state = .unused → SameConf k.sys s →
      KShape T k i [.alloc j] ((k.bump.withSys s).setProc j ((k.proc j).reset k.nextpid).freed)
  | fork {j : Nat} {s : Sys} {tf root : Frame} : (k.proc j).state = .unused →
      SameConf k.sys s → KShape T k i [.alloc j, .forked j]
        ((k.bump.withSys s).setProc j
          (((k.proc j).fresh k.nextpid tf root).forkFrom (k.proc i) i))
  /-- A zombie child is freed, after the code that delivers its status. -/
  | reap {w : List Event} {st : St} {j : Nat} {s : Sys} : T.ret (k.at i) w st →
      st.p.state = (k.proc i).state → (k.proc j).state = .zombie → SameConf st.sys s →
      KShape T k i w (((k.put i st).withSys s).setProc j (k.proc j).freed)

/-- What was observed before a panic. -/
def KPanic (T : Link St Event) (k : Kern) (i : Nat) (m : String) (w : List Event) : Prop :=
  T.panic (k.at i) m w ∨ ∃ j, (k.proc j).state = .unused ∧ w = [.alloc j]

section
variable {T : Link St Event} {k : Kern} {i : Nat}

/-- Code of slot `i` alone. -/
theorem shape_onProc {α : Type} {x : PProg α} (hx : Respects T x) (hs : Respects staysLive x) :
    ends (onProc i x)
      (fun _ k' w => (∀ e ∈ w, e.Nonempty) → KShape T k i w k')
      (fun k' w => (∀ e ∈ w, e.Nonempty) → KShape T k i w (reparent i k')) (KPanic T k i) k := by
  rw [ends_onProc]
  exact ((hx _).and (hs _)).mono (fun _ _ _ h hw => .own h.1 (h.2 hw))
    (fun _ _ h hw => .exit h.1 (h.2 hw)) fun _ _ h => .inl h.1

theorem shape_kfork (hT : TableCore T) (hi : (k.proc i).state = .runnable) :
    ends (kfork i)
      (fun _ k' w => (∀ e ∈ w, e.Nonempty) → KShape T k i w k')
      (fun k' w => (∀ e ∈ w, e.Nonempty) → KShape T k i w (reparent i k')) (KPanic T k i) k := by
  unfold kfork
  rw [ends_bind]
  refine ends_allocproc ?_ ?_ ?_ fun j _ hj => .inr ⟨j, hj, rfl⟩
  · refine ends_pure.mpr fun _ => ?_
    have h := KShape.own (T := T) (k := k) (i := i) (hT.composes.refl (k.at i)) rfl
    rwa [Kern.put_at] at h
  · exact fun j s' _ hj hc => ends_pure.mpr fun _ => .forkFail hj hc
  · intro j s' tf root _ hj hc
    have hij : i ≠ j := by
      rintro rfl
      rw [hi] at hj
      cases hj
    simp only [ends_bind, ends_get, List.nil_append]
    refine ends_onSysK (quiet_uvmcopy _ _ _) (fun r s'' hc' => ?_) fun _ => (.inr ⟨j, hj, rfl⟩)
    split
    · rw [ends_bind]
      refine ends_freeproc (fun s₃ hc₃ => ends_pure.mpr fun _ => ?_) fun _ => (.inr ⟨j, hj, rfl⟩)
      have h := KShape.forkFail (T := T) (i := i) hj ((hc.trans hc').trans hc₃)
      simpa [Kern.setProc, Kern.withSys, Kern.bump, Proc.freed, Proc.fresh] using h
    · simp only [ends_bind, ends_modifyAt, ends_tell, ends_pure, List.nil_append, List.append_nil]
      intro _
      have h := @KShape.fork T k i j s'' tf root hj (hc.trans hc')
      simpa [Kern.setProc, Kern.withSys, Kern.bump, hij, Function.update_of_ne] using h

theorem shape_kwait (hT : TableCore T) (hi : (k.proc i).state = .runnable) (addr : Nat) :
    ends (kwait i addr)
      (fun _ k' w => (∀ e ∈ w, e.Nonempty) → KShape T k i w k')
      (fun k' w => (∀ e ∈ w, e.Nonempty) → KShape T k i w (reparent i k')) (KPanic T k i) k := by
  have hrefl : KShape T k i [] k := by
    have h := KShape.own (T := T) (k := k) (i := i) (hT.composes.refl (k.at i)) rfl
    rwa [Kern.put_at] at h
  unfold kwait
  rw [ends_bind, ends_get]
  dsimp only
  split
  · rename_i j hj
    obtain ⟨-, hj, -⟩ := Table.firstIdx_some hj
    have hz : (k.proc j).state = .zombie := by
      simp only [Bool.and_eq_true, beq_iff_eq] at hj
      exact hj.2
    have hij : j ≠ i := by
      rintro rfl
      rw [hi] at hz
      cases hz
    split
    · simp only [ends_bind, ends_onProc, List.nil_append]
      refine ((tables_copyout hT _ _ _ _).and (tables_copyout staysLive_tables.toTableCore _ _ _ _)).mono
        (fun r st w h => ?_) (fun st w h hw => .exit h.1 (h.2 hw)) fun _ w h => .inl h.1
      split
      · rw [ends_bind]
        refine ends_freeproc (fun s' hc => ?_) ?_
        · simp only [ends_pure, List.append_nil]
          intro hw
          have hsh := KShape.reap h.1 (h.2 hw) hz hc
          rwa [show (k.put i st).proc j = k.proc j from Function.update_of_ne hij _ _]
        · rw [List.append_nil]
          exact fun m => .inl (by simpa using hT.composes.panic h.1 (hT.stop st m))
      · simp only [ends_pure, List.append_nil]
        exact fun hw => .own h.1 (h.2 hw)
    · simp only [ends_bind, List.nil_append]
      refine ends_freeproc (fun s' hc => ?_) fun m => .inl (hT.stop _ m)
      simp only [ends_pure, List.append_nil]
      intro _
      have hsh := KShape.reap (hT.composes.refl (k.at i)) rfl hz hc
      rwa [Kern.put_at] at hsh
  · split
    · exact ends_pure.mpr fun _ => hrefl
    · exact ends_pure.mpr fun _ => hrefl

/-- **What a step of the kernel can do**, given what the code of one
process does. -/
theorem kstep_shape_core (hT : TableCore T) (hi : (k.proc i).state = .runnable) {op : Op}
    (hop : Respects T (localStep op)) :
    ends (kstep i op)
      (fun _ k' w => (∀ e ∈ w, e.Nonempty) → KShape T k i w k')
      (fun k' w => (∀ e ∈ w, e.Nonempty) → KShape T k i w (reparent i k')) (KPanic T k i) k := by
  have hexit := shape_onProc (k := k) (i := i) (tables_kexit hT (α := Res) (-1))
    (tables_kexit staysLive_tables.toTableCore (-1))
  unfold kstep
  split
  · rw [ends_bind, ends_get]
    split
    · exact hexit
    · rw [ends_bind]
      exact (shape_kfork hT hi).mono (fun _ _ _ h => by simpa using h) (fun _ _ h => h)
        fun _ _ h => h
  · rw [ends_bind, ends_get]
    split
    · exact hexit
    · rw [ends_bind]
      refine (shape_kwait hT hi _).mono (fun r _ _ h => ?_) (fun _ _ h => h) fun _ _ h => h
      split <;> simpa using h
  · exact shape_onProc hop (tables_localStep staysLive_tables _)

theorem kstep_shape (hT : TableRel T) (hi : (k.proc i).state = .runnable) (op : Op) :
    ends (kstep i op)
      (fun _ k' w => (∀ e ∈ w, e.Nonempty) → KShape T k i w k')
      (fun k' w => (∀ e ∈ w, e.Nonempty) → KShape T k i w (reparent i k')) (KPanic T k i) k :=
  kstep_shape_core hT.toTableCore hi (tables_localStep hT op)

theorem KStep.shape (hT : TableRel T) {op : Op} {w : List Event} {k' : Kern}
    (h : KStep k i op w k') (hw : ∀ e ∈ w, e.Nonempty) : KShape T k i w k' := by
  cases h with
  | ret hi hx => exact (kstep_shape hT hi op).of_ret hx hw
  | exit hi hx => exact (kstep_shape hT hi op).of_exit hx hw

end

/-- The first process. -/
def Proc.booted (p : Proc) (pid : Nat) (tf root : Frame) : Proc :=
  { p.fresh pid tf root with isInit := true, state := .runnable }

/-- **What `userinit` leaves behind.** -/
theorem userinit_shape (k : Kern) :
    ends userinit (fun _ k' w => ∃ j s tf root, SameConf k.sys s ∧ w = [.alloc j] ∧
      k' = (k.bump.withSys s).setProc j ((k.proc j).booted k.nextpid tf root))
      (fun _ _ => False) (fun _ _ => True) k := by
  unfold userinit
  rw [ends_bind]
  refine ends_allocproc ?_ ?_ ?_ fun _ _ _ => trivial
  · exact ends_panic.mpr trivial
  · exact fun _ _ _ _ _ => ends_panic.mpr trivial
  · intro j s' tf root _ hj hc
    refine ends_modifyAt.mpr ⟨j, s', tf, root, hc, rfl, ?_⟩
    simp [Kern.setProc, Kern.withSys, Proc.booted]

theorem Booted.shape {k : Kern} (h : Booted k) :
    ∃ k₀ j s tf root, Fresh k₀ ∧ SameConf k₀.sys s ∧
      k = (k₀.bump.withSys s).setProc j (Proc.zero.booted 1 tf root) := by
  obtain ⟨k₀, w, hf, hx⟩ := h
  obtain ⟨j, s, tf, root, hc, -, hk⟩ := (userinit_shape k₀).of_ret hx
  rw [hf.proc j, hf.nextpid] at hk
  exact ⟨k₀, j, s, tf, root, hf, hc, hk⟩

end OsSuite.Xv6
