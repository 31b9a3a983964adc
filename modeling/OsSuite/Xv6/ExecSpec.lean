import OsSuite.Xv6.Args
import OsSuite.Xv6.Quiet

/-!
# ExecSpec — what `kexec` does

Two endings. Either the new table is given back (`GaveBack`), and the
record of the process is as the exit found it; or the process commits to
the new image (`Commits`): it has the new table, with a stack and
nothing else, and the old one was freed. `kexec_spec` puts this together
with how far the call comes: `Opens s ip` says that the header loop gets
through, and from then on the record is that of `Proc.opened`. The
owners of all frames are a parameter, so the specification serves a
caller that knows only the allocator's frames, and one that knows the
tables of all processes. `Fatal s ip` are the files with which the call
does not return.
-/

namespace OsSuite.Xv6

/-! ## The endings -/

/-- The frames of the new table went back to the allocator. -/
def GaveBack (role₀ : Frame → Role) (s₀ s' : Sys) : Prop :=
  ∃ role', SysInv role' s' ∧ SameConf s₀ s' ∧ Others (fun _ => False) role₀ role' s₀.mem s'.mem

/-- The record of a process that commits to the table at `root`. -/
def Proc.committed (p : Proc) (root : Frame) (sz entry sp : Nat) : Proc :=
  { p with
    numResident := 0, nextFifoSeq := 0, pagetable := root, sz := sz
    regs := { p.regs with epc := entry, sp := sp, a1 := sp } }

/-- **The commit.** `s₁` is the machine before the old table is freed. -/
def Commits (role₀ : Frame → Role) (s₀ : Sys) (p : Proc) (r : Int) (st' : St) : Prop :=
  ∃ root role₁ s₁ sz entry sp w, (role₀ root).idle = true ∧ NewImage root role₁ s₁ sz ∧
    PtStep root role₀ role₁ s₀ s₁ ∧ 0 ≤ r ∧ st'.p = p.committed root sz entry sp ∧
    procFreepagetable p.pagetable p.sz s₁ = .ret () st'.sys w

/-- A call that ends with the record `p`, or commits from there. -/
def ExecEnds (role₀ : Frame → Role) (s₀ : Sys) (p : Proc) (r : Int) (st' : St) : Prop :=
  (r = -1 ∧ st'.p = p ∧ GaveBack role₀ s₀ st'.sys) ∨ Commits role₀ s₀ p r st'

/-- The entries of a table as `proc_pagetable` makes it. -/
def topPte (tf tramp : Frame) (b : Nat) : Pte :=
  if b = trapframeVa then trapframePte tf else if b = trampolineVa then trampPte tramp else Pte.zero

/-- **The stack of the new program**: the strings `argv` at `ptrs`, and
below them, at `sp`, the pointers and a 0. -/
structure Pushed (m : Mem) (root : Frame) (sz : Nat) (argv : List (List UInt8)) (ptrs : List Nat)
    (sp : Nat) : Prop where
  strings : StringsAt m root sz argv ptrs
  le : argSp sz argv ≤ sz
  sp_eq : sp = pushDown (argSp sz argv) ((ptrs.length + 1) * 8)
  room : sp + (ptrs.length + 1) * 8 ≤ argSp sz argv
  base : sz - 20480 ≤ sp
  vector : BytesAt m root sp ((ptrs ++ [0]).flatMap bytes64)

/-- The commit, with the stack and the two top pages of the new image. -/
def CommitsArgs (argv : List (List UInt8)) (role₀ : Frame → Role) (s₀ : Sys) (p : Proc) (r : Int)
    (st' : St) : Prop :=
  ∃ root role₁ s₁ sz entry sp w ptrs, (role₀ root).idle = true ∧ NewImage root role₁ s₁ sz ∧
    PtStep root role₀ role₁ s₀ s₁ ∧ r = ptrs.length ∧ st'.p = p.committed root sz entry sp ∧
    procFreepagetable p.pagetable p.sz s₁ = .ret () st'.sys w ∧
    Pushed s₁.mem root sz argv ptrs sp ∧
    ∀ b, b % 4096 = 0 → trapframeVa ≤ b → b < maxva →
      leaf s₁.mem root b = topPte p.trapframe s₀.tramp b

/-- The old table cannot be freed. -/
def CommitPanics (role₀ : Frame → Role) (s₀ : Sys) (p : Proc) : Prop :=
  ∃ root role₁ s₁ sz m w, (role₀ root).idle = true ∧ NewImage root role₁ s₁ sz ∧
    PtStep root role₀ role₁ s₀ s₁ ∧ procFreepagetable p.pagetable p.sz s₁ = .panic m w

/-- `ExecEnds`, with what the new program finds. -/
def ExecDone (argv : List (List UInt8)) (role₀ : Frame → Role) (s₀ : Sys) (p : Proc) (r : Int)
    (st' : St) : Prop :=
  ExecEnds role₀ s₀ p r st' ∧ (r = -1 ∨ CommitsArgs argv role₀ s₀ p r st')

theorem ExecDone.bad {argv : List (List UInt8)} {role₀ : Frame → Role} {s₀ : Sys} {p : Proc}
    {r : Int} {st' : St} (h : r = -1 ∧ st'.p = p ∧ GaveBack role₀ s₀ st'.sys) :
    ExecDone argv role₀ s₀ p r st' := ⟨.inl h, .inl h.1⟩

theorem ExecDone.commit {argv : List (List UInt8)} {role₀ : Frame → Role} {s₀ : Sys} {p : Proc}
    {r : Int} {st' : St} (h : CommitsArgs argv role₀ s₀ p r st') :
    ExecDone argv role₀ s₀ p r st' := by
  refine ⟨.inr ?_, .inr h⟩
  obtain ⟨root, role₁, s₁, sz, entry, sp, w, ptrs, hidle, himg, hstep, hr, hp, hfree, -⟩ := h
  exact ⟨root, role₁, s₁, sz, entry, sp, w, hidle, himg, hstep, by omega, hp, hfree⟩

section
variable {A : Event → Prop} {s s₀ : Sys} {root : Frame} {role role₀ : Frame → Role} {st : St}
  {sz : Nat}

theorem SysInv.poolOk (h : SysInv role s) : PoolOk s := by
  have hpool : ∀ f ∈ s.pool, role f ≠ .kernel := by
    intro f hf
    rw [Sys.pool, List.mem_append, h.mem_free, h.mem_held] at hf
    rintro hk
    rcases hf with hf | hf <;> rw [hf] at hk <;> cases hk
  refine ⟨?_, fun f hf => h.valid f (hpool f hf), h.kend_le⟩
  rw [Sys.pool, List.nodup_append]
  refine ⟨h.free_nodup, h.held_nodup, ?_⟩
  rintro f hf _ hg rfl
  rw [h.mem_free] at hf
  rw [h.mem_held, hf] at hg
  cases hg

/-- Page-table code never ends the process. -/
theorem wp_quiet {α : Type} {x : Prog Sys Event α} {Q : α → Sys → Prop} {E : Sys → Prop}
    {P : String → Prop} (h : wp A x ⟨Q, E, P⟩ s) (hx : Respects quiet x) :
    wp A x ⟨fun a s' => Q a s' ∧ SameConf s s', fun _ => False, P⟩ s := by
  have hends := hx s
  unfold ends at hends
  unfold wp at h ⊢
  cases hr : x s with
  | ret a s' w =>
      rw [hr] at h hends
      exact fun hw => ⟨h hw, hends.2⟩
  | exit s' w =>
      rw [hr] at hends
      exact hends.elim
  | panic m w =>
      rw [hr] at h
      exact h

theorem SizeOk.pgroundup (h : SizeOk sz) :
    sz ≤ pgroundup sz ∧ pgroundup sz < 18446744073709551616 ∧ (pgroundup sz ≤ maxva ↔ sz ≤ maxva) := by
  unfold SizeOk maxva at h
  unfold Xv6.pgroundup u64 maxva
  omega

/-- **`bad:`** gives the new table back, unless `sz` lies beyond
`MAXVA`. -/
theorem execBad_spec (hstep : PtStep root role₀ role s₀ st.sys) (hidle : (role₀ root).idle = true)
    (hr : InRange st.sys.mem root sz) (hsz : SizeOk sz) :
    wp A (execBad root sz) ⟨fun r st' => (r = -1 ∧ st'.p = st.p ∧ GaveBack role₀ s₀ st'.sys) ∧
        sz ≤ maxva,
      fun _ => False, fun _ => maxva < sz⟩ st := by
  rw [execBad, wp_bind, onSys, wp_zoom]
  by_cases hmax : sz ≤ maxva
  · refine (procFreepagetable_spec hstep.inv hstep.wf (hsz.pgroundup.2.2.mpr hmax) hr).mono ?_
      (fun _ h => h) (fun _ h => h.elim)
    rintro _ s' ⟨role', hinv, hconf, hf⟩
    have hkept := hf.kept fun f hf => hstep.wf.pages_owned hf
    exact wp_pure.mpr ⟨⟨rfl, rfl, role', hinv, hstep.conf.trans hconf,
      .of_new (hstep.kept.trans hkept) hidle⟩, hmax⟩
  · have hbeyond : maxva < pgroundup sz := not_le.mp fun h => hmax (hsz.pgroundup.2.2.mp h)
    exact (wp_quiet (procFreepagetable_beyond hbeyond) (quiet_procFreepagetable _ _)).mono
      (fun _ _ h => h.1.elim) (fun _ h => h) fun _ _ => not_le.mp hmax

/-! ## From the stack on -/

theorem NoUser.inRange (h : NoUser s.mem root) : InRange s.mem root sz := by
  intro b hal hb hv
  rw [h b hal hb] at hv
  cases hv

/-- The table with a cleared guard page. -/
theorem NewImage.of_cleared {s₁ s₂ : Sys} (h : SysInv role s₂) (hw : PtWf role s₂.mem root)
    (hal : sz % 4096 = 0) (hle : sz + 24576 ≤ trapframeVa)
    (hz : ZeroMapped s₁.mem root sz (sz + 24576) Perm.urw)
    (hclear : ∀ b, b % 4096 = 0 → b < trapframeVa → pageAt s₂.mem root b
      = if b = sz then (pageAt s₁.mem root sz).map fun x => ({ x.1 with u := false }, x.2)
        else pageAt s₁.mem root b)
    (htop : ∀ b, b % 4096 = 0 → trapframeVa ≤ b → b < maxva →
      (leaf s₂.mem root b).v = true ∧ (leaf s₂.mem root b).perm.u = false) :
    NewImage root role s₂ (sz + 24576) := by
  have hpage : ∀ b, b % 4096 = 0 → b < trapframeVa → pageAt s₂.mem root b =
      if b = sz then some ({ Perm.urw with u := false }, fun _ => 0)
      else if sz ≤ b ∧ b < sz + 24576 then some (Perm.urw, fun _ => 0) else none := by
    intro b hbal hb
    rw [hclear b hbal hb]
    split
    · rename_i he
      rw [hz sz hal (he ▸ hb), if_pos ⟨Nat.le_refl sz, by omega⟩]
      rfl
    · exact hz b hbal hb
  refine ⟨h, hw, htop, by omega, by omega, hle, fun b hbal hb => ?_, ?_, fun b hbal h1 h2 => ?_⟩
  · have hp := hpage b hbal hb
    rw [Nat.add_sub_cancel]
    constructor
    · intro hv
      by_contra hc
      rw [if_neg (by omega), if_neg hc] at hp
      rw [pageAt_eq_none.mp hp] at hv
      cases hv
    · intro hc
      by_cases he : b = sz
      · rw [if_pos he] at hp
        exact (pageAt_eq_some.mp hp).1
      · rw [if_neg he, if_pos hc] at hp
        exact (pageAt_eq_some.mp hp).1
  · have hp := hpage sz hal (by omega)
    rw [if_pos rfl] at hp
    rw [Nat.add_sub_cancel]
    exact (pageAt_eq_some.mp hp).2.1
  · have hp := hpage b hbal (by omega)
    rw [if_neg (by omega), if_pos (by omega)] at hp
    exact (pageAt_eq_some.mp hp).2.1

theorem length_flatMap_bytes64 (l : List Nat) : (l.flatMap bytes64).length = l.length * 8 := by
  induction l with
  | nil => rfl
  | cons a l ih =>
      rw [List.flatMap_cons, List.length_append, ih, List.length_cons]
      simp only [bytes64, List.length_map, List.length_range]
      omega

/-- **The commit of `kexec`.** -/
theorem execCommit_spec {entry sp : Nat} {argv : List (List UInt8)} {ptrs : List Nat}
    (hstep : PtStep root role₀ role s₀ st.sys) (hidle : (role₀ root).idle = true)
    (h : NewImage root role st.sys sz) (hpush : Pushed st.sys.mem root sz argv ptrs sp)
    (htop : ∀ b, b % 4096 = 0 → trapframeVa ≤ b → b < maxva →
      leaf st.sys.mem root b = topPte st.p.trapframe s₀.tramp b) :
    wp A (execCommit root sz entry sp ptrs.length) ⟨ExecDone argv role₀ s₀ st.p,
      fun _ => False, fun _ => CommitPanics role₀ s₀ st.p⟩ st := by
  have hrun : wp A (procFreepagetable st.p.pagetable st.p.sz)
      ⟨fun a s' => ∃ w, procFreepagetable st.p.pagetable st.p.sz st.sys = .ret a s' w,
        fun _ => True, fun m => ∃ w, procFreepagetable st.p.pagetable st.p.sz st.sys = .panic m w⟩
      st.sys :=
    .of_run (fun _ _ w hx => ⟨w, hx⟩) (fun _ _ _ => trivial) fun _ w hx => ⟨w, hx⟩
  unfold execCommit
  rw [wp_get_bind]
  simp only [wp_bind, modifyProc, wp_modify, wp_tell, onSys, wp_zoom, wp_pure]
  refine fun _ => (wp_quiet hrun (quiet_procFreepagetable _ _)).mono ?_ (fun _ h => h) ?_
  · rintro _ s' ⟨⟨w, hx⟩, -⟩
    exact .commit ⟨root, role, st.sys, sz, entry, sp, w, ptrs, hidle, h, hstep, rfl, rfl, hx, hpush,
      htop⟩
  · rintro m ⟨w, hx⟩
    exact ⟨root, role, st.sys, sz, m, w, hidle, h, hstep, hx⟩

/-- **`kexec` from the arguments on.** -/
theorem pushed_spec {entry : Nat} {argv : List (List UInt8)}
    (hstep : PtStep root role₀ role s₀ st.sys) (hidle : (role₀ root).idle = true)
    (h : NewImage root role st.sys sz) (hargs : ∀ a ∈ argv, ArgOk a)
    (htop : ∀ b, b % 4096 = 0 → trapframeVa ≤ b → b < maxva →
      leaf st.sys.mem root b = topPte st.p.trapframe s₀.tramp b) :
    wp A (do
      let (ok, sp, ustack) ← pushArgs root (sz - 20480) argv sz []
      if !ok then execBad root sz
      else
        let sp := pushDown sp ((ustack.length + 1) * 8)
        if sp < sz - 20480 then execBad root sz
        else
          let r ← copyout root sp ((ustack ++ [0]).flatMap bytes64)
          if !r.1 then execBad root sz
          else execCommit root sz entry sp ustack.length)
      ⟨ExecDone argv role₀ s₀ st.p, fun _ => False, fun _ => CommitPanics role₀ s₀ st.p⟩ st := by
  have hszok : SizeOk sz := .inl (h.le.trans (by decide))
  have hbad : ∀ st₁ : St, st₁.p = st.p → NewImage root role st₁.sys sz →
      PtStep root role role st.sys st₁.sys →
      wp A (execBad root sz) ⟨ExecDone argv role₀ s₀ st.p,
        fun _ => False, fun _ => CommitPanics role₀ s₀ st.p⟩ st₁ := by
    intro st₁ hp himg hst
    rw [← hp]
    refine (execBad_spec (hstep.trans hst) hidle himg.inRange hszok).mono (fun _ _ h => .bad h.1)
      (fun _ h => h) fun _ hmax => ?_
    have htf : trapframeVa < maxva := by decide
    have hle := h.le
    omega
  rw [wp_bind]
  refine (pushArgs_stack h hargs (Nat.le_refl sz) (Nat.sub_le _ _) (by decide)).mono ?_
    (fun _ hf => hf) (fun _ hf => hf.elim)
  rintro ⟨ok, sp, ustack⟩ st₁ ⟨hp₁, himg₁, hstep₁, -, hleaf₁, hsp, hptrs⟩
  cases ok with
  | false => exact hbad st₁ hp₁ himg₁ hstep₁
  | true =>
      obtain ⟨rfl, hspsz, hlo⟩ := hsp rfl
      obtain ⟨hlen, _, rfl, hplaced⟩ := hptrs rfl
      dsimp only at hspsz hlo hlen ⊢
      rw [if_neg (by decide)]
      split
      · exact hbad st₁ hp₁ himg₁ hstep₁
      · rename_i hbase
        have hge := himg₁.ge
        have hdown := pushDown_le (show (ustack.length + 1) * 8 ≤ argSp sz argv by omega)
          (hspsz.trans himg₁.le)
        have hin : pushDown (argSp sz argv) ((ustack.length + 1) * 8) +
            ((ustack ++ [0]).flatMap bytes64).length ≤ argSp sz argv := by
          rw [length_flatMap_bytes64, List.length_append, List.length_singleton]
          exact hdown
        rw [wp_bind]
        refine (copyout_stack himg₁ (not_lt.mp hbase) (hin.trans hspsz)).mono ?_ (fun _ hf => hf)
          (fun _ hf => hf.elim)
        rintro r st₂ ⟨rfl, hp₂, himg₂, hstep₂, hpatch⟩
        have hpush : Pushed st₂.sys.mem root sz argv ustack
            (pushDown (argSp sz argv) ((ustack.length + 1) * 8)) :=
          ⟨hplaced.congr fun a h1 h2 => hpatch.same hin a (by omega) h1 h2, hspsz, rfl, hdown, not_lt.mp hbase,
            hpatch.bytesAt (not_lt.mp hbase) (hin.trans hspsz)⟩
        rw [← hp₁, ← hp₂] at htop ⊢
        refine execCommit_spec ((hstep.trans hstep₁).trans hstep₂) hidle himg₂ hpush
          fun b h1 h2 h3 => ?_
        rw [hpatch.leaf_eq, hleaf₁, htop b h1 h2 h3]

/-- From the stack on there is no way back if it would start beyond
`MAXVA`; in the last page, if there is a frame for it. -/
def StackPanics (s : Sys) (sz : Nat) : Prop :=
  maxva < sz ∨ (trampolineVa < sz ∧ s.grants 1 = true)

/-- **`kexec` from the stack on**: `heap_start` is written. -/
theorem execStack_spec {entry : Nat} {argv : List (List UInt8)}
    (hstep : PtStep root role₀ role s₀ st.sys) (hidle : (role₀ root).idle = true)
    (hno : NoUser st.sys.mem root) (hsz : SizeOk sz)
    (htop : ∀ b, b % 4096 = 0 → sz ≤ b → trapframeVa ≤ b → b < maxva →
      leaf st.sys.mem root b = topPte st.p.trapframe s₀.tramp b)
    (hargs : ∀ a ∈ argv, ArgOk a) :
    wp A (execStack root sz entry argv)
      ⟨fun r st' => ExecDone argv role₀ s₀ { st.p with heapStart := sz } r st' ∧
          ¬ StackPanics st.sys sz,
        fun _ => False, fun _ => StackPanics st.sys sz ∨
          CommitPanics role₀ s₀ { st.p with heapStart := sz }⟩ st := by
  have hal := pgroundup_aligned sz
  obtain ⟨hle, hlt, hmax⟩ := hsz.pgroundup
  have hlow : pgroundup sz < maxva ↔ sz ≤ trampolineVa := by
    unfold SizeOk maxva at hsz
    unfold pgroundup u64 maxva trampolineVa
    omega
  have hzero : ZeroMapped st.sys.mem root (pgroundup sz) (pgroundup sz) Perm.urw := by
    intro b hbal hb
    rw [if_neg (by omega)]
    exact pageAt_eq_none.mpr (hno b hbal hb)
  unfold execStack
  simp only [wp_bind, modifyProc, wp_modify]
  generalize pgroundup sz = sz₁ at hal hle hlt hmax hlow hzero
  have hsz₁ : SizeOk sz₁ := .inr ⟨hal, hlt⟩
  simp only [onSys, wp_zoom]
  have halloc := uvmalloc_stack_spec (A := A) hstep.inv hstep.wf hal hlt hzero
    fun b h1 h2 h3 h4 => by
      rw [htop b h1 (hle.trans h2) h3 h4]
      exact (top_leaf h1 h3 h4).1
  have hempty : ∀ {s₁ : Sys}, ZeroMapped s₁.mem root sz₁ sz₁ Perm.urw → NoUser s₁.mem root := by
    intro s₁ hz b hbal hb
    have := hz b hbal hb
    rw [if_neg (by omega)] at this
    exact pageAt_eq_none.mp this
  by_cases hroom : sz₁ < maxva
  · -- the two top pages stop the stack
    have hfine : ¬ StackPanics st.sys sz := by
      have htr : trampolineVa < maxva := by decide
      have hlow := hlow.mp hroom
      rintro (h | h) <;> omega
    refine halloc.mono ?_ (fun _ hf => hf) (fun _ hm => by omega)
    rintro r s₁ ⟨role₁, hstep₁, hsame₁, hcase⟩
    dsimp only
    have hall : PtStep root role₀ role₁ s₀ (St.sys ⟨s₁, { st.p with heapStart := sz }⟩) :=
      hstep.trans hstep₁
    rcases hcase with ⟨rfl, hfit, hz₁⟩ | ⟨rfl, hz₁⟩ | ⟨rfl, hbig, -⟩
    · have hva : u64 (18446744073709551616 + (sz₁ + 24576) - 24576) = sz₁ := by
        unfold u64
        omega
      have hbase : u64 (18446744073709551616 + (sz₁ + 24576) - 20480) = sz₁ + 24576 - 20480 := by
        unfold trapframeVa at hfit
        unfold u64
        omega
      rw [if_neg (by omega), hva, hbase, wp_bind, wp_zoom]
      refine (uvmclear_spec hstep₁.inv hstep₁.wf hal (by omega)).mono ?_ (fun _ hf => hf)
        fun _ hv => ?_
      · rintro _ s₂ ⟨hstep₂, hsame₂, hclear⟩
        have htop₂ : ∀ b, b % 4096 = 0 → trapframeVa ≤ b → b < maxva →
            leaf s₂.mem root b = topPte st.p.trapframe s₀.tramp b := fun b h1 h2 h3 => by
          rw [hsame₂ b h1 h2 h3, hsame₁ b h1 h2 h3, htop b h1 (by omega) h2 h3]
        have himg : NewImage root role₁ s₂ (sz₁ + 24576) := by
          refine .of_cleared hstep₂.inv hstep₂.wf hal hfit hz₁ hclear fun b h1 h2 h3 => ?_
          rw [htop₂ b h1 h2 h3]
          exact top_leaf h1 h2 h3
        have hall₂ : PtStep root role₀ role₁ s₀ (St.sys ⟨s₂, { st.p with heapStart := sz }⟩) :=
          hall.trans hstep₂
        exact (pushed_spec hall₂ hidle himg hargs htop₂).mono (fun _ _ hd => ⟨hd, hfine⟩)
          (fun _ hf => hf) fun _ => .inr
      · -- the guard page has just been mapped
        have hguard := hz₁ sz₁ hal (by omega)
        rw [if_pos ⟨Nat.le_refl _, by omega⟩, pageAt_eq_some] at hguard
        rw [hguard.1] at hv
        cases hv
    · -- nothing of the stack is left
      rw [if_pos rfl]
      exact (execBad_spec hall hidle (hempty hz₁).inRange hsz₁).mono
        (fun _ _ hd => ⟨.bad hd.1, hfine⟩) (fun _ hf => hf) fun _ hm => by omega
    · omega
  · -- there is no room for a stack
    have hhigh : trampolineVa < sz := not_le.mp fun h => hroom (hlow.mpr h)
    refine (halloc.and (uvmalloc_beyond hal (not_lt.mp hroom) hlt)).mono ?_ (fun _ hf => hf.1)
      fun _ hm => .inl (.inr ⟨hhigh, hm.2⟩)
    rintro r s₁ ⟨⟨role₁, hstep₁, -, hcase⟩, hr⟩
    dsimp only
    have hall : PtStep root role₀ role₁ s₀ (St.sys ⟨s₁, { st.p with heapStart := sz }⟩) :=
      hstep.trans hstep₁
    rcases hr with ⟨rfl, hgrant⟩ | ⟨rfl, hbig⟩
    · have hz₁ : ZeroMapped s₁.mem root sz₁ sz₁ Perm.urw := by
        rcases hcase with ⟨h0, -⟩ | ⟨-, hz₁⟩ | ⟨h0, hbig, -⟩
        · omega
        · exact hz₁
        · omega
      rw [if_pos rfl]
      refine (execBad_spec hall hidle (hempty hz₁).inRange hsz₁).mono
        (fun _ _ hd => ⟨.bad hd.1, ?_⟩) (fun _ hf => hf) fun _ hm => .inl (.inl (by omega))
      rintro (hm | hm)
      · have := hd.2
        omega
      · rw [hgrant] at hm
        cases hm.2
    · -- the size has wrapped around
      rw [if_neg (by omega), wp_bind, wp_zoom]
      have hfar : maxva < sz := by
        by_contra hc
        have := hmax.mpr (not_lt.mp hc)
        omega
      refine uvmclear_beyond ?_ fun _ => .inl (.inl hfar)
      unfold u64
      omega

/-! ## From the executable on -/

/-- The process after the headers of the executable `ip` were accepted. -/
def Proc.opened (p : Proc) (exe : Nat) (ip : Inode) : Proc :=
  { p with
    execIp := some exe
    numPhdrs := ip.phnum
    phdrs := Fs.readInto ip ip.phoff (56 * ip.phnum) p.phdrs
    heapStart := ip.imageEnd }

/-- The header loop of `kexec` gets through: the file is loadable, and
there is a frame for every table page of its image. -/
def Opens (s : Sys) (ip : Inode) : Prop := Loadable ip ∧ s.grants ip.imageSpots.card = true

theorem Inode.card_imageSpots (ip : Inode) :
    ip.imageSpots.card = topSpots.card + (ip.imageSpots \ ip.spots 0).card := by
  have hsub : topSpots ⊆ ip.imageSpots := ip.spots_mono (Nat.zero_le _)
  rw [show ip.spots 0 = topSpots from rfl, Finset.card_sdiff_of_subset hsub]
  have := Finset.card_le_card hsub
  omega

/-- **The end of a call with the executable `exe`**, whose inode is `ip`. -/
def Execed (role₀ : Frame → Role) (st : St) (exe : Nat) (ip : Inode) (r : Int) (st' : St) : Prop :=
  (Opens st.sys ip ∧ ExecEnds role₀ st.sys (st.p.opened exe ip) r st') ∨
    (¬ Opens st.sys ip ∧ r = -1 ∧ st'.p = st.p ∧ GaveBack role₀ st.sys st'.sys)

/-- **A file with which `kexec` does not return**, in the machine `s`. -/
inductive Fatal (s : Sys) (ip : Inode) : Prop where
  /-- The header loop comes to a segment that ends beyond `MAXVA`. -/
  | beyond (j : Nat) (elf : 64 ≤ ip.size) (magic : ip.elf.magic = elfMagic) (lt : j < ip.phnum)
      (hdr : ∀ k, k ≤ j → ip.HdrOk k) (seg : (ip.hdr j).type = 1)
      (far : maxva < (ip.hdr j).vaddr + (ip.hdr j).memsz)
      (frames : s.grants (ip.spots j ∪ (ip.hdr j).spotsBelow).card = true)
  /-- The headers do not fit in `phdrs`. -/
  | many (opens : Opens s ip) (num : 16 < ip.phnum)
  /-- The image reaches into the last page, and there is a frame for the
  stack behind it. -/
  | last (load : Loadable ip) (far : trampolineVa < ip.imageEnd)
      (frames : s.grants (ip.imageSpots.card + 1) = true)

theorem Fatal.elf_ok {ip : Inode} (h : Fatal s ip) : 64 ≤ ip.size ∧ ip.elf.magic = elfMagic := by
  cases h with
  | beyond j elf magic => exact ⟨elf, magic⟩
  | many opens => exact ⟨opens.1.elf, opens.1.magic⟩
  | last load => exact ⟨load.elf, load.magic⟩

/-- The new table exists. -/
theorem Fatal.top {ip : Inode} (h : Fatal s ip) : s.grants topSpots.card = true := by
  have hsub : ∀ n, topSpots ⊆ ip.spots n := fun n => ip.spots_mono (Nat.zero_le n)
  cases h with
  | beyond j _ _ _ _ _ _ frames =>
      exact grants_of_le (Finset.card_le_card ((hsub j).trans Finset.subset_union_left)) frames
  | many opens => exact grants_of_le (Finset.card_le_card (hsub _)) opens.2
  | last _ _ frames =>
      exact grants_of_le ((Finset.card_le_card (hsub ip.phnum)).trans (Nat.le_succ _)) frames

/-- The header loop goes too far in the machine with the new table. -/
theorem overruns_zero_iff {ip : Inode} {s₁ : Sys} (hafter : After topSpots.card s s₁) :
    (maxva < ip.segEnd 0 ∨ Overruns ip 0 s₁) ↔ ∃ j, j < ip.phnum ∧ (∀ k, k ≤ j → ip.HdrOk k) ∧
      (ip.hdr j).type = 1 ∧ maxva < (ip.hdr j).vaddr + (ip.hdr j).memsz ∧
      s.grants (ip.spots j ∪ (ip.hdr j).spotsBelow).card = true := by
  have hgrant : ∀ j, s₁.grants ((ip.spots j ∪ (ip.hdr j).spotsBelow) \ ip.spots 0).card =
      s.grants (ip.spots j ∪ (ip.hdr j).spotsBelow).card := by
    intro j
    have hsub : topSpots ⊆ ip.spots j ∪ (ip.hdr j).spotsBelow :=
      (ip.spots_mono (Nat.zero_le j)).trans Finset.subset_union_left
    rw [← hafter, show ip.spots 0 = topSpots from rfl, Finset.card_sdiff_of_subset hsub,
      Nat.add_sub_cancel' (Finset.card_le_card hsub)]
  constructor
  · rintro (hend | ⟨j, -, hj, hok, htype, hfar, hg⟩)
    · exact absurd (show maxva < 0 from hend) (by decide)
    · rw [hgrant] at hg
      exact ⟨j, hj, fun k hk => hok k (Nat.zero_le k) hk, htype, hfar, hg⟩
  · rintro ⟨j, hj, hok, htype, hfar, hg⟩
    rw [← hgrant] at hg
    exact .inr ⟨j, Nat.zero_le j, hj, fun k _ hk => hok k hk, htype, hfar, hg⟩

/-- **The headers are accepted**: the process record is written. -/
theorem accepted_spec {exe : Nat} {ip : Inode} {argv : List (List UInt8)}
    (hstep : PtStep root role₀ role s₀ st.sys) (hidle : (role₀ root).idle = true)
    (hno : NoUser st.sys.mem root) (hsz : SizeOk ip.imageEnd)
    (htop : ∀ b, b % 4096 = 0 → ip.imageEnd ≤ b → trapframeVa ≤ b → b < maxva →
      leaf st.sys.mem root b = topPte st.p.trapframe s₀.tramp b)
    (hload : Loadable ip) (hargs : ∀ a ∈ argv, ArgOk a) :
    wp A (
      if 896 < Fs.readi ip ip.phoff (56 * ip.phnum) then Prog.panic "kerneltrap"
      else do
        modifyProc fun p => { p with
          execIp := some exe
          numPhdrs := ip.phnum
          phdrs := Fs.readInto ip ip.phoff (56 * ip.phnum) p.phdrs }
        if Fs.readi ip ip.phoff (56 * ip.phnum) ≠ 56 * ip.phnum then execBad root ip.imageEnd
        else execStack root ip.imageEnd ip.elf.entry argv)
      ⟨fun r st' => ExecDone argv role₀ s₀ (st.p.opened exe ip) r st' ∧ ip.phnum ≤ 16 ∧
          ¬ StackPanics st.sys ip.imageEnd,
        fun _ => False, fun _ => 16 < ip.phnum ∨ StackPanics st.sys ip.imageEnd ∨
          CommitPanics role₀ s₀ (st.p.opened exe ip)⟩
      st := by
  rw [hload.readi_table, wp_ite]
  refine ⟨fun hmany => wp_panic.mpr (.inl (by omega)), fun hfew => ?_⟩
  rw [modifyProc, wp_modify_bind, if_neg (by simp)]
  generalize hst₁ : St.mk st.sys _ = st₁
  obtain ⟨hsys, htf, hp₁⟩ : st₁.sys = st.sys ∧ st₁.p.trapframe = st.p.trapframe ∧
      { st₁.p with heapStart := ip.imageEnd } = st.p.opened exe ip := by
    subst hst₁
    unfold Proc.opened
    dsimp only
    exact ⟨rfl, rfl, rfl⟩
  rw [← hsys] at hstep hno
  rw [← hsys, ← htf] at htop
  rw [← hp₁, ← hsys]
  exact (execStack_spec hstep hidle hno hsz htop hargs).mono
    (fun _ _ hd => ⟨hd.1, by omega, hd.2⟩) (fun _ hf => hf) fun _ => .inr

/-- **`kexec` from the executable on.** -/
theorem execImage_spec {exe : Nat} {argv : List (List UInt8)} (h : SysInv role₀ st.sys)
    (hargs : ∀ a ∈ argv, ArgOk a) :
    wp A (execImage exe argv)
      ⟨fun r st' => Execed role₀ st exe (st.sys.fs.inode exe) r st' ∧
          (r = -1 ∨
            CommitsArgs argv role₀ st.sys (st.p.opened exe (st.sys.fs.inode exe)) r st') ∧
          ¬ Fatal st.sys (st.sys.fs.inode exe),
        fun _ => False, fun _ => Fatal st.sys (st.sys.fs.inode exe) ∨
          CommitPanics role₀ st.sys (st.p.opened exe (st.sys.fs.inode exe))⟩ st := by
  have hsame : GaveBack role₀ st.sys st.sys := ⟨role₀, h, .refl _, .refl _ _ _⟩
  unfold execImage
  rw [wp_get_bind]
  generalize st.sys.fs.inode exe = ip
  dsimp only
  rw [show ElfHdr.decode ip.data = ip.elf from rfl, show ip.elf.phnum = ip.phnum from rfl,
    show ip.elf.phoff % 4294967296 = ip.phoff from rfl]
  split
  · rename_i hread
    have hno : ¬ 64 ≤ ip.size := fun hsize =>
      hread ((readi_full (by decide) (by decide)).mpr ⟨by omega, by decide⟩)
    exact wp_pure.mpr ⟨.inr ⟨fun ho => hno ho.1.elf, rfl, rfl, hsame⟩, .inl rfl,
      fun hf => hno hf.elf_ok.1⟩
  split
  · rename_i hmagic
    exact wp_pure.mpr ⟨.inr ⟨fun ho => hmagic ho.1.magic, rfl, rfl, hsame⟩, .inl rfl,
      fun hf => hmagic hf.elf_ok.2⟩
  rename_i hread hmagic
  have hsize := ((readi_full (by decide) (by decide)).mp (not_not.mp hread)).1
  have hmagic := not_not.mp hmagic
  rw [wp_bind, onSys, wp_zoom]
  refine ((procPagetable_spec h).and (procPagetable_counts h.poolOk.nodup)).mono ?_
    (fun _ hf => hf.1) (fun _ hf => hf.1.elim)
  rintro r s₁ ⟨hspec, hsome, hnone⟩
  cases r with
  | none =>
      have hno := hnone rfl
      refine wp_pure.mpr ⟨.inr ⟨fun ho => ?_, rfl, rfl, hspec⟩, .inl rfl, fun hf => ?_⟩
      · have hle : topSpots.card ≤ ip.imageSpots.card :=
          Finset.card_le_card (ip.spots_mono (Nat.zero_le _))
        rw [grants_of_le hle ho.2] at hno
        cases hno
      · rw [hf.top] at hno
        cases hno
  | some root =>
      obtain ⟨role₁, hstep₁, hidle, hleaf₁⟩ := hspec
      obtain ⟨hok, hbuilt, hafter⟩ := hsome root rfl
      have hno₁ := NoUser.of_top hleaf₁
      have hoff : ip.phoff < 4294967296 := Nat.mod_lt _ (by decide)
      have hover := @overruns_zero_iff _ ip _ hafter
      have hfar : (maxva < ip.segEnd 0 ∨ Overruns ip 0 s₁) → Fatal st.sys ip := fun ho => by
        obtain ⟨j, hj, hhdr, htype, hfar, hg⟩ := hover.mp ho
        exact .beyond j (by omega) hmagic hj hhdr htype hfar hg
      have hcount := loadHeaders_counts (A := A) (i := 0) (Nat.zero_add ip.phnum) (by omega) hok
        hbuilt
      rw [Nat.mul_zero, Nat.add_zero, show ip.segEnd 0 = 0 from rfl] at hcount
      dsimp only
      rw [wp_bind, onSys, wp_zoom]
      refine (hcount.and (loadHeaders_spec hstep₁.inv hstep₁.wf hno₁ (.inl (Nat.zero_le _)))).mono ?_
        (fun _ hf => hf.1) (fun _ hf => .inl (hfar hf.1))
      rintro ⟨ok, sz⟩ s₂ ⟨⟨⟨htrue, hfalse⟩, hleaves⟩, role₂, hm⟩
      have hstep₂ : PtStep root role₀ role₂ st.sys (St.sys ⟨s₂, st.p⟩) := hstep₁.trans hm.step
      have hstay : sz ≤ maxva → ¬ ∃ j, j < ip.phnum ∧ (∀ k, k ≤ j → ip.HdrOk k) ∧
          (ip.hdr j).type = 1 ∧ maxva < (ip.hdr j).vaddr + (ip.hdr j).memsz ∧
          st.sys.grants (ip.spots j ∪ (ip.hdr j).spotsBelow).card = true := fun hle ho =>
        absurd (hleaves.mpr (hover.mpr ho)) (not_lt.mpr hle)
      cases ok with
      | false =>
          have hno : ¬ Opens st.sys ip := fun ho => by
            have hrefused := hafter.refused (hfalse rfl fun j _ hj => ho.1.hdr j hj)
            rw [← ip.card_imageSpots, ho.2] at hrefused
            cases hrefused
          dsimp only
          rw [if_pos (by decide)]
          refine (execBad_spec hstep₂ hidle hm.noUser.inRange hm.size).mono (fun r st' hst' => ?_)
            (fun _ hf => hf) fun _ hmax => .inl (hfar (hleaves.mp hmax))
          refine ⟨.inr ⟨hno, hst'.1⟩, .inl hst'.1.1, fun hf => ?_⟩
          cases hf with
          | beyond j _ _ hj hhdr htype hfar hg => exact hstay hst'.2 ⟨j, hj, hhdr, htype, hfar, hg⟩
          | many opens => exact hno opens
          | last load _ frames => exact hno ⟨load, grants_of_le (Nat.le_succ _) frames⟩
      | true =>
          obtain ⟨rfl, hhdr, hafter₂⟩ := htrue rfl
          have hload : Loadable ip :=
            ⟨by omega, hmagic, fun j hj => hhdr j (Nat.zero_le j) hj⟩
          have hall : After ip.imageSpots.card st.sys s₂ := by
            rw [ip.card_imageSpots]
            exact hafter.trans hafter₂
          dsimp only
          rw [if_neg (by decide)]
          refine (accepted_spec hstep₂ hidle hm.noUser hm.size (fun b hbal hle htf hmax => ?_) hload
            hargs).mono (fun r st' hst' => ?_) (fun _ hf => hf) fun _ hpanic => ?_
          · rw [hm.leaf rfl b hbal hle hmax, hleaf₁ b hbal hmax]
            rfl
          · obtain ⟨⟨hend, hargs'⟩, hfew, hstack⟩ := hst'
            refine ⟨.inl ⟨⟨hload, hall.granted⟩, hend⟩, hargs', fun hf => ?_⟩
            cases hf with
            | beyond j _ _ hj hhdr htype hfar hg =>
                exact hstay (not_lt.mp fun h => hstack (.inl h)) ⟨j, hj, hhdr, htype, hfar, hg⟩
            | many _ num => omega
            | last _ far frames => exact hstack (.inr ⟨far, (hall 1).symm.trans frames⟩)
          · rcases hpanic with hmany | (hmax | ⟨hend, hg⟩) | hpanic
            · exact .inl (.many ⟨hload, hall.granted⟩ hmany)
            · exact .inl (hfar (hleaves.mp hmax))
            · exact .inl (.last hload hend ((hall 1).trans hg))
            · exact .inr hpanic

/-! ## The whole call -/

/-- The machine and the process after the swap file was opened. -/
def St.opensSwap (st : St) (ino : Nat) (fs : Fs) : St :=
  ⟨{ st.sys with fs := fs }, { st.p with swapFile := some ino }⟩

/-- What a call of `kexec` has done, by how far it came. -/
def Exec (role₀ : Frame → Role) (st : St) (path : List Char) (dirlinkOk : Bool) (r : Int)
    (st' : St) : Prop :=
  match st.sys.fs.create (swapName st.p.pid) dirlinkOk with
  | none => r = -1 ∧ st' = st
  | some (ino, fs) =>
      match fs.names path with
      | none => r = -1 ∧ st' = st.opensSwap ino fs
      | some exe => Execed role₀ (st.opensSwap ino fs) exe (fs.inode exe) r st'

/-- `kexec` gets to the executable `exe`, with the file system `fs`. -/
def Finds (st : St) (path : List Char) (dirlinkOk : Bool) (ino : Nat) (fs : Fs) (exe : Nat) : Prop :=
  st.sys.fs.create (swapName st.p.pid) dirlinkOk = some (ino, fs) ∧ fs.names path = some exe

/-- **`kexec`.** -/
theorem kexec_spec {path : List Char} {argv : List (List UInt8)} {dirlinkOk fileallocOk : Bool}
    (h : SysInv role₀ st.sys) (hargs : ∀ a ∈ argv, ArgOk a) :
    wp A (kexec path argv dirlinkOk fileallocOk)
      ⟨fun r st' => Exec role₀ st path dirlinkOk r st' ∧
          (r = -1 ∨ ∃ ino fs exe, Finds st path dirlinkOk ino fs exe ∧
            CommitsArgs argv role₀ (st.opensSwap ino fs).sys
              ((st.opensSwap ino fs).p.opened exe (fs.inode exe)) r st') ∧
          ∀ ino fs exe, Finds st path dirlinkOk ino fs exe →
            ¬ Fatal (st.opensSwap ino fs).sys (fs.inode exe),
        fun _ => False, fun _ => fileallocOk = false ∨ ∃ ino fs exe,
          Finds st path dirlinkOk ino fs exe ∧ (Fatal (st.opensSwap ino fs).sys (fs.inode exe) ∨
            CommitPanics role₀ (st.opensSwap ino fs).sys
              ((st.opensSwap ino fs).p.opened exe (fs.inode exe)))⟩ st := by
  unfold kexec Exec Finds
  rw [wp_get_bind]
  cases st.sys.fs.create (swapName st.p.pid) dirlinkOk with
  | none => exact wp_pure.mpr ⟨⟨rfl, rfl⟩, .inl rfl, fun _ _ _ hc => nomatch hc.1⟩
  | some x =>
      obtain ⟨ino, fs⟩ := x
      dsimp only
      rw [modifyFs, wp_modify_bind]
      cases fileallocOk with
      | false => exact wp_panic.mpr (.inl rfl)
      | true =>
          dsimp only
          rw [if_pos rfl, modifyProc, wp_modify_bind, wp_bind, wp_tell]
          refine fun _ => ?_
          cases hexe : fs.names path with
          | none =>
              refine wp_pure.mpr ⟨⟨rfl, rfl⟩, .inl rfl, ?_⟩
              rintro ino' fs' exe ⟨hc, hn⟩
              cases hc
              rw [hexe] at hn
              cases hn
          | some exe =>
              have h' : SysInv role₀ (st.opensSwap ino fs).sys :=
                ⟨h.free_nodup, h.mem_free, h.held_nodup, h.mem_held, h.valid, h.kend_le⟩
              refine (execImage_spec h' hargs).mono (fun r st' hd => ⟨hd.1, ?_, ?_⟩)
                (fun _ hf => hf) fun _ hpanic => ?_
              · exact hd.2.1.imp id fun hc => ⟨ino, fs, exe, ⟨rfl, hexe⟩, hc⟩
              · rintro ino' fs' exe' ⟨hc, hn⟩
                cases hc
                rw [hexe] at hn
                cases hn
                exact hd.2.2
              · exact .inr ⟨ino, fs, exe, ⟨rfl, hexe⟩, hpanic⟩

end

end OsSuite.Xv6
