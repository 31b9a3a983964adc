import OsSuite.Xv6.Refs

/-!
# RefSteps — references over the calls of a process

`kexit`, `kwait`, `kfork` and `kexec` leave no slack behind, if `kexec`
finds no pointer to overwrite and `kfork` no stale `exec_ip` in the slot
it takes. Otherwise some remains: `kexec` overwrites `exec_ip` and
`swap_file` without dropping what they pointed to, and `freeproc` drops
`exec_ip` without clearing it, so that the next owner of the slot has a
pointer it does not hold a reference for.
-/

namespace OsSuite.Xv6.Life

open Finset

section
variable {A : Event → Prop} {α : Type} {s : World} {E : World → Prop} {i j : Nat}

/-! ## Exit -/

/-- Process `i` gives up pointers together with their references. -/
structure Releases (i : Nat) (s s' : World) : Prop where
  slack : s'.slack = s.slack
  fileSlack : s'.fileSlack = s.fileSlack
  kept : Kept s'
  other : ∀ j, j ≠ i → s'.proc j = s.proc j
  state : (s'.proc i).state = (s.proc i).state
  cwd : (s.proc i).cwd = none → (s'.proc i).cwd = none
  swapFile : (s.proc i).swapFile = none → (s'.proc i).swapFile = none
  ofile : ∀ fd, (s.proc i).ofile fd = none → (s'.proc i).ofile fd = none

theorem Releases.refl (hk : Kept s) : Releases i s s :=
  ⟨rfl, rfl, hk, fun _ _ => rfl, rfl, fun h => h, fun h => h, fun _ h => h⟩

theorem Releases.trans {s' s'' : World} (h : Releases i s s') (h' : Releases i s' s'') :
    Releases i s s'' where
  slack := h'.slack.trans h.slack
  fileSlack := h'.fileSlack.trans h.fileSlack
  kept := h'.kept
  other j hj := (h'.other j hj).trans (h.other j hj)
  state := h'.state.trans h.state
  cwd hc := h'.cwd (h.cwd hc)
  swapFile hc := h'.swapFile (h.swapFile hc)
  ofile fd hc := h'.ofile fd (h.ofile fd hc)

theorem setProc_proc_self (s : World) (i : Nat) (p : Task) : (s.setProc i p).proc i = p :=
  Function.update_self ..

theorem setProc_proc_ne (s : World) (h : j ≠ i) (p : Task) : (s.setProc i p).proc j = s.proc j :=
  Function.update_of_ne h ..

/-- The reference is gone (`hs`), and then the pointer. -/
theorem Releases.clear {s' : World} {p : Task} (hi : i < nproc) (hk : Kept s')
    (hproc : s'.proc = s.proc)
    (hslack : s'.slack = s.slack + p.inodes - (s.proc i).inodes)
    (hfiles : s'.fileSlack = s.fileSlack + p.files - (s.proc i).files)
    (hstate : p.state = (s.proc i).state) (hcwd : (s.proc i).cwd = none → p.cwd = none)
    (hswap : (s.proc i).swapFile = none → p.swapFile = none)
    (hofile : ∀ fd, (s.proc i).ofile fd = none → p.ofile fd = none) :
    Releases i s (s'.setProc i p) := by
  refine ⟨?_, ?_, hk.congr rfl, fun j hj => ?_, ?_, fun h => ?_, fun h => ?_, fun fd h => ?_⟩
  · rw [slack_setProc hi, hslack, hproc]
    abel
  · rw [fileSlack_setProc hi, hfiles, hproc]
    abel
  · rw [setProc_proc_ne _ hj, hproc]
  all_goals rw [setProc_proc_self]
  · exact hstate
  · exact hcwd h
  · exact hswap h
  · exact hofile fd h

theorem wp_closeOfile (hi : i < nproc) (hlive : (s.proc i).state ≠ .unused) (hk : Kept s) {fd : Nat}
    (hfd : fd < nofile) :
    wp A (closeOfile i fd) ⟨fun _ s' => Releases i s s' ∧ (s'.proc i).ofile fd = none, E,
      fun _ => True⟩ s := by
  unfold closeOfile modifyProc
  rw [wp_get_bind]
  split
  · rename_i hnone
    exact wp.ret ⟨.refl hk, hnone⟩
  · rename_i f hf
    refine (wp_fileclose hk f).bind fun _ s₁ h₁ => wp_modify.mpr ?_
    obtain ⟨hslack, hfiles, hk₁, hproc⟩ := h₁
    rw [hproc]
    refine ⟨.clear hi hk₁ hproc ?_ ?_ rfl (fun h => h) (fun h => h) fun a ha => ?_, ?_⟩
    · rw [hslack]
      show _ = _ + (s.proc i).inodes - _
      rw [add_sub_cancel_right]
    · rw [hfiles, files_ofile hlive hfd, hf, point_none]
      abel
    · rcases eq_or_ne a fd with rfl | hne
      · exact Function.update_self ..
      · exact (Function.update_of_ne hne ..).trans ha
    · rw [setProc_proc_self]
      exact Function.update_self ..

theorem wp_closeSwap (hi : i < nproc) (hlive : (s.proc i).state ≠ .unused) (hk : Kept s) :
    wp A (closeSwap i) ⟨fun _ s' => Releases i s s' ∧ (s'.proc i).swapFile = none, E,
      fun _ => True⟩ s := by
  unfold closeSwap modifyProc
  rw [wp_get_bind]
  split
  · rename_i hnone
    exact wp.ret ⟨.refl hk, hnone⟩
  · rename_i f hf
    refine (wp_onFs_same wp_beginOp).bind fun _ s₁ h₁ => ?_
    refine (wp_onFs_same (wp_iupdate _)).bind fun _ s₂ h₂ => ?_
    refine (wp_fileclose (hk.congr (h₂.file.trans h₁.file)) f).bind fun _ s₃ h₃ => ?_
    obtain ⟨hslack, hfiles, hk₃, hproc⟩ := h₃
    have hproc : s₃.proc = s.proc := hproc.trans (h₂.proc.trans h₁.proc)
    rw [wp_modify_bind]
    have hclear : Releases i s (s₃.setProc i { s.proc i with swapFile := none }) := by
      refine .clear hi hk₃ hproc ?_ ?_ rfl (fun h => h) (fun _ => rfl) fun _ h => h
      · rw [hslack, h₂.slack, h₁.slack, add_zero, add_zero]
        show _ = _ + (s.proc i).inodes - _
        rw [add_sub_cancel_right]
      · rw [hfiles, h₂.fileSlack, h₁.fileSlack, files_swapFile hlive, hf, point_none]
        abel
    rw [hproc]
    refine (wp_onFs_same wp_endOp).weaken fun _ s₄ h₄ => ⟨hclear.trans ?_, ?_⟩
    · refine ⟨h₄.slack.trans (add_zero _), h₄.fileSlack, hclear.kept.congr h₄.file, ?_, ?_, ?_, ?_, ?_⟩
      all_goals rw [h₄.proc]
      · exact fun _ _ => rfl
      · exact fun h => h
      · exact fun h => h
      · exact fun _ h => h
    · rw [h₄.proc, setProc_proc_self]

theorem wp_dropCwd (hi : i < nproc) (hlive : (s.proc i).state ≠ .unused) (hk : Kept s) :
    wp A (dropCwd i) ⟨fun _ s' => Releases i s s' ∧ (s'.proc i).cwd = none, E, fun _ => True⟩ s := by
  unfold dropCwd modifyProc
  rw [wp_get_bind]
  split
  · exact wp_panic.mpr trivial
  · rename_i ip hip
    refine (wp_putOp ip).bind fun _ s₁ h₁ => wp_modify.mpr ?_
    rw [h₁.proc]
    refine ⟨.clear hi (hk.congr h₁.file) h₁.proc ?_ ?_ rfl (fun _ => rfl) (fun h => h) fun _ h => h, ?_⟩
    · rw [h₁.slack, inodes_cwd hlive, hip, point_none]
      abel
    · rw [h₁.fileSlack]
      show _ = _ + (s.proc i).files - _
      rw [add_sub_cancel_right]
    · rw [setProc_proc_self]

/-- `exited` changes parents, and one state. -/
theorem exited_proc (s : World) (i j : Nat) : ∃ par, (s.exited i).proc j =
    { s.proc j with parent := par, state := if j = i then .zombie else (s.proc j).state } := by
  unfold World.exited
  dsimp only
  split <;> split <;> exact ⟨_, rfl⟩

theorem Sound.exited (h : Sound s) (hlive : (s.proc i).state ≠ .unused) (hidle : (s.proc i).Idle) :
    Sound (s.exited i) := by
  have hstate : ∀ j, ((s.exited i).proc j).state = .unused ↔ (s.proc j).state = .unused := by
    intro j
    obtain ⟨par, hpar⟩ := exited_proc s i j
    rw [hpar]
    dsimp only
    split
    · rename_i hji
      rw [hji]
      simp [hlive]
    · exact Iff.rfl
  have hinodes : ∀ j, ((s.exited i).proc j).inodes = (s.proc j).inodes := by
    intro j
    have hj := hstate j
    obtain ⟨par, hpar⟩ := exited_proc s i j
    rw [hpar] at hj ⊢
    simp only [Task.inodes, hj]
  have hfiles : ∀ j, ((s.exited i).proc j).files = (s.proc j).files := by
    intro j
    have hj := hstate j
    obtain ⟨par, hpar⟩ := exited_proc s i j
    rw [hpar] at hj ⊢
    simp only [Task.files, hj]
  refine ⟨?_, ?_, h.kept.congr rfl, fun j hj => ?_⟩
  · rw [← h.slack]
    simp only [World.slack, World.inodeHolders, hinodes]
    rfl
  · rw [← h.fileSlack]
    simp only [World.fileSlack, World.fileHolders, hfiles]
    rfl
  · obtain ⟨par, hpar⟩ := exited_proc s i j
    have hold : (s.proc j).Idle := by
      rw [hpar] at hj
      rcases eq_or_ne j i with rfl | hne
      · exact hidle
      · simp only [if_neg hne] at hj
        exact h.gone j hj
    rw [hpar]
    exact ⟨hold.cwd, hold.swapFile, hold.ofile⟩

/-- **`kexit` leaves no slack.** -/
theorem sound_kexit (h : Sound s) (hi : i < nproc) (hlive : (s.proc i).state ≠ .unused)
    {Q : α → World → Prop} : wp A (kexit i : WProg α) ⟨Q, Sound, fun _ => True⟩ s := by
  unfold kexit
  rw [wp_get_bind]
  split
  · exact wp_panic.mpr trivial
  have hfiles : wp A (Prog.upTo (closeOfile i) nofile) ⟨fun _ s' => Releases i s s' ∧
      ∀ fd < nofile, (s'.proc i).ofile fd = none, Sound, fun _ => True⟩ s := by
    refine wp_upTo (fun n s' => Releases i s s' ∧ ∀ fd < n, (s'.proc i).ofile fd = none)
      ⟨.refl h.kept, fun _ hfd => by omega⟩ fun fd s₁ hfd h₁ => ?_
    have hlive₁ : (s₁.proc i).state ≠ .unused := by rwa [h₁.1.state]
    refine (wp_closeOfile hi hlive₁ h₁.1.kept hfd).weaken fun _ s₂ h₂ =>
      ⟨h₁.1.trans h₂.1, fun a ha => ?_⟩
    rcases Nat.lt_succ_iff_lt_or_eq.mp ha with hlt | rfl
    · exact h₂.1.ofile a (h₁.2 a hlt)
    · exact h₂.2
  refine hfiles.bind fun _ s₁ h₁ => ?_
  have hlive₁ : (s₁.proc i).state ≠ .unused := by rwa [h₁.1.state]
  refine (wp_closeSwap hi hlive₁ h₁.1.kept).bind fun _ s₂ h₂ => ?_
  have hlive₂ : (s₂.proc i).state ≠ .unused := by rwa [h₂.1.state]
  refine (wp_dropCwd hi hlive₂ h₂.1.kept).bind fun _ s₃ h₃ => wp_exit.mpr ?_
  have hall := (h₁.1.trans h₂.1).trans h₃.1
  have hidle : (s₃.proc i).Idle :=
    ⟨h₃.2, h₃.1.swapFile h₂.2, fun fd hfd => h₃.1.ofile fd (h₂.1.ofile fd (h₁.2 fd hfd))⟩
  have hsound : Sound s₃ := by
    refine ⟨hall.slack.trans h.slack, hall.fileSlack.trans h.fileSlack, hall.kept, fun j hj => ?_⟩
    rcases eq_or_ne j i with rfl | hne
    · exact hidle
    · rw [hall.other j hne] at hj ⊢
      exact h.gone j hj
  exact hsound.exited (by rwa [hall.state]) hidle

/-! ## Faults -/

theorem Holding.fsOnly {d e : Nat → Int} (h : Holding d s) {s' : World} (ho : FsOnly e s s') :
    Holding (d + e) s' := by
  refine ⟨?_, ho.fileSlack.trans h.fileSlack, h.kept.congr ho.file, ?_⟩
  · rw [ho.slack, h.slack]
  · rw [ho.proc]
    exact h.gone

/-- Code of the file system that leaves the counts alone. -/
theorem Holding.fsSame {d : Nat → Int} (h : Holding d s) {s' : World} (ho : FsOnly 0 s s') :
    Holding d s' := by
  have h' := h.fsOnly ho
  rwa [add_zero] at h'

theorem sound_handlePgfault (h : Sound s) (hi : i < nproc) (hlive : (s.proc i).state ≠ .unused)
    (f : Fault) :
    wp A (handlePgfault i f) ⟨fun _ s' => Sound s' ∧ s'.proc = s.proc, Sound, fun _ => True⟩ s := by
  unfold handlePgfault
  split
  · exact sound_kexit h hi hlive
  · exact sound_kexit h hi hlive
  · rename_i ok
    refine (wp_onFs_same wp_beginOp).bind fun _ s₁ h₁ => ?_
    have hwrite : wp A (swapWritePage i ok) ⟨fun _ s' => Sound s' ∧ s'.proc = s.proc, Sound,
        fun _ => True⟩ s₁ := by
      unfold swapWritePage
      rw [wp_get_bind]
      split
      · exact wp.ret ⟨h.fsSame h₁, h₁.proc⟩
      · refine (wp_onFs_same ?_).bind fun _ s₂ h₂ =>
          wp.ret ⟨(h.fsSame h₁).fsSame h₂, h₂.proc.trans h₁.proc⟩
        refine (wp_ilock _).bind fun _ t₁ e₁ => ?_
        refine (wp_iupdate _).bind fun _ t₂ e₂ => ?_
        exact (wp_iunlock _).weaken fun _ t₃ e₃ => e₃.trans (e₂.trans e₁)
    refine hwrite.bind fun r s₂ h₂ => ?_
    refine (wp_onFs_same wp_endOp).bind fun _ s₃ h₃ => ?_
    have hproc : s₃.proc = s.proc := h₃.proc.trans h₂.2
    split
    · exact wp.ret ⟨h₂.1.fsSame h₃, hproc⟩
    · exact sound_kexit (h₂.1.fsSame h₃) hi (by rwa [hproc])
  · unfold swapReadPage
    rw [wp_get_bind]
    split
    · exact wp_panic.mpr trivial
    · refine (wp_onFs_same ?_).bind fun _ s₁ h₁ => ?_
      · refine wp_beginOp.bind fun _ t₁ e₁ => ?_
        refine (wp_ilock _).bind fun _ t₂ e₂ => ?_
        refine (wp_iunlock _).bind fun _ t₃ e₃ => ?_
        exact wp_endOp.weaken fun _ t₄ e₄ => e₄.trans (e₃.trans (e₂.trans e₁))
      · split
        · exact wp.ret ⟨h.fsSame h₁, h₁.proc⟩
        · exact wp_panic.mpr trivial
  · exact wp.ret ⟨h, rfl⟩

theorem sound_copyout (h : Sound s) (hi : i < nproc) (hlive : (s.proc i).state ≠ .unused)
    (a : CopyAnswers) :
    wp A (copyout i a) ⟨fun _ s' => Sound s' ∧ s'.proc = s.proc, Sound, fun _ => True⟩ s := by
  have hfaults : ∀ (fs : List Fault) {s : World}, Sound s → (s.proc i).state ≠ .unused →
      wp A (copyoutFaults i fs) ⟨fun _ s' => Sound s' ∧ s'.proc = s.proc, Sound, fun _ => True⟩ s := by
    intro fs
    induction fs with
    | nil => exact fun h _ => wp.ret ⟨h, rfl⟩
    | cons f rest ih =>
        intro s h hlive
        unfold copyoutFaults
        refine (sound_handlePgfault h hi hlive f).bind fun _ s₁ h₁ => ?_
        exact (ih h₁.1 (by rwa [h₁.2])).weaken fun _ s₂ h₂ => ⟨h₂.1, h₂.2.trans h₁.2⟩
  unfold copyout
  exact (hfaults a.faults h hlive).bind fun _ s' h' => wp.ret h'

/-! ## Slots of the process table -/

/-- A slot after `freeproc`. -/
def Task.freed (p : Task) : Task := { p with pid := 0, parent := none, state := .unused }

theorem wp_freeproc (hj : j < nproc) :
    wp A (freeproc j) ⟨fun _ s' => s'.slack = s.slack + (s.proc j).inodes - point (s.proc j).execIp ∧
        s'.fileSlack = s.fileSlack + (s.proc j).files ∧ s'.file = s.file ∧
        s'.proc = Function.update s.proc j (s.proc j).freed, E, fun _ => True⟩ s := by
  unfold freeproc modifyProc
  rw [wp_modify_bind, wp_get_bind]
  have hslack : (s.setProc j (s.proc j).freed).slack = s.slack + (s.proc j).inodes := by
    rw [slack_setProc hj]
    exact sub_zero _
  have hfiles : (s.setProc j (s.proc j).freed).fileSlack = s.fileSlack + (s.proc j).files := by
    rw [fileSlack_setProc hj]
    exact sub_zero _
  change wp A (putExec ((s.setProc j (s.proc j).freed).proc j).execIp) _ (s.setProc j (s.proc j).freed)
  rw [setProc_proc_self]
  change wp A (putExec (s.proc j).execIp) _ _
  cases (s.proc j).execIp with
  | none => exact wp.ret ⟨by rw [hslack, point_none, sub_zero], hfiles, rfl, rfl⟩
  | some ip =>
      refine (wp_onFs (d := fun _ => -point (some ip)) ((wp_iput ip).weaken fun _ t ht => ?_)).weaken
        fun _ s' h' => ⟨?_, h'.fileSlack.trans hfiles, h'.file, h'.proc⟩
      · rw [ht, sub_eq_add_neg]
      · rw [h'.slack, hslack, sub_eq_add_neg]

/-- A dead slot is freed. -/
theorem Sound.free (h : Sound s) {s' : World} (hdead : (s.proc j).Idle)
    (hlive : (s.proc j).state ≠ .unused)
    (hs' : s'.slack = s.slack + (s.proc j).inodes - point (s.proc j).execIp ∧
      s'.fileSlack = s.fileSlack + (s.proc j).files ∧ s'.file = s.file ∧
      s'.proc = Function.update s.proc j (s.proc j).freed) : Sound s' := by
  obtain ⟨hslack, hfiles, hfile, hproc⟩ := hs'
  refine ⟨?_, ?_, h.kept.congr hfile, fun a ha => ?_⟩
  · rw [hslack, hdead.inodes hlive, add_sub_cancel_right, h.slack]
  · rw [hfiles, hdead.files, add_zero, h.fileSlack]
  · rw [hproc] at ha ⊢
    rcases eq_or_ne a j with rfl | hne
    · rw [Function.update_self]
      exact ⟨hdead.cwd, hdead.swapFile, hdead.ofile⟩
    · rw [Function.update_of_ne hne] at ha ⊢
      exact h.gone a ha

/-- **`kwait` leaves no slack.** -/
theorem sound_kwait (h : Sound s) (hi : i < nproc) (hlive : (s.proc i).state ≠ .unused)
    (addr : Option CopyAnswers) :
    wp A (kwait i addr) ⟨fun _ s' => Sound s', Sound, fun _ => True⟩ s := by
  unfold kwait
  rw [wp_get_bind]
  split
  · exact wp.ret h
  · rename_i j hj
    obtain ⟨hjn, hz, -⟩ := Table.firstIdx_some hj
    have hz : (s.proc j).state = .zombie := by
      simp only [Bool.and_eq_true, beq_iff_eq] at hz
      exact hz.2
    have hcopy : wp A (copyStatus i addr) ⟨fun _ s' => Sound s' ∧ s'.proc = s.proc, Sound,
        fun _ => True⟩ s := by
      unfold copyStatus
      split
      · exact wp.ret ⟨h, rfl⟩
      · exact sound_copyout h hi hlive _
    refine hcopy.bind fun r s₁ h₁ => ?_
    split
    · refine (wp_freeproc hjn).bind fun _ s₂ h₂ => wp.ret ?_
      refine h₁.1.free (h₁.1.gone j ?_) ?_ h₂
      · rw [h₁.2]
        exact .inr hz
      · rw [h₁.2, hz]
        decide
    · exact wp.ret h₁.1

/-! ## Fork -/

theorem wp_filedup (hk : Kept s) (f : Nat) :
    wp A (filedup f) ⟨fun _ s' => s'.slack = s.slack ∧
        s'.fileSlack = s.fileSlack + point (some f) ∧ Kept s' ∧ s'.proc = s.proc,
      E, fun _ => True⟩ s := by
  unfold filedup modifyFile
  rw [wp_get_bind]
  split
  · exact wp_panic.mpr trivial
  rename_i hpos
  have hf : f < nfile := by
    by_contra hge
    have := hk.out f (by omega)
    omega
  refine wp_modify.mpr ⟨?_, ?_, hk.setFile hf fun h0 => ?_, rfl⟩
  · have hsame : ({ s.file f with ref := (s.file f).ref + 1 } : File).inodes = (s.file f).inodes := by
      have h1 : 0 < (s.file f).ref := by omega
      have h2 : 0 < (s.file f).ref + 1 := by omega
      simp only [File.inodes, h1, h2, true_and]
    rw [slack_setFile hf, hsame, add_sub_cancel_right]
  · rw [fileSlack_setFile (k := 1) rfl]
    funext a
    simp
  · have h0 : (s.file f).ref + 1 = 0 := h0
    omega

/-- The child `j` takes pointers together with references; `p` is what
has become of it. -/
structure Takes (j : Nat) (p : Task) (s s' : World) : Prop where
  slack : s'.slack = s.slack
  fileSlack : s'.fileSlack = s.fileSlack
  kept : Kept s'
  proc : s'.proc = Function.update s.proc j p

/-- The reference is there, and then the pointer. -/
theorem Takes.store {s' : World} {p : Task} (hj : j < nproc) (hk : Kept s') (hproc : s'.proc = s.proc)
    (hslack : s'.slack = s.slack + p.inodes - (s.proc j).inodes)
    (hfiles : s'.fileSlack = s.fileSlack + p.files - (s.proc j).files) :
    Takes j p s (s'.setProc j p) := by
  refine ⟨?_, ?_, hk.congr rfl, ?_⟩
  · rw [slack_setProc hj, hslack, hproc]
    abel
  · rw [fileSlack_setProc hj, hfiles, hproc]
    abel
  · show Function.update s'.proc j p = _
    rw [hproc]

theorem wp_dupOfile (hk : Kept s) (hj : j < nproc) (hlive : (s.proc j).state ≠ .unused) {fd : Nat}
    (hfd : fd < nofile) (hnone : (s.proc j).ofile fd = none) :
    wp A (dupOfile i j fd) ⟨fun _ s' => ∃ o, Takes j { s.proc j with
        ofile := Function.update (s.proc j).ofile fd o } s s', E, fun _ => True⟩ s := by
  unfold dupOfile modifyProc
  rw [wp_get_bind]
  split
  · refine wp.ret ⟨none, rfl, rfl, hk, ?_⟩
    rw [← hnone, Function.update_eq_self, Function.update_eq_self]
  · rename_i f _
    refine (wp_filedup hk f).bind fun _ s₁ h₁ => wp_modify.mpr ⟨some f, ?_⟩
    obtain ⟨hslack, hfiles, hk₁, hproc⟩ := h₁
    rw [hproc]
    refine .store hj hk₁ hproc ?_ ?_
    · rw [hslack]
      show _ = _ + (s.proc j).inodes - _
      rw [add_sub_cancel_right]
    · rw [hfiles, files_ofile hlive hfd, hnone, point_none]
      abel

theorem Takes.trans {p q : Task} {s' s'' : World} (h : Takes j p s s') (h' : Takes j q s' s'') :
    Takes j q s s'' where
  slack := h'.slack.trans h.slack
  fileSlack := h'.fileSlack.trans h.fileSlack
  kept := h'.kept
  proc := by rw [h'.proc, h.proc, Function.update_idem]

theorem Takes.self {p : Task} {s' : World} (h : Takes j p s s') : s'.proc j = p := by
  rw [h.proc, Function.update_self]

theorem Takes.other {p : Task} {s' : World} (h : Takes j p s s') {a : Nat} (ha : a ≠ j) :
    s'.proc a = s.proc a := by
  rw [h.proc, Function.update_of_ne ha]

/-- The file descriptors of the child. -/
theorem wp_dupOfiles (hk : Kept s) (hj : j < nproc) (hlive : (s.proc j).state ≠ .unused)
    (hidle : (s.proc j).Idle) :
    wp A (Prog.upTo (dupOfile i j) nofile) ⟨fun _ s' => ∃ o, Takes j { s.proc j with ofile := o } s s',
      E, fun _ => True⟩ s := by
  refine (wp_upTo (fun n s' => ∃ o, Takes j { s.proc j with ofile := o } s s' ∧
      ∀ fd, n ≤ fd → fd < nofile → o fd = none)
    ⟨(s.proc j).ofile, ⟨rfl, rfl, hk, by rw [Function.update_eq_self]⟩,
      fun fd _ hfd => hidle.ofile fd hfd⟩ fun fd s₁ hfd h₁ => ?_).weaken
    fun _ s' h => h.imp fun _ h => h.1
  obtain ⟨o, h₁, hrest⟩ := h₁
  have hself := h₁.self
  refine (wp_dupOfile h₁.kept hj ?_ hfd ?_).weaken fun _ s₂ h₂ => ?_
  · rw [hself]
    exact hlive
  · rw [hself]
    exact hrest fd (le_refl fd) hfd
  · obtain ⟨o', h₂⟩ := h₂
    rw [hself] at h₂
    refine ⟨Function.update o fd o', h₁.trans h₂, fun a ha hlt => ?_⟩
    rw [Function.update_of_ne (by omega)]
    exact hrest a (by omega) hlt

theorem wp_dupCwd (hk : Kept s) (hj : j < nproc) (hlive : (s.proc j).state ≠ .unused)
    (hnone : (s.proc j).cwd = none) :
    wp A (dupCwd i j) ⟨fun _ s' => ∃ c, Takes j { s.proc j with cwd := c } s s', E,
      fun _ => True⟩ s := by
  unfold dupCwd modifyProc
  rw [wp_get_bind]
  split
  · exact wp_panic.mpr trivial
  · rename_i ip _
    refine (wp_onFs (d := fun _ => point (some ip)) (wp_idup ip)).bind fun _ s₁ h₁ =>
      wp_modify.mpr ⟨some ip, ?_⟩
    rw [h₁.proc]
    refine .store hj (hk.congr h₁.file) h₁.proc ?_ ?_
    · rw [h₁.slack, inodes_cwd hlive, hnone, point_none]
      abel
    · rw [h₁.fileSlack]
      show _ = _ + (s.proc j).files - _
      rw [add_sub_cancel_right]

/-- **What a stale `exec_ip` counts for** is made up for only if the
caller has an executable itself. -/
theorem wp_dupExec (hk : Kept s) (hj : j < nproc) (hlive : (s.proc j).state ≠ .unused)
    (hexec : (s.proc j).execIp = none ∨ (s.proc i).execIp ≠ none) :
    wp A (dupExec i j) ⟨fun _ s' => s'.slack = s.slack + point (s.proc j).execIp ∧
        s'.fileSlack = s.fileSlack ∧ Kept s' ∧
        ∃ e, s'.proc = Function.update s.proc j { s.proc j with execIp := e },
      E, fun _ => True⟩ s := by
  unfold dupExec modifyProc
  rw [wp_get_bind]
  split
  · rename_i hnone
    have hj : (s.proc j).execIp = none := hexec.resolve_right fun h => h hnone
    refine wp.ret ⟨?_, rfl, hk, (s.proc j).execIp, by rw [Function.update_eq_self]⟩
    rw [hj, point_none, add_zero]
  · rename_i ip _
    refine (wp_onFs (d := fun _ => point (some ip)) (wp_idup ip)).bind fun _ s₁ h₁ =>
      wp_modify.mpr ⟨?_, ?_, (hk.congr h₁.file).congr rfl, some ip, ?_⟩
    · rw [h₁.proc, slack_setProc hj, h₁.slack, inodes_execIp hlive, h₁.proc]
      abel
    · rw [h₁.proc, fileSlack_setProc hj, h₁.fileSlack, h₁.proc]
      show _ + (s.proc j).files - (s.proc j).files = _
      rw [add_sub_cancel_right]
    · rw [h₁.proc]
      show Function.update s₁.proc j _ = _
      rw [h₁.proc]

/-- Slot `j` as `allocproc` has marked it: `exec_ip` of the last owner is
a pointer without a reference. -/
structure Marked (s s₁ : World) (j : Nat) : Prop where
  slack : s₁.slack = -point (s.proc j).execIp
  fileSlack : s₁.fileSlack = 0
  kept : Kept s₁
  slot : s₁.proc j = { s.proc j with pid := s.nextpid, state := .used }
  other : ∀ b, b ≠ j → s₁.proc b = s.proc b
  idle : (s.proc j).Idle
  gone : ∀ b, (s.proc b).state = .unused ∨ (s.proc b).state = .zombie → (s.proc b).Idle

theorem Sound.mark (h : Sound s) (hj : s.freeSlot = some j) :
    Marked s ({ s with nextpid := s.nextpid + 1 }.setProc j
      { s.proc j with pid := s.nextpid, state := .used }) j := by
  obtain ⟨hjn, hun, -⟩ := Table.firstIdx_some hj
  have hun : (s.proc j).state = .unused := by simpa using hun
  have hidle : (s.proc j).Idle := h.gone j (.inl hun)
  have hused : ({ s.proc j with pid := s.nextpid, state := .used } : Task).Idle :=
    ⟨hidle.cwd, hidle.swapFile, hidle.ofile⟩
  refine ⟨?_, ?_, h.kept.congr rfl, setProc_proc_self _ _ _, fun b hb => setProc_proc_ne _ hb _, hidle,
    h.gone⟩
  · rw [slack_setProc hjn, hused.inodes fun hc => by cases hc]
    show s.slack + (s.proc j).inodes - point (s.proc j).execIp = _
    rw [h.slack, Task.inodes, if_pos hun, add_zero, zero_sub]
  · rw [fileSlack_setProc hjn, hused.files]
    show s.fileSlack + (s.proc j).files - 0 = 0
    rw [h.fileSlack, hidle.files, add_zero, sub_zero]

section
variable {s₁ : World} (h : Marked s s₁ j) (hj : j < nproc)
include h

theorem Marked.live : (s₁.proc j).state ≠ .unused := by
  rw [h.slot]
  exact fun hc => by cases hc

theorem Marked.idle_slot : (s₁.proc j).Idle := by
  rw [h.slot]
  exact ⟨h.idle.cwd, h.idle.swapFile, h.idle.ofile⟩

/-- Only slot `j` has changed. -/
theorem Marked.gone_of {s' : World} (hother : ∀ b, b ≠ j → s'.proc b = s₁.proc b)
    (hslot : (s'.proc j).state = .runnable ∨ (s'.proc j).Idle) (b : Nat)
    (hb : (s'.proc b).state = .unused ∨ (s'.proc b).state = .zombie) : (s'.proc b).Idle := by
  rcases eq_or_ne b j with rfl | hne
  · refine hslot.resolve_left fun hr => ?_
    rw [hr] at hb
    rcases hb with hb | hb <;> cases hb
  · rw [hother b hne, h.other b hne] at hb ⊢
    exact h.gone b hb

include hj

/-- Memory ran out. -/
theorem Marked.sound_freeproc (hexec : (s.proc j).execIp = none) :
    wp A (freeproc j) ⟨fun _ s' => Sound s', E, fun _ => True⟩ s₁ := by
  have hexec₁ : (s₁.proc j).execIp = none := by rw [h.slot]; exact hexec
  refine (wp_freeproc hj).weaken fun _ s' hs' => ?_
  obtain ⟨hslack, hfiles, hfile, hproc⟩ := hs'
  refine ⟨?_, ?_, h.kept.congr hfile, h.gone_of (fun b hb => ?_) (.inr ?_)⟩
  · rw [hslack, h.slack, h.idle_slot.inodes h.live, hexec, hexec₁, point_none]
    simp
  · rw [hfiles, h.fileSlack, h.idle_slot.files, add_zero]
  · rw [hproc, Function.update_of_ne hb]
  · rw [hproc, Function.update_self]
    exact ⟨h.idle_slot.cwd, h.idle_slot.swapFile, h.idle_slot.ofile⟩

/-- The child gets its references. -/
theorem Marked.sound_forkRefs (hij : i ≠ j)
    (hexec : (s.proc j).execIp = none ∨ (s.proc i).execIp ≠ none) :
    wp A (do
        Prog.upTo (dupOfile i j) nofile
        dupCwd i j
        dupExec i j
        modifyProc j fun p => { p with parent := some i, state := .runnable }
        pure true) ⟨fun _ s' => Sound s', E, fun _ => True⟩ s₁ := by
  refine (wp_dupOfiles h.kept hj h.live h.idle_slot).bind fun _ s₂ ⟨o, h₂⟩ => ?_
  have hlive₂ : (s₂.proc j).state ≠ .unused := by rw [h₂.self]; exact h.live
  refine (wp_dupCwd h₂.kept hj hlive₂ (by rw [h₂.self]; exact h.idle_slot.cwd)).bind
    fun _ s₃ ⟨c, h₃⟩ => ?_
  rw [h₂.self] at h₃
  have h₃ := h₂.trans h₃
  have hexec₃ : (s₃.proc j).execIp = (s.proc j).execIp := by rw [h₃.self, h.slot]
  have hlive₃ : (s₃.proc j).state ≠ .unused := by rw [h₃.self]; exact h.live
  refine (wp_dupExec h₃.kept hj hlive₃ ?_).bind fun _ s₄ h₄ => ?_
  · rw [hexec₃, h₃.other hij, h.other i hij]
    exact hexec
  obtain ⟨hslack, hfiles, hk₄, e, hproc⟩ := h₄
  have hp₄ : s₄.proc j = { s₃.proc j with execIp := e } := by rw [hproc, Function.update_self]
  have hlive₄ : (s₄.proc j).state ≠ .unused := by rw [hp₄]; exact hlive₃
  unfold modifyProc
  rw [wp_modify_bind]
  refine wp.ret ⟨?_, ?_, hk₄.congr rfl, h.gone_of (fun b hb => ?_) (.inl ?_)⟩
  · have hsame : ({ s₄.proc j with parent := some i, state := .runnable } : Task).inodes =
        (s₄.proc j).inodes := by
      simp only [Task.inodes, if_neg hlive₄]
      rfl
    rw [slack_setProc hj, hsame, hslack, hexec₃, h₃.slack, h.slack]
    simp
  · have hsame : ({ s₄.proc j with parent := some i, state := .runnable } : Task).files =
        (s₄.proc j).files := by
      simp only [Task.files, if_neg hlive₄]
      rfl
    rw [fileSlack_setProc hj, hsame, hfiles, h₃.fileSlack, h.fileSlack]
    simp
  · rw [setProc_proc_ne _ hb, hproc, Function.update_of_ne hb, h₃.other hb]
  · rw [setProc_proc_self]

end

/-- **`kfork` leaves no slack**, if the slot it takes has no stale
`exec_ip`, or if it succeeds for a process with an executable. -/
theorem sound_kfork (h : Sound s) (a : ForkAnswers)
    (hcond : ∀ j, s.freeSlot = some j → (s.proc j).execIp = none ∨
      (a.trapframe = true ∧ a.pagetable = true ∧ a.uvmcopy = true) ∧ (s.proc i).execIp ≠ none)
    (hlive : (s.proc i).state ≠ .unused) :
    wp A (kfork i a) ⟨fun _ s' => Sound s', E, fun _ => True⟩ s := by
  unfold kfork allocproc
  rw [wp_bind, wp_get_bind]
  cases hfree : s.freeSlot with
  | none => exact wp_pure.mpr (wp_pure.mpr h)
  | some j =>
      obtain ⟨hj, hun, -⟩ := Table.firstIdx_some hfree
      have hij : i ≠ j := by
        rintro rfl
        exact hlive (by simpa using hun)
      have hmark := h.mark hfree
      have hfail : a.trapframe = false ∨ a.pagetable = false ∨ a.uvmcopy = false →
          (s.proc j).execIp = none := by
        intro hf
        refine (hcond j hfree).resolve_right fun hok => ?_
        simp [hok.1] at hf
      dsimp only
      unfold modifyProc
      rw [wp_modify_bind, wp_modify_bind]
      split
      · rename_i htf
        exact (hmark.sound_freeproc hj (hfail (.inl htf))).bind fun _ _ hs =>
          wp_pure.mpr (wp_pure.mpr hs)
      split
      · rename_i hpt
        exact (hmark.sound_freeproc hj (hfail (.inr (.inl hpt)))).bind fun _ _ hs =>
          wp_pure.mpr (wp_pure.mpr hs)
      refine wp_pure.mpr ?_
      dsimp only
      split
      · rename_i hcopy
        exact (hmark.sound_freeproc hj (hfail (.inr (.inr hcopy)))).bind fun _ _ hs => wp.ret hs
      · exact hmark.sound_forkRefs hj hij ((hcond j hfree).imp_right fun hok => hok.2)

/-! ## Exec -/

/-- `iput` leaves the lock alone. -/
theorem wp_iput_locked {t : Icache} {ip : Nat} (h : (t.inode ip).locked = false) :
    wp A (iput ip) ⟨fun _ t' => (t'.inode ip).locked = false, fun _ => False, fun _ => True⟩ t := by
  have hset : ∀ (g : Node → Node), (∀ m, (g m).locked = m.locked) → ∀ {t : Icache},
      (t.inode ip).locked = false → wp A (modifyInode ip g) ⟨fun _ t' => (t'.inode ip).locked = false,
        fun _ => False, fun _ => True⟩ t := fun g hg t ht => by
    refine wp_modify.mpr ?_
    show ((t.setInode ip (g (t.inode ip))).inode ip).locked = false
    simp [Icache.setInode, hg, ht]
  have hupdate : ∀ {t : Icache}, (t.inode ip).locked = false → wp A (iupdate ip)
      ⟨fun _ t' => (t'.inode ip).locked = false, fun _ => False, fun _ => True⟩ t := fun {t} ht => by
    unfold iupdate
    rw [wp_modify_bind]
    exact wp_logWrite.weaken fun _ t' h' => by rw [h']; exact ht
  unfold iput itrunc
  rw [wp_get_bind, wp_bind, wp_tell]
  intro _
  dsimp only
  split
  · split
    · exact wp_panic.mpr trivial
    · refine (hupdate h).bind fun _ t₁ h₁ => ?_
      refine (hset (fun m => { m with type := .free }) (fun _ => rfl) h₁).bind fun _ t₂ h₂ => ?_
      refine (hupdate h₂).bind fun _ t₃ h₃ => ?_
      refine (hset (fun m => { m with valid := false }) (fun _ => rfl) h₃).bind fun _ t₄ h₄ => ?_
      exact hset (fun m => { m with ref := m.ref - 1 }) (fun _ => rfl) h₄
  · exact hset (fun m => { m with ref := m.ref - 1 }) (fun _ => rfl) h

/-- After `iunlockput` the lock is free. -/
theorem wp_iunlockput_locked {t : Icache} (ip : Nat) :
    wp A (iunlockput ip) ⟨fun _ t' => (t'.inode ip).locked = false, fun _ => False,
      fun _ => True⟩ t := by
  have hunlock : wp A (iunlock ip) ⟨fun _ t' => (t'.inode ip).locked = false, fun _ => False,
      fun _ => True⟩ t := by
    unfold iunlock modifyInode
    rw [wp_get_bind]
    split
    · exact wp_panic.mpr trivial
    · refine wp_modify.mpr ?_
      simp [Icache.setInode]
  exact hunlock.bind fun _ _ h => wp_iput_locked h

theorem wp_onFs_post {x : IProg α} {Q : α → Icache → Prop}
    (h : wp A x ⟨Q, fun _ => False, fun _ => True⟩ s.fs) :
    wp A (onFs x) ⟨fun a s' => Q a s'.fs, E, fun _ => True⟩ s :=
  wp_zoom.mpr (h.mono (fun _ _ h => h) (fun _ h => h.elim) fun _ h => h)

/-- Without a file structure `kexec` does not come back: its second
`iunlock` panics. -/
theorem wp_execTwice (ip : Nat) {Q : Bool → World → Prop} :
    wp A (do onFs (iunlockput ip); onFs endOp; execBad ip) ⟨Q, E, fun _ => True⟩ s := by
  refine (wp_onFs_post (wp_iunlockput_locked ip)).bind fun _ s₁ h₁ => ?_
  have hend : wp A endOp ⟨fun _ t' => (t'.inode ip).locked = false, fun _ => False,
      fun _ => True⟩ s₁.fs := by
    unfold endOp
    rw [wp_get_bind, wp_bind, wp_tell]
    exact fun _ => wp_modify.mpr h₁
  refine (wp_onFs_post hend).bind fun _ s₂ h₂ => ?_
  have hstop : wp A (iunlockput ip) ⟨fun _ _ => False, fun _ => False, fun _ => True⟩ s₂.fs := by
    unfold iunlockput iunlock
    rw [wp_bind, wp_get_bind, if_pos (.inl h₂)]
    exact wp_panic.mpr trivial
  exact (wp_onFs_post hstop).bind fun _ _ h => h.elim

/-- `bad:`, or the end of the first phase. -/
theorem sound_release {ip : Nat} (h : Holding (point (some ip)) s) :
    wp A (onFs (iunlockput ip)) ⟨fun _ s' => Sound s' ∧ s'.proc = s.proc, E, fun _ => True⟩ s := by
  refine (wp_onFs (d := fun _ => -point (some ip)) ((wp_iunlockput ip).weaken fun _ t ht => ?_)).weaken
    fun _ s₁ h₁ => ⟨?_, h₁.proc⟩
  · rw [ht, sub_eq_add_neg]
  · have h' := h.fsOnly h₁
    rwa [add_neg_cancel] at h'

theorem sound_execBad {ip : Nat} (h : Holding (point (some ip)) s) :
    wp A (execBad ip) ⟨fun _ s' => Sound s', E, fun _ => True⟩ s := by
  unfold execBad
  refine (sound_release h).bind fun _ s₁ h₁ => ?_
  exact (wp_onFs_same wp_endOp).bind fun _ s₂ h₂ => wp.ret (h₁.1.fsSame h₂)

theorem sound_copyArgs (hi : i < nproc) (args : List CopyAnswers) :
    ∀ {s : World}, Sound s → (s.proc i).state ≠ .unused →
      wp A (copyArgs i args) ⟨fun _ s' => Sound s', Sound, fun _ => True⟩ s := by
  induction args with
  | nil => exact fun h _ => wp.ret h
  | cons a rest ih =>
      intro s h hlive
      unfold copyArgs
      split
      · exact wp.ret h
      · refine (sound_copyout h hi hlive a).bind fun r s' h' => ?_
        split
        · exact ih h'.1 (by rwa [h'.2])
        · exact wp.ret h'.1

/-- A pointer of the live process `i` changes. -/
theorem Holding.setProc {d d' : Nat → Int} (h : Holding d s) (hi : i < nproc) {p : Task}
    (hp : p.state = .runnable) (hslack : d' = d + (s.proc i).inodes - p.inodes)
    (hfiles : p.files = (s.proc i).files) : Holding d' (s.setProc i p) := by
  refine ⟨?_, ?_, h.kept.congr rfl, fun j hj => ?_⟩
  · rw [slack_setProc hi, h.slack, hslack]
  · rw [fileSlack_setProc hi, h.fileSlack, hfiles, zero_add, sub_self]
  · rcases eq_or_ne j i with rfl | hne
    · rw [setProc_proc_self, hp] at hj
      rcases hj with hj | hj <;> cases hj
    · rw [setProc_proc_ne _ hne] at hj ⊢
      exact h.gone j hj

/-- The executable is held by a local variable, and `exec_ip` is null. -/
theorem sound_execLoad {ip : Nat} (h : Holding (point (some ip)) s) (hi : i < nproc)
    (hrun : (s.proc i).state = .runnable) (hexec : (s.proc i).execIp = none) (a : ExecAnswers) :
    wp A (execLoad i ip a) ⟨fun _ s' => Sound s', Sound, fun _ => True⟩ s := by
  unfold execLoad modifyProc
  refine (wp_onFs_same (wp_ilock ip)).bind fun _ s₁ h₁ => ?_
  split
  · exact sound_execBad (h.fsSame h₁)
  refine (wp_onFs (d := fun _ => point (some ip)) (wp_idup ip)).bind fun _ s₂ h₂ => ?_
  have hproc : s₂.proc = s.proc := h₂.proc.trans h₁.proc
  rw [wp_modify_bind, hproc]
  have h₃ : Holding (point (some ip)) (s₂.setProc i { s.proc i with execIp := some ip }) := by
    refine ((h.fsSame h₁).fsOnly h₂).setProc hi hrun ?_ (by rw [hproc]; rfl)
    have hlive : (s.proc i).state ≠ .unused := by rw [hrun]; exact fun hc => by cases hc
    rw [hproc, inodes_execIp hlive (some ip), hexec, point_none]
    abel
  split
  · exact sound_execBad h₃
  refine (sound_release h₃).bind fun _ s₄ h₄ => ?_
  refine (wp_onFs_same wp_endOp).bind fun _ s₅ h₅ => ?_
  split
  · exact wp.ret (h₄.1.fsSame h₅)
  · refine sound_copyArgs hi a.args (h₄.1.fsSame h₅) ?_
    rw [h₅.proc, h₄.2, setProc_proc_self]
    show (s.proc i).state ≠ .unused
    rw [hrun]
    exact fun hc => by cases hc

theorem sound_execOpen (h : Sound s) (hi : i < nproc) (hrun : (s.proc i).state = .runnable)
    (hexec : (s.proc i).execIp = none) (path : Path) (a : ExecAnswers) :
    wp A (execOpen i path a) ⟨fun _ s' => Sound s', Sound, fun _ => True⟩ s := by
  unfold execOpen
  refine (wp_onFs_same wp_beginOp).bind fun _ s₁ h₁ => ?_
  rw [wp_get_bind]
  refine (wp_onFs (d := point) (wp_namex _ path false)).bind fun r s₂ h₂ => ?_
  have hproc : s₂.proc = s.proc := h₂.proc.trans h₁.proc
  have h₃ := (h.fsSame h₁).fsOnly h₂
  rw [zero_add] at h₃
  split
  · rw [point_none] at h₃
    exact (wp_onFs_same wp_endOp).bind fun _ s₄ h₄ => wp.ret (h₃.fsSame h₄)
  · exact sound_execLoad h₃ hi (by rwa [hproc]) (by rwa [hproc]) a

theorem wp_filealloc :
    wp A filealloc ⟨fun r s' => (r = none ∧ s' = s) ∨ ∃ f, r = some f ∧ f < nfile ∧
      (s.file f).ref = 0 ∧ s' = s.setFile f { s.file f with ref := 1 }, E, fun _ => True⟩ s := by
  unfold filealloc modifyFile
  rw [wp_get_bind]
  split
  · exact wp.ret (.inl ⟨rfl, rfl⟩)
  · rename_i f hf
    obtain ⟨hlt, hzero, -⟩ := Table.firstIdx_some hf
    rw [wp_modify_bind]
    exact wp.ret (.inr ⟨f, rfl, hlt, by simpa using hzero, rfl⟩)

/-- **The swap file is open**: the file has the reference to its inode,
and the process the one to the file. -/
theorem Holding.openSwap {s₁ s₂ : World} {ip f : Nat} (h : Holding (point (some ip)) s) (hi : i < nproc)
    (hrun : (s.proc i).state = .runnable) (hswap : (s.proc i).swapFile = none) (hf : f < nfile)
    (hzero : (s.file f).ref = 0) (hs₁ : s₁ = s.setFile f { s.file f with ref := 1 })
    (hs₂ : s₂ = s₁.setProc i { s₁.proc i with swapFile := some f }) :
    Sound (s₂.setFile f { s₂.file f with type := .inode, ip := ip }) := by
  have hlive : (s.proc i).state ≠ .unused := by rw [hrun]; exact fun hc => by cases hc
  have htype := h.kept.idle f hzero
  have hproc₁ : s₁.proc = s.proc := by rw [hs₁]; rfl
  have hslack₁ : s₁.slack = point (some ip) := by
    rw [hs₁, slack_setFile hf, h.slack]
    simp [File.inodes, htype]
  have hfiles₁ : s₁.fileSlack = point (some f) := by
    rw [hs₁, fileSlack_setFile (k := 1) (by simp [hzero]), h.fileSlack]
    funext a
    simp
  have hk₁ : Kept s₁ := hs₁ ▸ h.kept.setFile hf fun h0 => by cases h0
  rw [hproc₁] at hs₂
  have hfile₂ : s₂.file f = { s.file f with ref := 1 } := by
    simp [hs₂, hs₁, World.setFile, World.setProc]
  have hslack₂ : s₂.slack = point (some ip) := by
    rw [hs₂, slack_setProc hi, hslack₁, hproc₁]
    show _ + (s.proc i).inodes - (s.proc i).inodes = _
    rw [add_sub_cancel_right]
  have hfiles₂ : s₂.fileSlack = 0 := by
    rw [hs₂, fileSlack_setProc hi, hfiles₁, hproc₁, files_swapFile hlive (some f), hswap, point_none]
    abel
  have hk₂ : Kept s₂ := hs₂ ▸ hk₁.congr rfl
  rw [hfile₂]
  refine ⟨?_, ?_, hk₂.setFile hf (fun h0 => by cases h0), fun j hj => ?_⟩
  · rw [slack_setFile hf, hslack₂, hfile₂]
    simp [File.inodes, htype]
  · rw [fileSlack_setFile (k := 0) (by rw [hfile₂]; rfl), hfiles₂]
    funext a
    simp
  · change (s₂.proc j).state = .unused ∨ (s₂.proc j).state = .zombie at hj
    change (s₂.proc j).Idle
    rw [hs₂] at hj ⊢
    rcases eq_or_ne j i with rfl | hne
    · rw [setProc_proc_self] at hj
      change (s.proc j).state = .unused ∨ (s.proc j).state = .zombie at hj
      rw [hrun] at hj
      rcases hj with hj | hj <;> cases hj
    · rw [setProc_proc_ne _ hne, hproc₁] at hj ⊢
      exact h.gone j hj

/-- **`kexec` leaves no slack**, if it has no executable and no swap file
to overwrite. -/
theorem sound_kexec (h : Sound s) (hi : i < nproc) (hrun : (s.proc i).state = .runnable)
    (hexec : (s.proc i).execIp = none) (hswap : (s.proc i).swapFile = none) (path : Path)
    (a : ExecAnswers) :
    wp A (kexec i path a) ⟨fun _ s' => Sound s', Sound, fun _ => True⟩ s := by
  unfold kexec modifyProc modifyFile
  rw [wp_get_bind]
  refine (wp_onFs_same wp_beginOp).bind fun _ s₁ h₁ => ?_
  refine (wp_onFs (d := point) (wp_create _ a.dirlink)).bind fun r s₂ h₂ => ?_
  have hproc : s₂.proc = s.proc := h₂.proc.trans h₁.proc
  have h₃ := (h.fsSame h₁).fsOnly h₂
  rw [zero_add] at h₃
  split
  · rw [point_none] at h₃
    exact (wp_onFs_same wp_endOp).bind fun _ s₄ h₄ => wp.ret (h₃.fsSame h₄)
  rename_i ip
  refine wp_filealloc.bind fun r s₄ hr => ?_
  rw [wp_modify_bind]
  rcases hr with ⟨rfl, -⟩ | ⟨f, rfl, hf, hzero, rfl⟩
  · exact wp_execTwice ip
  · dsimp only
    rw [wp_modify_bind]
    have hopen := h₃.openSwap hi (by rwa [hproc]) (by rwa [hproc]) hf hzero rfl rfl
    refine (wp_onFs_same (wp_iunlock ip)).bind fun _ s₅ h₅ => ?_
    refine (wp_onFs_same wp_endOp).bind fun _ s₆ h₆ => ?_
    have hslot : s₆.proc i = { s.proc i with swapFile := some f } := by
      rw [h₆.proc, h₅.proc, ← hproc]
      exact setProc_proc_self _ _ _
    exact sound_execOpen ((hopen.fsSame h₅).fsSame h₆) hi (by rw [hslot]; exact hrun)
      (by rw [hslot]; exact hexec) path a

end

end OsSuite.Xv6.Life
