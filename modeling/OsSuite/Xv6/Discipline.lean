import OsSuite.Xv6.Life

/-!
# Discipline — transactions and locks along every path

`Tidy L n s`: the running process has `n` transactions open and holds the
locks of the inodes `L`. Each function of `Inodes` and `Life` is given
its effect on `L` and `n`; on the way every `end_op` closes a transaction
that is open, every `iput` happens inside one, and neither
`panic("iunlock")` nor `panic("log_write outside of trans")` is reached.

Two places break this: `kexec` cleans up twice when there is no file
structure left, and `freeproc` drops `exec_ip` in no transaction at all.
-/

namespace OsSuite.Xv6.Life

/-- The event happens inside a transaction of the running process. -/
def Event.Inside : Event → Prop
  | .endOp ops => 0 < ops
  | .iput _ ops => 0 < ops

/-- A message other than the two that broken discipline leads to. -/
def Fine (m : String) : Prop := m ≠ "iunlock" ∧ m ≠ "log_write outside of trans"

structure Tidy (L : List Nat) (n : Int) (s : Icache) : Prop where
  ops : s.ops = n
  held : ∀ ip, (s.inode ip).locked = true ↔ ip ∈ L
  ref : ∀ ip ∈ L, 1 ≤ (s.inode ip).ref

section
variable {L L' : List Nat} {n : Int} {s : Icache} {ip : Nat}

theorem Tidy.setInode (h : Tidy L n s) {m : Node} (hl : m.locked = (s.inode ip).locked)
    (hr : ip ∈ L → 1 ≤ m.ref) : Tidy L n (s.setInode ip m) := by
  refine ⟨h.ops, fun a => ?_, fun a ha => ?_⟩
  · rcases eq_or_ne a ip with rfl | hne
    · simp only [Icache.setInode, Function.update_self, hl]
      exact h.held a
    · simp only [Icache.setInode, Function.update_of_ne hne]
      exact h.held a
  · rcases eq_or_ne a ip with rfl | hne
    · simp only [Icache.setInode, Function.update_self]
      exact hr ha
    · simp only [Icache.setInode, Function.update_of_ne hne]
      exact h.ref a ha

/-- Fields that `Tidy` does not speak about. -/
theorem Tidy.congr (h : Tidy L n s) {t : Icache} (ho : t.ops = s.ops) (hi : t.inode = s.inode) :
    Tidy L n t := by
  refine ⟨ho.trans h.ops, fun a => ?_, fun a ha => ?_⟩
  · rw [hi]
    exact h.held a
  · rw [hi]
    exact h.ref a ha

theorem Tidy.unlocked (h : Tidy L n s) (hip : ip ∉ L) : (s.inode ip).locked = false := by
  rw [← Bool.not_eq_true, h.held]
  exact hip

/-! ## Transactions -/

theorem tidy_beginOp (h : Tidy L n s) :
    sure Event.Inside beginOp ⟨fun _ s' => Tidy L (n + 1) s', fun _ => False, fun _ => False⟩ s := by
  unfold beginOp
  rw [sure_modify]
  exact ⟨congrArg (· + 1) h.ops, h.held, h.ref⟩

theorem tidy_endOp (h : Tidy L n s) (hn : 0 < n) :
    sure Event.Inside endOp ⟨fun _ s' => Tidy L (n - 1) s', fun _ => False, fun _ => False⟩ s := by
  unfold endOp
  simp only [sure_bind, sure_get, sure_tell, sure_modify]
  refine ⟨⟨congrArg (· - 1) h.ops, h.held, h.ref⟩, ?_⟩
  show 0 < s.ops
  rw [h.ops]
  exact hn

theorem tidy_logWrite (h : Tidy L n s) (hn : 0 < n) :
    sure Event.Inside logWrite ⟨fun _ s' => Tidy L n s', fun _ => False, fun _ => False⟩ s := by
  unfold logWrite
  simp only [sure_bind, sure_get]
  have hops := h.ops
  rw [if_neg (by omega)]
  exact sure_pure.mpr h

/-! ## References and locks -/

/-- A reference more; a locked inode then has at least two. -/
theorem tidy_iget (h : Tidy L n s) (inum : Nat) :
    sure Event.Inside (iget inum) ⟨fun ip s' => Tidy L n s' ∧ (ip ∈ L → 2 ≤ (s'.inode ip).ref),
      fun _ => False, Fine⟩ s := by
  unfold iget modifyInode
  simp only [sure_bind, sure_get]
  split
  · rename_i ip hip
    obtain ⟨-, hpos, -⟩ := Table.firstIdx_some hip
    simp only [Bool.and_eq_true, decide_eq_true_eq] at hpos
    have hpos := hpos.1
    simp only [sure_bind, sure_modify, sure_pure]
    refine ⟨h.setInode rfl fun _ => ?_, fun _ => ?_⟩
    · show 1 ≤ (s.inode ip).ref + 1
      omega
    · simp only [Icache.setInode, Function.update_self]
      omega
  · split
    · exact sure_panic.mpr ⟨by decide, by decide⟩
    · rename_i ip hip
      obtain ⟨-, hzero, -⟩ := Table.firstIdx_some hip
      have hzero : (s.inode ip).ref = 0 := by simpa using hzero
      -- an inode without references is not locked
      have hnot : ip ∉ L := fun hmem => by
        have := h.ref ip hmem
        omega
      simp only [sure_bind, sure_modify, sure_pure]
      exact ⟨h.setInode rfl fun hmem => absurd hmem hnot, fun hmem => absurd hmem hnot⟩

theorem tidy_idup (h : Tidy L n s) (ip : Nat) :
    sure Event.Inside (idup ip) ⟨fun _ s' => Tidy L n s', fun _ => False, fun _ => False⟩ s := by
  unfold idup modifyInode
  rw [sure_modify]
  refine h.setInode rfl fun hmem => ?_
  have := h.ref ip hmem
  show 1 ≤ (s.inode ip).ref + 1
  omega

theorem tidy_ilock (h : Tidy L n s) (ip : Nat) :
    sure Event.Inside (ilock ip) ⟨fun _ s' => Tidy (ip :: L) n s' ∧ ip ∉ L, fun _ => False, Fine⟩ s := by
  unfold ilock modifyInode
  simp only [sure_bind, sure_get]
  split
  · exact sure_panic.mpr ⟨by decide, by decide⟩
  · rename_i href
    split
    · exact sure_panic.mpr ⟨by decide, by decide⟩
    · rename_i hfree
      have hnot : ip ∉ L := fun hmem => hfree ((h.held ip).mpr hmem)
      have hlock : Tidy (ip :: L) n (s.setInode ip { s.inode ip with locked := true }) := by
        refine ⟨h.ops, fun a => ?_, fun a ha => ?_⟩
        · rcases eq_or_ne a ip with rfl | hne
          · simp [Icache.setInode]
          · simp only [Icache.setInode, Function.update_of_ne hne, List.mem_cons, hne, false_or]
            exact h.held a
        · rcases eq_or_ne a ip with rfl | hne
          · simp only [Icache.setInode, Function.update_self]
            omega
          · simp only [Icache.setInode, Function.update_of_ne hne]
            exact h.ref a ((List.mem_cons.mp ha).resolve_left hne)
      simp only [sure_bind, sure_modify]
      split
      · exact sure_pure.mpr ⟨hlock, hnot⟩
      · simp only [sure_bind, sure_modify]
        split
        · exact sure_panic.mpr ⟨by decide, by decide⟩
        · exact sure_pure.mpr ⟨hlock.setInode rfl (hlock.ref ip), hnot⟩

/-- `L'` is `L` without `ip`. -/
theorem tidy_iunlock (h : Tidy L n s) (hip : ip ∈ L) (hL : ∀ a, a ∈ L' ↔ a ∈ L ∧ a ≠ ip) :
    sure Event.Inside (iunlock ip) ⟨fun _ s' => Tidy L' n s', fun _ => False, fun _ => False⟩ s := by
  unfold iunlock modifyInode
  simp only [sure_bind, sure_get]
  have hlocked := (h.held ip).mpr hip
  have href := h.ref ip hip
  rw [if_neg (by rw [hlocked]; simp; omega), sure_modify]
  refine ⟨h.ops, fun a => ?_, fun a ha => ?_⟩
  · rw [hL]
    rcases eq_or_ne a ip with rfl | hne
    · simp [Icache.setInode]
    · simp only [Icache.setInode, Function.update_of_ne hne, ne_eq, hne, not_false_eq_true,
        and_true]
      exact h.held a
  · obtain ⟨ha, hne⟩ := (hL a).mp ha
    simp only [Icache.setInode, Function.update_of_ne hne]
    exact h.ref a ha

theorem tidy_iupdate (h : Tidy L n s) (hn : 0 < n) (ip : Nat) :
    sure Event.Inside (iupdate ip) ⟨fun _ s' => Tidy L n s' ∧ s'.inode = s.inode,
      fun _ => False, fun _ => False⟩ s := by
  unfold iupdate logWrite
  simp only [sure_bind, sure_modify, sure_get]
  have hops := h.ops
  rw [if_neg (by show ¬ (s.others : Int) + s.ops < 1; omega)]
  exact sure_pure.mpr ⟨h.congr rfl rfl, rfl⟩

theorem tidy_iput (h : Tidy L n s) (hn : 0 < n) (hip : ip ∈ L → 2 ≤ (s.inode ip).ref) :
    sure Event.Inside (iput ip) ⟨fun _ s' => Tidy L n s', fun _ => False, fun _ => False⟩ s := by
  have hin : Event.Inside (.iput ip s.ops) := by
    show 0 < s.ops
    rw [h.ops]
    exact hn
  unfold iput
  simp only [sure_bind, sure_get, sure_tell]
  refine ⟨?_, hin⟩
  split
  · rename_i hlast
    -- the last reference: the inode is not locked
    have hnot : ip ∉ L := fun hmem => by
      have := hip hmem
      omega
    rw [if_neg (by rw [h.unlocked hnot]; simp)]
    have hset : ∀ (f : Node → Node), (∀ m, (f m).locked = m.locked) → ∀ {t : Icache}, Tidy L n t →
        sure Event.Inside (modifyInode ip f) ⟨fun _ s' => Tidy L n s', fun _ => False,
          fun _ => False⟩ t := fun f hf t ht =>
      sure_modify.mpr (ht.setInode (hf _) fun hmem => absurd hmem hnot)
    refine (tidy_iupdate h hn ip).andThen fun _ s₁ h₁ => ?_
    refine (hset (fun m => { m with type := .free }) (fun _ => rfl) h₁.1).andThen fun _ s₂ h₂ => ?_
    refine (tidy_iupdate h₂ hn ip).andThen fun _ s₃ h₃ => ?_
    refine (hset (fun m => { m with valid := false }) (fun _ => rfl) h₃.1).andThen fun _ s₄ h₄ => ?_
    exact hset (fun m => { m with ref := m.ref - 1 }) (fun _ => rfl) h₄
  · unfold modifyInode
    rw [sure_modify]
    refine h.setInode rfl fun hmem => ?_
    have := hip hmem
    show 1 ≤ (s.inode ip).ref - 1
    omega

theorem tidy_iunlockput (h : Tidy L n s) (hn : 0 < n) (hip : ip ∈ L)
    (hL : ∀ a, a ∈ L' ↔ a ∈ L ∧ a ≠ ip) :
    sure Event.Inside (iunlockput ip) ⟨fun _ s' => Tidy L' n s', fun _ => False, fun _ => False⟩ s := by
  unfold iunlockput
  refine (tidy_iunlock h hip hL).andThen fun _ s' h' => ?_
  exact tidy_iput h' hn fun hmem => absurd rfl ((hL ip).mp hmem).2

/-- The lock of `ip` alone is held, and released. -/
theorem tidy_unlock (h : Tidy [ip] n s) :
    sure Event.Inside (iunlock ip) ⟨fun _ s' => Tidy [] n s', fun _ => False, fun _ => False⟩ s :=
  tidy_iunlock h (by simp) (by simp)

theorem tidy_release (h : Tidy [ip] n s) (hn : 0 < n) :
    sure Event.Inside (iunlockput ip) ⟨fun _ s' => Tidy [] n s', fun _ => False, fun _ => False⟩ s :=
  tidy_iunlockput h hn (by simp) (by simp)

/-! ## Directories -/

theorem tidy_ialloc (h : Tidy L n s) (hn : 0 < n) (type : FileType) :
    sure Event.Inside (ialloc type) ⟨fun _ s' => Tidy L n s', fun _ => False, Fine⟩ s := by
  unfold ialloc
  rw [sure_get_bind]
  split
  · exact sure_pure.mpr h
  · rename_i k _
    rw [sure_modify_bind]
    have h₁ : Tidy L n { s with disk := Function.update s.disk (k + 1) ⟨type, 0⟩ } :=
      h.congr rfl rfl
    refine (tidy_logWrite h₁ hn).andThen fun _ s' h' => ?_
    exact (tidy_iget h' _).bind fun _ _ h => sure_pure.mpr h.1

theorem tidy_dirlookup (h : Tidy L n s) (dp : Nat) (name : List Char) :
    sure Event.Inside (dirlookup dp name) ⟨fun r s' => Tidy L n s' ∧
        ∀ ip, r = some ip → ip ∈ L → 2 ≤ (s'.inode ip).ref, fun _ => False, Fine⟩ s := by
  unfold dirlookup
  rw [sure_get_bind]
  split
  · exact sure_panic.mpr ⟨by decide, by decide⟩
  · split
    · exact sure_pure.mpr ⟨h, fun _ hr => by cases hr⟩
    · refine (tidy_iget h _).bind fun ip s' h' => sure_pure.mpr ⟨h'.1, fun a ha => ?_⟩
      cases ha
      exact h'.2

theorem tidy_dirlink (h : Tidy L n s) (hn : 0 < n) (dp : Nat) (name : List Char) (inum : Nat)
    (ok : Bool) :
    sure Event.Inside (dirlink dp name inum ok) ⟨fun _ s' => Tidy L n s', fun _ => False, Fine⟩ s := by
  unfold dirlink
  refine (tidy_dirlookup h dp name).bind fun r s' h' => ?_
  split
  · rename_i ip
    exact (tidy_iput h'.1 hn (h'.2 ip rfl)).andThen fun _ _ h => sure_pure.mpr h
  · refine (tidy_iupdate h'.1 hn dp).andThen fun _ s₂ h₂ => ?_
    split
    · simp only [sure_bind, sure_modify, sure_pure]
      exact h₂.1.congr rfl rfl
    · exact sure_pure.mpr h₂.1

/-- A lookup holds at most one lock at a time and none at its end. -/
theorem tidy_namexLoop (hn : 0 < n) (parent : Bool) (elems : List (List Char)) :
    ∀ {ip : Nat} {s : Icache}, Tidy [] n s → sure Event.Inside (namexLoop parent elems ip)
      ⟨fun _ s' => Tidy [] n s', fun _ => False, Fine⟩ s := by
  induction elems with
  | nil =>
      intro ip s h
      unfold namexLoop
      split
      · exact (tidy_iput h hn fun hmem => by cases hmem).andThen fun _ _ h => sure_pure.mpr h
      · exact sure_pure.mpr h
  | cons name rest ih =>
      intro ip s h
      unfold namexLoop
      refine (tidy_ilock h ip).bind fun _ s₁ h₁ => ?_
      rw [sure_get_bind]
      split
      · exact (tidy_release h₁.1 hn).andThen fun _ _ h => sure_pure.mpr h
      · split
        · exact (tidy_unlock h₁.1).andThen fun _ _ h => sure_pure.mpr h
        · refine (tidy_dirlookup h₁.1 ip name).bind fun r s₂ h₂ => ?_
          split
          · exact (tidy_release h₂.1 hn).andThen fun _ _ h => sure_pure.mpr h
          · exact (tidy_release h₂.1 hn).andThen fun _ _ h => ih h

theorem tidy_namex (h : Tidy [] n s) (hn : 0 < n) (cwd : Option Nat) (path : Path) (parent : Bool) :
    sure Event.Inside (namex cwd path parent) ⟨fun _ s' => Tidy [] n s', fun _ => False, Fine⟩ s := by
  unfold namex
  split
  · exact (tidy_iget h rootino).bind fun _ _ h => tidy_namexLoop hn parent _ h.1
  · split
    · exact sure_panic.mpr ⟨by decide, by decide⟩
    · exact (tidy_idup h _).andThen fun _ _ h => tidy_namexLoop hn parent _ h

/-- Of two locks, one is released. -/
theorem mem_pair_ne {a b : Nat} (hne : a ≠ b) (x : Nat) : x ∈ [b] ↔ x ∈ [a, b] ∧ x ≠ a := by
  simp only [List.mem_cons, List.not_mem_nil, or_false]
  exact ⟨fun h => ⟨.inr h, fun h' => hne (h'.symm.trans h)⟩, fun h => h.1.resolve_left h.2⟩

theorem tidy_createFail {dp : Nat} (h : Tidy [ip, dp] n s) (hne : ip ≠ dp) (hn : 0 < n) :
    sure Event.Inside (createFail dp ip) ⟨fun r s' => Tidy r.toList n s', fun _ => False,
      fun _ => False⟩ s := by
  unfold createFail modifyInode
  rw [sure_modify_bind]
  have h₁ : Tidy [ip, dp] n (s.setInode ip { s.inode ip with nlink := 0 }) :=
    h.setInode rfl (h.ref ip)
  refine (tidy_iupdate h₁ hn ip).andThen fun _ s₂ h₂ => ?_
  refine (tidy_iunlockput h₂.1 hn (by simp) (mem_pair_ne hne)).andThen fun _ s₃ h₃ => ?_
  exact (tidy_release h₃ hn).andThen fun _ _ h => sure_pure.mpr h

/-- **`create` returns its inode locked**, and holds no other lock. -/
theorem tidy_create (h : Tidy [] n s) (hn : 0 < n) (name : List Char) (ok : Bool) :
    sure Event.Inside (create name ok) ⟨fun r s' => Tidy r.toList n s', fun _ => False, Fine⟩ s := by
  unfold create
  refine (tidy_namex h hn none _ true).bind fun r s₁ h₁ => ?_
  split
  · exact sure_pure.mpr h₁
  rename_i dp
  refine (tidy_ilock h₁ dp).bind fun _ s₂ h₂ => ?_
  refine (tidy_dirlookup h₂.1 dp name).bind fun r s₃ h₃ => ?_
  split
  · -- the name is there
    rename_i ip
    refine (tidy_release h₃.1 hn).andThen fun _ s₄ h₄ => ?_
    refine (tidy_ilock h₄ ip).bind fun _ s₅ h₅ => ?_
    rw [sure_get_bind]
    split
    · exact sure_pure.mpr h₅.1
    · exact (tidy_release h₅.1 hn).andThen fun _ _ h => sure_pure.mpr h
  refine (tidy_ialloc h₃.1 hn .file).bind fun r s₄ h₄ => ?_
  split
  · exact (tidy_release h₄ hn).andThen fun _ _ h => sure_pure.mpr h
  rename_i ip
  refine (tidy_ilock h₄ ip).bind fun _ s₅ h₅ => ?_
  have hne : ip ≠ dp := by simpa using h₅.2
  unfold modifyInode
  rw [sure_modify_bind]
  have h₆ : Tidy [ip, dp] n (s₅.setInode ip { s₅.inode ip with nlink := 1 }) :=
    h₅.1.setInode rfl (h₅.1.ref ip)
  refine (tidy_iupdate h₆ hn ip).andThen fun _ s₇ h₇ => ?_
  rw [sure_get_bind]
  refine (tidy_dirlink h₇.1 hn dp name _ ok).bind fun r s₈ h₈ => ?_
  split
  · have hL : ∀ a, a ∈ [ip] ↔ a ∈ [ip, dp] ∧ a ≠ dp := fun a => by
      rw [mem_pair_ne hne.symm, List.Perm.mem_iff (List.Perm.swap ..)]
    exact (tidy_iunlockput h₈ hn (by simp) hL).andThen fun _ _ h => sure_pure.mpr h
  · exact (tidy_createFail h₈ hne hn).mono (fun _ _ h => h) (fun _ h => h.elim) (fun _ h => h.elim)

end

/-! ## Files and processes -/

/-- No transaction is open and no lock is held. -/
def Settled (s : World) : Prop := Tidy [] 0 s.fs

/-- **Discipline of a path**: every `end_op` and every `iput` is inside a
transaction of the process, all transactions are closed and all locks
released at the end, and the path does not end in one of the two panics. -/
def Disciplined {α : Type} (x : WProg α) (s : World) : Prop :=
  sure Event.Inside x ⟨fun _ s' => Settled s', Settled, Fine⟩ s

section
variable {α : Type} {s : World} {n : Int}

/-- Code of the file system, with what it leaves alone. -/
theorem sure_onFs {x : IProg α} {Q : α → Icache → Prop} {E : World → Prop} {P : String → Prop}
    (h : sure Event.Inside x ⟨Q, fun _ => False, P⟩ s.fs) :
    sure Event.Inside (onFs x) ⟨fun a s' => Q a s'.fs ∧ s'.proc = s.proc ∧ s'.file = s.file, E, P⟩ s :=
  sure_zoom.mpr (h.mono (fun _ _ h => ⟨h, rfl, rfl⟩) (fun _ h => h.elim) fun _ h => h)

/-- `begin_op(); iput(ip); end_op();` -/
theorem tidy_putOp (h : Tidy [] n s.fs) (hn : 0 ≤ n) (ip : Nat) :
    sure Event.Inside (onFs (do beginOp; iput ip; endOp)) ⟨fun _ s' => Tidy [] n s'.fs,
      fun _ => False, fun _ => False⟩ s := by
  refine (sure_onFs (Q := fun _ t => Tidy [] n t) ?_).mono (fun _ _ h => h.1) (fun _ h => h)
    (fun _ h => h)
  refine (tidy_beginOp h).andThen fun _ s₁ h₁ => ?_
  refine (tidy_iput h₁ (by omega) fun hmem => by cases hmem).andThen fun _ s₂ h₂ => ?_
  have h₃ := tidy_endOp h₂ (by omega)
  rwa [Int.add_sub_cancel] at h₃

theorem tidy_fileclose (h : Tidy [] n s.fs) (hn : 0 ≤ n) (f : Nat) :
    sure Event.Inside (fileclose f) ⟨fun _ s' => Tidy [] n s'.fs, fun _ => False, Fine⟩ s := by
  unfold fileclose modifyFile
  rw [sure_get_bind]
  dsimp only
  split
  · exact sure_panic.mpr ⟨by decide, by decide⟩
  · split
    · exact sure_modify.mpr h
    · rw [sure_modify_bind]
      split
      · exact (tidy_putOp (s := s.setFile f _) h hn _).mono (fun _ _ h => h) (fun _ h => h)
          fun _ h => h.elim
      · exact sure_pure.mpr h

theorem tidy_closeSwap (h : Settled s) (i : Nat) :
    sure Event.Inside (closeSwap i) ⟨fun _ s' => Settled s', fun _ => False, Fine⟩ s := by
  unfold closeSwap modifyProc
  rw [sure_get_bind]
  split
  · exact sure_pure.mpr h
  · refine (sure_onFs (tidy_beginOp h)).andThen fun _ s₁ h₁ => ?_
    refine (sure_onFs (tidy_iupdate h₁.1 (by omega) _)).andThen fun _ s₂ h₂ => ?_
    refine (tidy_fileclose h₂.1.1 (by omega) _).bind fun _ s₃ h₃ => ?_
    rw [sure_modify_bind]
    exact (sure_onFs (s := s₃.setProc i _) (tidy_endOp h₃ (by omega))).mono (fun _ _ h => h.1)
      (fun _ h => h) fun _ h => h.elim

/-- **`kexit` is disciplined**, whatever the process holds. -/
theorem disciplined_kexit (h : Settled s) (i : Nat) {Q : α → World → Prop} :
    sure Event.Inside (kexit i : WProg α) ⟨Q, Settled, Fine⟩ s := by
  unfold kexit
  rw [sure_get_bind]
  split
  · exact sure_panic.mpr ⟨by decide, by decide⟩
  have hfiles : sure Event.Inside (Prog.upTo (closeOfile i) nofile)
      ⟨fun _ s' => Settled s', Settled, Fine⟩ s := by
    refine sure_upTo (fun _ => Settled) h fun fd s _ h => ?_
    unfold closeOfile modifyProc
    rw [sure_get_bind]
    split
    · exact sure_pure.mpr h
    · refine sure_bind.mpr ((tidy_fileclose h (by omega) _).mono (fun _ s' h' => sure_modify.mpr h')
        (fun _ h => h.elim) fun _ h => h)
  refine hfiles.bind fun _ s₁ h₁ => ?_
  have hswap : sure Event.Inside (closeSwap i) ⟨fun _ s' => Settled s', Settled, Fine⟩ s₁ :=
    (tidy_closeSwap h₁ i).mono (fun _ _ h => h) (fun _ h => h.elim) fun _ h => h
  refine hswap.bind fun _ s₂ h₂ => ?_
  have hcwd : sure Event.Inside (dropCwd i) ⟨fun _ s' => Settled s', Settled, Fine⟩ s₂ := by
    unfold dropCwd modifyProc
    rw [sure_get_bind]
    split
    · exact sure_panic.mpr ⟨by decide, by decide⟩
    · exact (tidy_putOp h₂ (by omega) _).andThen fun _ s₃ h₃ => sure_modify.mpr h₃
  exact hcwd.bind fun _ s₃ h₃ => sure_exit.mpr h₃

/-! ## Faults -/

theorem tidy_swapWritePage (h : Tidy [] 1 s.fs) (i : Nat) (ok : Bool) :
    sure Event.Inside (swapWritePage i ok) ⟨fun _ s' => Tidy [] 1 s'.fs ∧ s'.proc = s.proc,
      Settled, Fine⟩ s := by
  unfold swapWritePage
  rw [sure_get_bind]
  split
  · exact sure_pure.mpr ⟨h, rfl⟩
  · rename_i f _
    have hio : sure Event.Inside
        (do ilock (s.file f).ip; iupdate (s.file f).ip; iunlock (s.file f).ip)
        ⟨fun _ t => Tidy [] 1 t, fun _ => False, Fine⟩ s.fs := by
      refine (tidy_ilock h _).bind fun _ t₁ h₁ => ?_
      refine (tidy_iupdate h₁.1 (by omega) _).andThen fun _ t₂ h₂ => ?_
      exact (tidy_unlock h₂.1).mono (fun _ _ h => h) (fun _ h => h) fun _ h => h.elim
    exact (sure_onFs hio).bind fun _ s' h' => sure_pure.mpr ⟨h'.1, h'.2.1⟩

theorem disciplined_swapReadPage (h : Settled s) (i : Nat) (ok : Bool) :
    sure Event.Inside (swapReadPage i ok) ⟨fun _ s' => Settled s' ∧ s'.proc = s.proc, Settled,
      Fine⟩ s := by
  unfold swapReadPage
  rw [sure_get_bind]
  split
  · exact sure_panic.mpr ⟨by decide, by decide⟩
  · rename_i f _
    have hio : sure Event.Inside
        (do beginOp; ilock (s.file f).ip; iunlock (s.file f).ip; endOp)
        ⟨fun _ t => Tidy [] 0 t, fun _ => False, Fine⟩ s.fs := by
      refine (tidy_beginOp h).andThen fun _ t₁ h₁ => ?_
      refine (tidy_ilock h₁ _).bind fun _ t₂ h₂ => ?_
      refine (tidy_unlock h₂.1).andThen fun _ t₃ h₃ => ?_
      exact (tidy_endOp h₃ (by omega)).mono (fun _ _ h => h) (fun _ h => h) fun _ h => h.elim
    refine (sure_onFs hio).bind fun _ s' h' => ?_
    split
    · exact sure_pure.mpr ⟨h'.1, h'.2.1⟩
    · exact sure_panic.mpr ⟨by decide, by decide⟩

/-- A fault that the process survives leaves the process table alone. -/
theorem disciplined_handlePgfault (h : Settled s) (i : Nat) (f : Fault) :
    sure Event.Inside (handlePgfault i f) ⟨fun _ s' => Settled s' ∧ s'.proc = s.proc, Settled,
      Fine⟩ s := by
  unfold handlePgfault
  split
  · exact disciplined_kexit h i
  · exact disciplined_kexit h i
  · refine (sure_onFs (tidy_beginOp h)).andThen fun _ s₁ h₁ => ?_
    refine (tidy_swapWritePage h₁.1 i _).bind fun r s₂ h₂ => ?_
    refine (sure_onFs (tidy_endOp h₂.1 (by omega))).andThen fun _ s₃ h₃ => ?_
    split
    · exact sure_pure.mpr ⟨h₃.1, h₃.2.1.trans (h₂.2.trans h₁.2.1)⟩
    · exact disciplined_kexit h₃.1 i
  · exact disciplined_swapReadPage h i _
  · exact sure_pure.mpr ⟨h, rfl⟩

theorem disciplined_copyout (h : Settled s) (i : Nat) (a : CopyAnswers) :
    sure Event.Inside (copyout i a) ⟨fun _ s' => Settled s' ∧ s'.proc = s.proc, Settled,
      Fine⟩ s := by
  have hfaults : ∀ (fs : List Fault) {s : World}, Settled s → sure Event.Inside (copyoutFaults i fs)
      ⟨fun _ s' => Settled s' ∧ s'.proc = s.proc, Settled, Fine⟩ s := by
    intro fs
    induction fs with
    | nil => exact fun h => sure_pure.mpr ⟨h, rfl⟩
    | cons f rest ih =>
        intro s h
        unfold copyoutFaults
        refine (disciplined_handlePgfault h i f).bind fun _ s₁ h₁ => ?_
        exact (ih h₁.1).mono (fun _ _ h₂ => ⟨h₂.1, h₂.2.trans h₁.2⟩) (fun _ h => h) fun _ h => h
  unfold copyout
  exact (hfaults a.faults h).bind fun _ s' h' => sure_pure.mpr h'

theorem disciplined_copyStatus (h : Settled s) (i : Nat) (addr : Option CopyAnswers) :
    sure Event.Inside (copyStatus i addr) ⟨fun _ s' => Settled s' ∧ s'.proc = s.proc, Settled,
      Fine⟩ s := by
  unfold copyStatus
  split
  · exact sure_pure.mpr ⟨h, rfl⟩
  · exact disciplined_copyout h i _

/-! ## `freeproc` and its callers -/

/-- **`freeproc` is disciplined only without an executable**: its `iput`
is in no transaction. -/
theorem disciplined_freeproc (h : Settled s) (j : Nat) :
    sure Event.Inside (freeproc j) ⟨fun _ s' => Settled s', Settled, Fine⟩ s ↔
      (s.proc j).execIp = none := by
  unfold freeproc modifyProc
  rw [sure_modify_bind, sure_get_bind]
  have hexec : ((s.setProc j { s.proc j with pid := 0, parent := none, state := .unused }).proc
      j).execIp = (s.proc j).execIp := by simp [World.setProc]
  rw [hexec]
  cases hip : (s.proc j).execIp with
  | none => exact ⟨fun _ => rfl, fun _ => sure_pure.mpr h⟩
  | some ip =>
      refine ⟨fun hs => ?_, fun hn => by cases hn⟩
      unfold putExec onFs iput at hs
      rw [sure_zoom, sure_get_bind, sure_bind, sure_tell] at hs
      have hpos : 0 < s.fs.ops := hs.2
      rw [h.ops] at hpos
      omega

/-- The child that `kwait` frees. -/
def World.Reaps (s : World) (i : Nat) (addr : Option CopyAnswers) (j : Nat) : Prop :=
  s.zombieOf i = some j ∧ ∃ s' w, copyStatus i addr s = .ret true s' w

theorem disciplined_kwait (h : Settled s) (i : Nat) (addr : Option CopyAnswers) :
    Disciplined (kwait i addr) s ↔ ∀ j, s.Reaps i addr j → (s.proc j).execIp = none := by
  have hcopy := disciplined_copyStatus h i addr
  unfold Disciplined kwait
  rw [sure_get_bind]
  split
  · rename_i hnone
    refine ⟨fun _ j hj => ?_, fun _ => sure_pure.mpr h⟩
    cases hnone.symm.trans hj.1
  · rename_i j hj
    constructor
    · rintro hs j' ⟨hj', s', w, hrun⟩
      rw [hj] at hj'
      cases hj'
      obtain ⟨h', hproc⟩ := (hcopy.of_ret hrun).1
      have hfree := hs.after hrun
      rw [if_pos rfl, sure_bind] at hfree
      simp only [sure_pure] at hfree
      rw [← hproc]
      exact (disciplined_freeproc h' j).mp hfree
    · intro hall
      refine hcopy.with_run.bind fun r s' hr => ?_
      split
      · rename_i htrue
        subst htrue
        obtain ⟨⟨h', hproc⟩, w, hrun⟩ := hr
        have hnone := hall j ⟨hj, s', w, hrun⟩
        rw [← hproc] at hnone
        exact ((disciplined_freeproc h' j).mpr hnone).bind fun _ _ h => sure_pure.mpr h
      · exact sure_pure.mpr hr.1.1

/-- Memory runs out somewhere. -/
def ForkAnswers.Fail (a : ForkAnswers) : Prop :=
  a.trapframe = false ∨ a.pagetable = false ∨ a.uvmcopy = false

/-- What `kfork` does to a slot whose memory could not be had. -/
theorem disciplined_giveUp (h : Settled s) (j : Nat) (r : α) :
    sure Event.Inside (do freeproc j; pure r) ⟨fun _ s' => Settled s', Settled, Fine⟩ s ↔
      (s.proc j).execIp = none := by
  rw [sure_bind, ← disciplined_freeproc h j]
  simp only [sure_pure]

/-- The references of the child. -/
theorem disciplined_forkRefs (h : Settled s) (i j : Nat) :
    sure Event.Inside (do
        Prog.upTo (dupOfile i j) nofile
        dupCwd i j
        dupExec i j
        modifyProc j fun p => { p with parent := some i, state := .runnable }
        pure true) ⟨fun _ s' => Settled s', Settled, Fine⟩ s := by
  have hfiles : sure Event.Inside (Prog.upTo (dupOfile i j) nofile)
      ⟨fun _ s' => Settled s', Settled, Fine⟩ s := by
    refine sure_upTo (fun _ => Settled) h fun fd s _ h => ?_
    unfold dupOfile filedup modifyFile modifyProc
    rw [sure_get_bind]
    split
    · exact sure_pure.mpr h
    · rw [sure_bind, sure_get_bind]
      split
      · exact sure_panic.mpr ⟨by decide, by decide⟩
      · exact sure_modify.mpr (sure_modify.mpr h)
  refine hfiles.bind fun _ s₁ h₁ => ?_
  have hcwd : sure Event.Inside (dupCwd i j) ⟨fun _ s' => Settled s', Settled, Fine⟩ s₁ := by
    unfold dupCwd modifyProc
    rw [sure_get_bind]
    split
    · exact sure_panic.mpr ⟨by decide, by decide⟩
    · exact (sure_onFs (tidy_idup h₁ _)).andThen fun _ s' h' => sure_modify.mpr h'.1
  refine hcwd.bind fun _ s₂ h₂ => ?_
  have hexec : sure Event.Inside (dupExec i j) ⟨fun _ s' => Settled s', Settled, Fine⟩ s₂ := by
    unfold dupExec modifyProc
    rw [sure_get_bind]
    split
    · exact sure_pure.mpr h₂
    · exact (sure_onFs (tidy_idup h₂ _)).andThen fun _ s' h' => sure_modify.mpr h'.1
  refine hexec.bind fun _ s₃ h₃ => ?_
  unfold modifyProc
  rw [sure_modify_bind]
  exact sure_pure.mpr h₃

/-- **`kfork` is disciplined unless it fails on a slot with a stale
`exec_ip`.** -/
theorem disciplined_kfork (h : Settled s) (i : Nat) (a : ForkAnswers) :
    Disciplined (kfork i a) s ↔ (a.Fail → ∀ j, s.freeSlot = some j → (s.proc j).execIp = none) := by
  unfold Disciplined kfork allocproc modifyProc
  rw [sure_bind, sure_get_bind]
  cases hfree : s.freeSlot with
  | none =>
      refine ⟨fun _ _ j hj => (by cases hj), fun _ => sure_pure.mpr (sure_pure.mpr h)⟩
  | some j =>
      have hfail : a.Fail → ((s.proc j).execIp = none ↔
          (a.Fail → ∀ j', some j = some j' → (s.proc j').execIp = none)) := fun hf =>
        ⟨fun hn _ j' hj' => by cases hj'; exact hn, fun hall => hall hf j rfl⟩
      dsimp only
      rw [sure_modify_bind, sure_modify_bind]
      -- the slot after `allocproc` has marked it
      generalize hs₁ : World.setProc _ j _ = s₁
      have h₁ : Settled s₁ := hs₁ ▸ h
      have hexec : (s₁.proc j).execIp = (s.proc j).execIp := by simp [← hs₁, World.setProc]
      split
      · rename_i htf
        rw [sure_bind]
        simp only [sure_pure]
        rw [disciplined_freeproc h₁, hexec]
        exact hfail (.inl htf)
      split
      · rename_i hpt
        rw [sure_bind]
        simp only [sure_pure]
        rw [disciplined_freeproc h₁, hexec]
        exact hfail (.inr (.inl hpt))
      rw [sure_pure]
      dsimp only
      split
      · rename_i hcopy
        rw [disciplined_giveUp h₁, hexec]
        exact hfail (.inr (.inr hcopy))
      · rename_i htf hpt hcopy
        refine ⟨fun _ hf => absurd hf ?_, fun _ => disciplined_forkRefs h₁ i j⟩
        exact fun hf => hf.elim htf fun hf => hf.elim hpt hcopy

/-! ## `kexec` -/

/-- `filealloc` finds nothing. -/
def World.FilesFull (s : World) : Prop := ∀ f < nfile, (s.file f).ref ≠ 0

/-- Inside a transaction, `create` finds or makes the swap file. -/
def World.OpensSwap (s : World) (i : Nat) (a : ExecAnswers) : Prop :=
  ∃ ip t w, create (swapName (s.proc i).pid) a.dirlink { s.fs with ops := s.fs.ops + 1 } =
    .ret (some ip) t w

theorem filealloc_full (hfull : s.FilesFull) :
    Table.firstIdx (fun x : File => x.ref == 0) s.file nfile = none := by
  rw [Table.firstIdx_none]
  intro x hx
  obtain ⟨f, hf, rfl⟩ := Table.mem_live.mp hx
  simpa using hfull f hf

theorem disciplined_copyArgs (h : Settled s) (i : Nat) (args : List CopyAnswers) :
    Disciplined (copyArgs i args) s := by
  induction args generalizing s with
  | nil => exact sure_pure.mpr h
  | cons a rest ih =>
      unfold Disciplined copyArgs
      split
      · exact sure_pure.mpr h
      · refine (disciplined_copyout h i a).bind fun r s' h' => ?_
        split
        · exact ih h'.1
        · exact sure_pure.mpr h'.1

/-- The lock of `ip` is held in the one transaction that is open. -/
theorem disciplined_execBad {ip : Nat} (h : Tidy [ip] 1 s.fs) : Disciplined (execBad ip) s := by
  unfold Disciplined execBad
  refine (sure_onFs (tidy_release h (by omega))).andThen fun _ s₁ h₁ => ?_
  exact (sure_onFs (tidy_endOp h₁.1 (by omega))).andThen fun _ s₂ h₂ => sure_pure.mpr h₂.1

theorem disciplined_execLoad (h : Tidy [] 1 s.fs) (i ip : Nat) (a : ExecAnswers) :
    Disciplined (execLoad i ip a) s := by
  unfold Disciplined execLoad modifyProc
  refine (sure_onFs (tidy_ilock h ip)).bind fun _ s₁ h₁ => ?_
  split
  · exact disciplined_execBad h₁.1.1
  refine (sure_onFs (tidy_idup h₁.1.1 ip)).andThen fun _ s₂ h₂ => ?_
  rw [sure_modify_bind]
  split
  · exact disciplined_execBad h₂.1
  refine (sure_onFs (s := s₂.setProc i _) (tidy_release h₂.1 (by omega))).andThen fun _ s₃ h₃ => ?_
  refine (sure_onFs (tidy_endOp h₃.1 (by omega))).andThen fun _ s₄ h₄ => ?_
  split
  · exact sure_pure.mpr h₄.1
  · exact disciplined_copyArgs h₄.1 i a.args

theorem disciplined_execOpen (h : Settled s) (i : Nat) (path : Path) (a : ExecAnswers) :
    Disciplined (execOpen i path a) s := by
  unfold Disciplined execOpen
  refine (sure_onFs (tidy_beginOp h)).andThen fun _ s₁ h₁ => ?_
  rw [sure_get_bind]
  refine (sure_onFs (tidy_namex h₁.1 (by omega) _ path false)).bind fun r s₂ h₂ => ?_
  split
  · exact (sure_onFs (tidy_endOp h₂.1 (by omega))).andThen fun _ s₃ h₃ => sure_pure.mpr h₃.1
  · exact disciplined_execLoad h₂.1 i _ a

theorem onFs_ret {x : IProg α} {a : α} {t : Icache} {w : List Event} (h : x s.fs = .ret a t w) :
    onFs x s = .ret a (s.setFs t) w := by
  unfold onFs Prog.zoom
  rw [h]

theorem sure_onFs_beginOp {R : Post World α} {f : Unit → WProg α} :
    sure Event.Inside (onFs beginOp >>= f) R s ↔
      sure Event.Inside (f ()) R (s.setFs { s.fs with ops := s.fs.ops + 1 }) := by
  unfold onFs beginOp
  rw [sure_bind, sure_zoom, sure_modify]

/-- The path on which no file structure is left: `ip` is unlocked once
more than it was locked. -/
theorem not_disciplined_twice {ip : Nat} (h : Tidy [ip] 1 s.fs) :
    ¬ Disciplined (do onFs (iunlockput ip); onFs endOp; execBad ip) s := by
  intro hs
  obtain ⟨_, t₁, w₁, hrun₁, h₁⟩ := (tidy_release h (by omega)).exists_ret
  have hs₁ := hs.after (onFs_ret hrun₁)
  obtain ⟨_, t₂, w₂, hrun₂, h₂⟩ := (tidy_endOp h₁ (by omega)).exists_ret
  have hs₂ := hs₁.after (onFs_ret (s := s.setFs t₁) hrun₂)
  unfold execBad onFs iunlockput iunlock at hs₂
  rw [sure_bind, sure_zoom, sure_bind, sure_get_bind] at hs₂
  have hfree : (t₂.inode ip).locked = false := h₂.unlocked (by simp)
  rw [if_pos (.inl hfree), sure_panic] at hs₂
  exact hs₂.1 rfl

/-- **`kexec` is disciplined unless the file table is full when its swap
file is there**: then the swap file is unlocked and put twice. -/
theorem disciplined_kexec (h : Settled s) (i : Nat) (path : Path) (a : ExecAnswers) :
    Disciplined (kexec i path a) s ↔ ¬ (s.FilesFull ∧ s.OpensSwap i a) := by
  have hb : Tidy [] 1 { s.fs with ops := s.fs.ops + 1 } :=
    ⟨by rw [h.ops]; rfl, h.held, h.ref⟩
  have hcreate := tidy_create hb (by omega) (swapName (s.proc i).pid) a.dirlink
  unfold Disciplined kexec modifyProc
  rw [sure_get_bind, sure_onFs_beginOp]
  constructor
  · rintro hs ⟨hfull, ip, t, w, hrun⟩
    have hip : Tidy [ip] 1 t := (hcreate.of_ret hrun).1
    have hs₁ := hs.after (onFs_ret (s := s.setFs _) hrun)
    unfold filealloc at hs₁
    rw [sure_bind, sure_get_bind] at hs₁
    have hnone : Table.firstIdx (fun x : File => x.ref == 0) s.file nfile = none :=
      filealloc_full hfull
    simp only [World.setFs, hnone, sure_pure, sure_modify_bind] at hs₁
    exact not_disciplined_twice (s := World.setProc _ i _) hip hs₁
  · intro hcond
    refine (sure_onFs (s := s.setFs _) hcreate.with_run).bind fun r s₁ h₁ => ?_
    obtain ⟨⟨htidy, w, hrun⟩, hproc, hfile⟩ := h₁
    split
    · exact (sure_onFs (tidy_endOp htidy (by omega))).andThen fun _ _ h => sure_pure.mpr h.1
    · rename_i ip
      unfold filealloc modifyFile
      rw [sure_bind, sure_get_bind]
      cases hfirst : Table.firstIdx (fun x : File => x.ref == 0) s₁.file nfile with
      | none =>
          refine absurd ⟨fun f hf => ?_, ip, _, w, hrun⟩ hcond
          rw [Table.firstIdx_none] at hfirst
          have hused := hfirst (s₁.file f) (Table.mem_live.mpr ⟨f, hf, rfl⟩)
          rw [hfile] at hused
          change ((s.file f).ref == 0) = false at hused
          simpa using hused
      | some f =>
          simp only [sure_modify_bind, sure_pure]
          refine (sure_onFs (s := ((s₁.setFile f _).setProc i _).setFile f _)
            (tidy_unlock htidy)).andThen fun _ s₂ h₂ => ?_
          refine (sure_onFs (tidy_endOp h₂.1 (by omega))).andThen fun _ s₃ h₃ => ?_
          exact disciplined_execOpen h₃.1 i path a

/-- **Discipline of the process life cycle.** From every state of the
file system, with no transaction open and no lock held by the process:
`kexit` is disciplined; `kwait` is, unless it frees a child that has an
executable; `kfork` is, unless memory runs out on a slot whose last owner
left an executable behind; `kexec` is, unless no file structure is left
once the swap file is open. -/
theorem life_cycle_disciplined (h : Settled s) :
    (∀ i, Disciplined (kexit i : WProg Unit) s) ∧
    (∀ i addr, Disciplined (kwait i addr) s ↔
      ∀ j, s.Reaps i addr j → (s.proc j).execIp = none) ∧
    (∀ i a, Disciplined (kfork i a) s ↔
      (a.Fail → ∀ j, s.freeSlot = some j → (s.proc j).execIp = none)) ∧
    ∀ i path a, Disciplined (kexec i path a) s ↔ ¬ (s.FilesFull ∧ s.OpensSwap i a) :=
  ⟨fun i => disciplined_kexit h i, disciplined_kwait h, disciplined_kfork h, disciplined_kexec h⟩

end

theorem Settled.of_unlocked {s : World} (ho : s.fs.ops = 0)
    (hl : ∀ ip, (s.fs.inode ip).locked = false) : Settled s :=
  ⟨ho, fun ip => by simp [hl ip], fun _ h => by cases h⟩

theorem smallFs_unlocked (ip : Nat) : (smallFs.inode ip).locked = false := by
  unfold smallFs
  dsimp only
  split <;> rfl

theorem settled_smallWorld : Settled smallWorld := .of_unlocked rfl smallFs_unlocked

/-- The first process starts the executable. -/
theorem life_cycle_disciplined_small :
    Settled smallWorld ∧ Disciplined (kexec 0 pathA .ok) smallWorld :=
  ⟨settled_smallWorld, ((life_cycle_disciplined settled_smallWorld).2.2.2 0 pathA .ok).mpr
    fun h => absurd rfl (h.1 0 (by decide))⟩

/-- Every file structure is taken. -/
def fullWorld : World := { smallWorld with file := fun _ => ⟨1, .pipe, 0⟩ }

/-- Slot 1 is a zombie child of slot 0, and its executable has been
unlinked. -/
def orphanWorld : World :=
  { (smallWorld.setProc 1 { Task.zero with state := .zombie, parent := some 0, execIp := some 1 }) with
    fs := smallFs.setInode 1 ⟨2, 1, true, .file, 0, false⟩ }

/-- **Two paths that break the discipline**: the error exit of `kexec`
when `filealloc` fails, and `kwait` for a child whose executable has been
unlinked. -/
theorem undisciplined_paths :
    Settled fullWorld ∧ (∃ w, kexec 0 pathA .ok fullWorld = .panic "iunlock" w) ∧
    Settled orphanWorld ∧
      (∃ w, kwait 0 none orphanWorld = .panic "log_write outside of trans" w) := by
  refine ⟨settled_smallWorld, ⟨_, rfl⟩, .of_unlocked rfl fun ip => ?_, ⟨_, rfl⟩⟩
  show ((smallFs.setInode 1 _).inode ip).locked = false
  rcases eq_or_ne ip 1 with rfl | hne
  · rfl
  · simp only [Icache.setInode, Function.update_of_ne hne]
    exact smallFs_unlocked ip

end OsSuite.Xv6.Life
