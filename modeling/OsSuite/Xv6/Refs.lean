import OsSuite.Xv6.Life

/-!
# Refs — references to inodes and files, and their holders

`ref` of an inode should be the number of pointers to it: `cwd` and
`exec_ip` of the processes, `ip` of the open files. `ref` of a file should
be the number of `ofile` and `swap_file` pointers to it. The difference
is the SLACK. While a function runs, the slack is what its local variables
hold: `iget` adds one, storing the pointer takes it away, `iput` takes one
away, clearing a pointer adds one. Here the functions of the file system
and of the file table are given their effect on the slack.
-/

namespace OsSuite.Xv6.Life

open Finset

/-- One, for the entry that a pointer points to. -/
def point (o : Option Nat) : Nat → Int := fun a => if o = some a then 1 else 0

@[simp] theorem point_none : point none = 0 := by
  funext a
  simp [point]

/-- The inodes that a process holds. -/
def Task.inodes (p : Task) : Nat → Int :=
  if p.state = .unused then 0 else point p.cwd + point p.execIp

/-- The inode that a file holds. -/
def File.inodes (x : File) : Nat → Int :=
  if 0 < x.ref ∧ (x.type = .inode ∨ x.type = .device) then point (some x.ip) else 0

/-- The files that a process holds. -/
def Task.files (p : Task) : Nat → Int :=
  if p.state = .unused then 0 else (∑ fd ∈ range nofile, point (p.ofile fd)) + point p.swapFile

def World.inodeHolders (s : World) : Nat → Int :=
  (∑ i ∈ range nproc, (s.proc i).inodes) + ∑ f ∈ range nfile, (s.file f).inodes

def World.fileHolders (s : World) : Nat → Int := ∑ i ∈ range nproc, (s.proc i).files

/-- **The counts are right.** -/
structure Counted (s : World) : Prop where
  inodes : ∀ ip, (s.fs.inode ip).ref = s.inodeHolders ip
  files : ∀ f, (s.file f).ref = s.fileHolders f

def Icache.refs (t : Icache) : Nat → Int := fun ip => (t.inode ip).ref

def World.slack (s : World) : Nat → Int := s.fs.refs - s.inodeHolders

def World.fileSlack (s : World) : Nat → Int := (fun f => (s.file f).ref) - s.fileHolders

theorem counted_iff {s : World} : Counted s ↔ s.slack = 0 ∧ s.fileSlack = 0 := by
  constructor
  · intro h
    exact ⟨funext fun ip => sub_eq_zero.mpr (h.inodes ip), funext fun f => sub_eq_zero.mpr (h.files f)⟩
  · rintro ⟨h, h'⟩
    exact ⟨fun ip => sub_eq_zero.mp (congrFun h ip), fun f => sub_eq_zero.mp (congrFun h' f)⟩

/-! ## Changes of the state -/

/-- One summand of a table changes. -/
theorem sum_update {β M : Type} [AddCommGroup M] {n j : Nat} (g : β → M) (a : Nat → β) (b : β)
    (hj : j < n) : ∑ i ∈ range n, g (Function.update a j b i) =
      ∑ i ∈ range n, g (a i) - g (a j) + g b := by
  have hmem : j ∈ range n := mem_range.mpr hj
  rw [← add_sum_erase _ _ hmem, ← add_sum_erase (range n) (fun i => g (a i)) hmem]
  have hrest : ∑ i ∈ (range n).erase j, g (Function.update a j b i) =
      ∑ i ∈ (range n).erase j, g (a i) :=
    sum_congr rfl fun i hi => by rw [Function.update_of_ne (ne_of_mem_erase hi)]
  rw [hrest, Function.update_self]
  abel

section
variable {s : World} {i f : Nat}

theorem slack_setFs (t : Icache) : (s.setFs t).slack = s.slack + (t.refs - s.fs.refs) := by
  show t.refs - s.inodeHolders = s.fs.refs - s.inodeHolders + (t.refs - s.fs.refs)
  abel

theorem slack_setProc (hi : i < nproc) (p : Task) :
    (s.setProc i p).slack = s.slack + (s.proc i).inodes - p.inodes := by
  have hsum : (s.setProc i p).inodeHolders = s.inodeHolders - (s.proc i).inodes + p.inodes := by
    simp only [World.inodeHolders, World.setProc, sum_update Task.inodes s.proc p hi]
    abel
  show s.fs.refs - (s.setProc i p).inodeHolders = s.fs.refs - s.inodeHolders + _ - _
  rw [hsum]
  abel

theorem fileSlack_setProc (hi : i < nproc) (p : Task) :
    (s.setProc i p).fileSlack = s.fileSlack + (s.proc i).files - p.files := by
  have hsum : (s.setProc i p).fileHolders = s.fileHolders - (s.proc i).files + p.files := by
    simp only [World.fileHolders, World.setProc, sum_update Task.files s.proc p hi]
  show (fun f => (s.file f).ref) - (s.setProc i p).fileHolders =
    (fun f => (s.file f).ref) - s.fileHolders + _ - _
  rw [hsum]
  abel

theorem slack_setFile (hf : f < nfile) (x : File) :
    (s.setFile f x).slack = s.slack + (s.file f).inodes - x.inodes := by
  have hsum : (s.setFile f x).inodeHolders = s.inodeHolders - (s.file f).inodes + x.inodes := by
    simp only [World.inodeHolders, World.setFile, sum_update File.inodes s.file x hf]
    abel
  show s.fs.refs - (s.setFile f x).inodeHolders = s.fs.refs - s.inodeHolders + _ - _
  rw [hsum]
  abel

theorem fileSlack_setFile {x : File} {k : Int} (h : x.ref = (s.file f).ref + k) :
    (s.setFile f x).fileSlack = s.fileSlack + (fun a => k * point (some f) a) := by
  funext a
  show ((s.setFile f x).file a).ref - s.fileHolders a =
    (s.file a).ref - s.fileHolders a + k * point (some f) a
  rcases eq_or_ne a f with rfl | hne
  · simp only [World.setFile, Function.update_self, point, if_true]
    omega
  · simp [World.setFile, point, Function.update_of_ne hne, hne.symm]

end

/-! ## References of the file system -/

section
variable {A : Event → Prop} {s : Icache} {ip : Nat}

theorem wp_modifyInode {g : Node → Node} {k : Int}
    (h : (g (s.inode ip)).ref = (s.inode ip).ref + k) :
    wp A (modifyInode ip g) ⟨fun _ t => t.refs = s.refs + (fun a => k * point (some ip) a), fun _ => False,
      fun _ => True⟩ s := by
  refine wp_modify.mpr (funext fun a => ?_)
  show ((s.setInode ip (g (s.inode ip))).inode a).ref = (s.inode a).ref + k * point (some ip) a
  rcases eq_or_ne a ip with rfl | hne
  · simp only [Icache.setInode, Function.update_self, point, if_true]
    omega
  · simp [Icache.setInode, point, Function.update_of_ne hne, hne.symm]

/-- A change that leaves the count alone. -/
theorem wp_modifyInode_same {g : Node → Node} (h : ∀ m, (g m).ref = m.ref) :
    wp A (modifyInode ip g) ⟨fun _ t => t.refs = s.refs, fun _ => False, fun _ => True⟩ s :=
  (wp_modifyInode (k := 0) ((h _).trans (add_zero _).symm)).weaken fun _ t ht => by
    rw [ht]
    funext a
    simp

/-- One reference more. -/
theorem wp_modifyInode_up {g : Node → Node} (h : (g (s.inode ip)).ref = (s.inode ip).ref + 1) :
    wp A (modifyInode ip g) ⟨fun _ t => t.refs = s.refs + point (some ip), fun _ => False,
      fun _ => True⟩ s :=
  (wp_modifyInode h).weaken fun _ t ht => by
    rw [ht]
    funext a
    simp

theorem wp_iget (inum : Nat) :
    wp A (iget inum) ⟨fun ip t => t.refs = s.refs + point (some ip), fun _ => False,
      fun _ => True⟩ s := by
  unfold iget
  rw [wp_get_bind]
  split
  · exact (wp_modifyInode_up rfl).bind fun _ _ h => wp.ret h
  · split
    · exact wp_panic.mpr trivial
    · rename_i ip hip
      obtain ⟨-, hzero, -⟩ := Table.firstIdx_some hip
      have hzero : (s.inode ip).ref = 0 := by simpa using hzero
      refine (wp_modifyInode_up ?_).bind fun _ _ h => wp.ret h
      rw [hzero, zero_add]

theorem wp_idup (ip : Nat) :
    wp A (idup ip) ⟨fun _ t => t.refs = s.refs + point (some ip), fun _ => False, fun _ => True⟩ s :=
  wp_modifyInode_up rfl

theorem wp_ilock (ip : Nat) :
    wp A (ilock ip) ⟨fun _ t => t.refs = s.refs, fun _ => False, fun _ => True⟩ s := by
  unfold ilock
  rw [wp_get_bind]
  split
  · exact wp_panic.mpr trivial
  split
  · exact wp_panic.mpr trivial
  refine (wp_modifyInode_same (by exact fun _ => rfl)).bind fun _ t₁ h₁ => ?_
  split
  · exact wp.ret h₁
  · refine (wp_modifyInode_same (by exact fun _ => rfl)).bind fun _ t₂ h₂ => ?_
    split
    · exact wp_panic.mpr trivial
    · exact wp.ret (h₂.trans h₁)

theorem wp_iunlock (ip : Nat) :
    wp A (iunlock ip) ⟨fun _ t => t.refs = s.refs, fun _ => False, fun _ => True⟩ s := by
  unfold iunlock
  rw [wp_get_bind]
  split
  · exact wp_panic.mpr trivial
  · exact wp_modifyInode_same fun _ => rfl

theorem wp_logWrite : wp A logWrite ⟨fun _ t => t = s, fun _ => False, fun _ => True⟩ s := by
  unfold logWrite
  rw [wp_get_bind]
  split
  · exact wp_panic.mpr trivial
  · exact wp_pure.mpr rfl

theorem wp_iupdate (ip : Nat) :
    wp A (iupdate ip) ⟨fun _ t => t.refs = s.refs, fun _ => False, fun _ => True⟩ s := by
  unfold iupdate
  rw [wp_modify_bind]
  exact wp_logWrite.mono (fun _ t h => h ▸ rfl) (fun _ h => h) (fun _ h => h)

theorem wp_iput (ip : Nat) :
    wp A (iput ip) ⟨fun _ t => t.refs = s.refs - point (some ip), fun _ => False,
      fun _ => True⟩ s := by
  have hdrop : ∀ t : Icache, t.refs = s.refs → wp A (modifyInode ip fun n => { n with ref := n.ref - 1 })
      ⟨fun _ t => t.refs = s.refs - point (some ip), fun _ => False, fun _ => True⟩ t := by
    intro t ht
    refine (wp_modifyInode (k := -1) rfl).weaken fun _ t' ht' => ?_
    rw [ht', ht]
    funext a
    simp [sub_eq_add_neg]
  unfold iput
  rw [wp_get_bind, wp_bind, wp_tell]
  intro _
  dsimp only
  split
  · split
    · exact wp_panic.mpr trivial
    · unfold itrunc
      refine (wp_iupdate ip).bind fun _ t₁ h₁ => ?_
      refine (wp_modifyInode_same (by exact fun _ => rfl)).bind fun _ t₂ h₂ => ?_
      refine (wp_iupdate ip).bind fun _ t₃ h₃ => ?_
      refine (wp_modifyInode_same (by exact fun _ => rfl)).bind fun _ t₄ h₄ => ?_
      exact hdrop _ (h₄.trans (h₃.trans (h₂.trans h₁)))
  · exact hdrop _ rfl

theorem wp_iunlockput (ip : Nat) :
    wp A (iunlockput ip) ⟨fun _ t => t.refs = s.refs - point (some ip), fun _ => False,
      fun _ => True⟩ s := by
  unfold iunlockput
  refine (wp_iunlock ip).bind fun _ t ht => ?_
  rw [← ht]
  exact wp_iput ip

theorem wp_ialloc (type : FileType) :
    wp A (ialloc type) ⟨fun r t => t.refs = s.refs + point r, fun _ => False, fun _ => True⟩ s := by
  unfold ialloc
  rw [wp_get_bind]
  split
  · refine wp.ret ?_
    rw [point_none, add_zero]
  · rw [wp_modify_bind]
    refine wp_logWrite.bind fun _ t ht => ?_
    subst ht
    refine (wp_iget _).bind fun _ _ h => wp.ret ?_
    exact h

theorem wp_dirlookup (dp : Nat) (name : List Char) :
    wp A (dirlookup dp name) ⟨fun r t => t.refs = s.refs + point r, fun _ => False,
      fun _ => True⟩ s := by
  unfold dirlookup
  rw [wp_get_bind]
  split
  · exact wp_panic.mpr trivial
  split
  · refine wp.ret ?_
    rw [point_none, add_zero]
  · exact (wp_iget _).bind fun _ _ h => wp.ret h

theorem wp_dirlink (dp : Nat) (name : List Char) (inum : Nat) (ok : Bool) :
    wp A (dirlink dp name inum ok) ⟨fun _ t => t.refs = s.refs, fun _ => False, fun _ => True⟩ s := by
  unfold dirlink
  refine (wp_dirlookup dp name).bind fun r t ht => ?_
  split
  · refine (wp_iput _).bind fun _ t' ht' => wp.ret ?_
    rw [ht', ht, add_sub_cancel_right]
  · rw [point_none, add_zero] at ht
    refine (wp_iupdate dp).bind fun _ t' ht' => ?_
    split
    · rw [wp_modify_bind]
      exact wp.ret (ht'.trans ht)
    · exact wp.ret (ht'.trans ht)

/-- A lookup trades the reference it starts from for the one it returns. -/
theorem wp_namexLoop (parent : Bool) (elems : List (List Char)) :
    ∀ {s : Icache} (ip : Nat), wp A (namexLoop parent elems ip)
      ⟨fun r t => t.refs = s.refs - point (some ip) + point r, fun _ => False, fun _ => True⟩ s := by
  induction elems with
  | nil =>
      intro s ip
      unfold namexLoop
      split
      · refine (wp_iput ip).bind fun _ t ht => wp.ret ?_
        rw [ht, point_none, add_zero]
      · exact wp.ret (sub_add_cancel _ _).symm
  | cons name rest ih =>
      intro s ip
      unfold namexLoop
      refine (wp_ilock ip).bind fun _ t₁ h₁ => ?_
      rw [wp_get_bind]
      split
      · refine (wp_iunlockput ip).bind fun _ t₂ h₂ => wp.ret ?_
        rw [h₂, h₁, point_none, add_zero]
      split
      · refine (wp_iunlock ip).bind fun _ t₂ h₂ => wp.ret ?_
        rw [h₂, h₁, sub_add_cancel]
      refine (wp_dirlookup ip name).bind fun r t₂ h₂ => ?_
      split
      · refine (wp_iunlockput ip).bind fun _ t₃ h₃ => wp.ret ?_
        rw [h₃, h₂, h₁, point_none, add_zero, add_zero]
      · rename_i next
        refine (wp_iunlockput ip).bind fun _ t₃ h₃ => ?_
        refine (ih next).weaken fun r t₄ h₄ => ?_
        rw [h₄, h₃, h₂, h₁]
        abel

theorem wp_namex (cwd : Option Nat) (path : Path) (parent : Bool) :
    wp A (namex cwd path parent) ⟨fun r t => t.refs = s.refs + point r, fun _ => False,
      fun _ => True⟩ s := by
  unfold namex
  split
  · refine (wp_iget rootino).bind fun ip t ht => ?_
    refine (wp_namexLoop parent _ ip).weaken fun r t' ht' => ?_
    rw [ht', ht, add_sub_cancel_right]
  · split
    · exact wp_panic.mpr trivial
    · rename_i ip
      refine (wp_idup ip).bind fun _ t ht => ?_
      refine (wp_namexLoop parent _ ip).weaken fun r t' ht' => ?_
      rw [ht', ht, add_sub_cancel_right]

/-- **`create` returns one reference more**, or leaves the counts alone. -/
theorem wp_create (name : List Char) (ok : Bool) :
    wp A (create name ok) ⟨fun r t => t.refs = s.refs + point r, fun _ => False,
      fun _ => True⟩ s := by
  unfold create
  refine (wp_namex none _ true).bind fun r t₁ h₁ => ?_
  split
  · exact wp.ret h₁
  rename_i dp
  refine (wp_ilock dp).bind fun _ t₂ h₂ => ?_
  refine (wp_dirlookup dp name).bind fun r t₃ h₃ => ?_
  split
  · rename_i ip
    refine (wp_iunlockput dp).bind fun _ t₄ h₄ => ?_
    refine (wp_ilock ip).bind fun _ t₅ h₅ => ?_
    have hrefs : t₅.refs = s.refs + point (some ip) := by
      rw [h₅, h₄, h₃, h₂, h₁]
      abel
    rw [wp_get_bind]
    split
    · exact wp.ret hrefs
    · refine (wp_iunlockput ip).bind fun _ t₆ h₆ => wp.ret ?_
      rw [h₆, hrefs, add_sub_cancel_right, point_none, add_zero]
  refine (wp_ialloc .file).bind fun r t₄ h₄ => ?_
  split
  · refine (wp_iunlockput dp).bind fun _ t₅ h₅ => wp.ret ?_
    rw [h₅, h₄, h₃, h₂, h₁]
    simp
  rename_i ip
  refine (wp_ilock ip).bind fun _ t₅ h₅ => ?_
  refine (wp_modifyInode_same (by exact fun _ => rfl)).bind fun _ t₅' h₅' => ?_
  refine (wp_iupdate ip).bind fun _ t₆ h₆ => ?_
  have hrefs : t₆.refs = s.refs + point (some dp) + point (some ip) := by
    rw [h₆, h₅', h₅, h₄, h₃, h₂, h₁, point_none, add_zero]
  rw [wp_get_bind]
  refine (wp_dirlink dp name _ ok).bind fun r t₇ h₇ => ?_
  split
  · refine (wp_iunlockput dp).bind fun _ t₈ h₈ => wp.ret ?_
    rw [h₈, h₇, hrefs]
    abel
  · unfold createFail
    refine (wp_modifyInode_same (by exact fun _ => rfl)).bind fun _ t₇' h₇' => ?_
    refine (wp_iupdate ip).bind fun _ t₈ h₈ => ?_
    refine (wp_iunlockput ip).bind fun _ t₉ h₉ => ?_
    refine (wp_iunlockput dp).bind fun _ t₁₀ h₁₀ => wp.ret ?_
    rw [h₁₀, h₉, h₈, h₇', h₇, hrefs, point_none]
    abel

end

/-! ## What a pointer of a process counts for -/

section
variable {p : Task} (hp : p.state ≠ .unused)
include hp

theorem inodes_cwd (o : Option Nat) :
    ({ p with cwd := o } : Task).inodes = p.inodes - point p.cwd + point o := by
  simp only [Task.inodes, if_neg hp]
  abel

theorem inodes_execIp (o : Option Nat) :
    ({ p with execIp := o } : Task).inodes = p.inodes - point p.execIp + point o := by
  simp only [Task.inodes, if_neg hp]
  abel

theorem files_swapFile (o : Option Nat) :
    ({ p with swapFile := o } : Task).files = p.files - point p.swapFile + point o := by
  simp only [Task.files, if_neg hp]
  abel

theorem files_ofile {fd : Nat} (hfd : fd < nofile) (o : Option Nat) :
    ({ p with ofile := Function.update p.ofile fd o } : Task).files =
      p.files - point (p.ofile fd) + point o := by
  simp only [Task.files, if_neg hp, sum_update point p.ofile o hfd]
  abel

end

/-- A process without files and without a directory. -/
structure Task.Idle (p : Task) : Prop where
  cwd : p.cwd = none
  swapFile : p.swapFile = none
  ofile : ∀ fd < nofile, p.ofile fd = none

theorem Task.Idle.inodes {p : Task} (h : p.Idle) (hp : p.state ≠ .unused) :
    p.inodes = point p.execIp := by
  simp only [Task.inodes, if_neg hp, h.cwd, point_none, zero_add]

theorem Task.Idle.files {p : Task} (h : p.Idle) : p.files = 0 := by
  have hsum : ∑ fd ∈ range nofile, point (p.ofile fd) = 0 :=
    sum_eq_zero fun fd hfd => by rw [h.ofile fd (mem_range.mp hfd), point_none]
  simp only [Task.files, hsum, h.swapFile, point_none, add_zero, ite_self]

/-- Entries of the file table that are not in use. -/
structure Kept (s : World) : Prop where
  idle : ∀ f, (s.file f).ref = 0 → (s.file f).type = .none
  out : ∀ f, nfile ≤ f → (s.file f).ref = 0

/-- Local variables hold the inodes `d`; the slots of dead processes hold
nothing but an executable. -/
structure Holding (d : Nat → Int) (s : World) : Prop where
  slack : s.slack = d
  fileSlack : s.fileSlack = 0
  kept : Kept s
  gone : ∀ j, (s.proc j).state = .unused ∨ (s.proc j).state = .zombie → (s.proc j).Idle

/-- **Between two operations** there is no slack. -/
abbrev Sound (s : World) : Prop := Holding 0 s

/-! ## Files -/

section
variable {A : Event → Prop} {α : Type} {s : World} {E : World → Prop} {i j : Nat}

/-- Code of the file system changes the counts by `d`, and nothing else
that counts. -/
structure FsOnly (d : Nat → Int) (s s' : World) : Prop where
  slack : s'.slack = s.slack + d
  fileSlack : s'.fileSlack = s.fileSlack
  proc : s'.proc = s.proc
  file : s'.file = s.file

theorem wp_onFs {x : IProg α} {d : α → Nat → Int}
    (h : wp A x ⟨fun a t => t.refs = s.fs.refs + d a, fun _ => False, fun _ => True⟩ s.fs) :
    wp A (onFs x) ⟨fun a s' => FsOnly (d a) s s', E, fun _ => True⟩ s := by
  refine wp_zoom.mpr (h.mono (fun a t ht => ⟨?_, rfl, rfl, rfl⟩) (fun _ h => h.elim) fun _ h => h)
  have ht : t.refs = s.fs.refs + d a := ht
  rw [slack_setFs, ht, add_sub_cancel_left]

/-- The same for code that leaves the counts alone. -/
theorem wp_onFs_same {x : IProg α}
    (h : wp A x ⟨fun _ t => t.refs = s.fs.refs, fun _ => False, fun _ => True⟩ s.fs) :
    wp A (onFs x) ⟨fun _ s' => FsOnly 0 s s', E, fun _ => True⟩ s :=
  wp_onFs (d := fun _ => 0) (h.weaken fun _ _ ht => by rw [ht, add_zero])

theorem wp_beginOp {t : Icache} :
    wp A beginOp ⟨fun _ t' => t'.refs = t.refs, fun _ => False, fun _ => True⟩ t :=
  wp_modify.mpr rfl

theorem wp_endOp {t : Icache} :
    wp A endOp ⟨fun _ t' => t'.refs = t.refs, fun _ => False, fun _ => True⟩ t := by
  unfold endOp
  rw [wp_get_bind, wp_bind, wp_tell]
  exact fun _ => wp_modify.mpr rfl

theorem wp_putOp (ip : Nat) :
    wp A (onFs (do beginOp; iput ip; endOp)) ⟨fun _ s' => FsOnly (-point (some ip)) s s', E,
      fun _ => True⟩ s := by
  refine wp_onFs (d := fun _ => -point (some ip)) ?_
  refine wp_beginOp.bind fun _ t₁ h₁ => ?_
  refine (wp_iput ip).bind fun _ t₂ h₂ => ?_
  refine wp_endOp.weaken fun _ t₃ h₃ => ?_
  rw [h₃, h₂, h₁, sub_eq_add_neg]

theorem Kept.setFile (h : Kept s) {f : Nat} (hf : f < nfile) {x : File}
    (hx : x.ref = 0 → x.type = .none) : Kept (s.setFile f x) := by
  refine ⟨fun a ha => ?_, fun a ha => ?_⟩
  · rcases eq_or_ne a f with rfl | hne
    · simp only [World.setFile, Function.update_self] at ha ⊢
      exact hx ha
    · simp only [World.setFile, Function.update_of_ne hne] at ha ⊢
      exact h.idle a ha
  · have hne : a ≠ f := by omega
    simp only [World.setFile, Function.update_of_ne hne]
    exact h.out a ha

theorem Kept.congr (h : Kept s) {s' : World} (hf : s'.file = s.file) : Kept s' := by
  constructor
  · rw [hf]
    exact h.idle
  · rw [hf]
    exact h.out

/-- **`fileclose` drops one reference to the file**, and with the last one
the reference that the file has to its inode. -/
theorem wp_fileclose (hk : Kept s) (f : Nat) :
    wp A (fileclose f) ⟨fun _ s' => s'.slack = s.slack ∧
        s'.fileSlack = s.fileSlack - point (some f) ∧ Kept s' ∧ s'.proc = s.proc,
      E, fun _ => True⟩ s := by
  unfold fileclose modifyFile
  rw [wp_get_bind]
  dsimp only
  split
  · exact wp_panic.mpr trivial
  rename_i hpos
  have hf : f < nfile := by
    by_contra hge
    have := hk.out f (by omega)
    omega
  have hdown : ∀ x : File, x.ref = (s.file f).ref - 1 →
      (s.setFile f x).fileSlack = s.fileSlack - point (some f) := by
    intro x hx
    rw [fileSlack_setFile (k := -1) hx]
    funext a
    simp [sub_eq_add_neg]
  split
  · rename_i hmore
    refine wp_modify.mpr ⟨?_, hdown _ rfl, hk.setFile hf fun h0 => ?_, rfl⟩
    · have hsame : ({ s.file f with ref := (s.file f).ref - 1 } : File).inodes = (s.file f).inodes := by
        have h1 : 0 < (s.file f).ref := by omega
        simp only [File.inodes, h1, hmore, true_and]
      rw [slack_setFile hf, hsame, add_sub_cancel_right]
    · have h0 : (s.file f).ref - 1 = 0 := h0
      omega
  · rename_i hlast
    have hone : (s.file f).ref = 1 := by omega
    rw [wp_modify_bind]
    generalize hs₁ : s.setFile f _ = s₁
    have hk₁ : Kept s₁ := hs₁ ▸ hk.setFile hf fun _ => rfl
    have hslack : s₁.slack = s.slack + (s.file f).inodes := by
      rw [← hs₁, slack_setFile hf]
      simp [File.inodes]
    have hfiles : s₁.fileSlack = s.fileSlack - point (some f) := by
      rw [← hs₁]
      exact hdown _ (by simp [hone])
    have hproc : s₁.proc = s.proc := by rw [← hs₁]; rfl
    split
    · rename_i hinode
      have hin : (s.file f).inodes = point (some (s.file f).ip) := by
        simp only [File.inodes, hone, hinode]
        rfl
      refine (wp_putOp _).weaken fun _ s₂ h₂ => ⟨?_, ?_, hk₁.congr h₂.file, h₂.proc.trans hproc⟩
      · rw [h₂.slack, hslack, hin, add_neg_cancel_right]
      · rw [h₂.fileSlack, hfiles]
    · rename_i hother
      refine wp.ret ⟨?_, hfiles, hk₁, hproc⟩
      rw [hslack, File.inodes, if_neg fun h => hother h.2, add_zero]

end

end OsSuite.Xv6.Life
