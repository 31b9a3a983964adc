import OsSuite.Xv6.Steps

/-!
# SwapDisk — what a process leaves on the disk

`kexec` makes a file `/pgswp<pid>` for the process, evictions write to
it, `kexit` empties it. What is handed out for it in between — a directory
entry, an inode, blocks — should come back. The blocks do: the sum of the
free blocks and of those of the file is constant from `kexec` to `kexit`.
The entry and the inode do not, since nobody unlinks the file.
-/

namespace OsSuite.Xv6

/-! ## Blocks of a file -/

/-- The blocks that `itrunc` gives back. -/
def Inode.used (ip : Inode) : Nat :=
  ((List.range 268).filter fun bn => ip.blocks bn).length + ip.indirect.toNat

theorem length_filter_update {f : Nat → Bool} {b n : Nat} (hb : b < n) (hf : f b = false) :
    ((List.range n).filter (Function.update f b true)).length =
      ((List.range n).filter f).length + 1 := by
  induction n with
  | zero => omega
  | succ n ih =>
      rw [List.range_succ, List.filter_append, List.filter_append, List.length_append,
        List.length_append]
      rcases Nat.lt_or_ge b n with hlt | hge
      · have hne : n ≠ b := by omega
        simp only [List.filter_cons, List.filter_nil, Function.update_of_ne hne]
        rw [ih hlt]
        omega
      · have hbn : b = n := by omega
        subst hbn
        have hsame : (List.range b).filter (Function.update f b true) = (List.range b).filter f :=
          List.filter_congr fun a ha => by
            rw [Function.update_of_ne (by have := List.mem_range.mp ha; omega)]
        rw [hsame]
        simp [hf]

/-- Blocks beyond the direct ones hang below the indirect block. -/
def Inode.Wf (ip : Inode) : Prop := ∀ bn, 12 ≤ bn → ip.blocks bn = true → ip.indirect = true

namespace Fs

/-- Blocks of the file `ino` and free blocks are exchanged, and nothing
else is touched. -/
structure Exchanged (ino : Nat) (fs fs' : Fs) : Prop where
  names : fs'.names = fs.names
  freeInodes : fs'.freeInodes = fs.freeInodes
  other : ∀ j, j ≠ ino → fs'.inode j = fs.inode j
  isFile : (fs'.inode ino).isFile = (fs.inode ino).isFile
  blocks : fs'.nfree + (fs'.inode ino).used = fs.nfree + (fs.inode ino).used
  wf : (fs'.inode ino).Wf

section
variable {ino : Nat} {fs fs' fs'' : Fs}

theorem Exchanged.refl (h : (fs.inode ino).Wf) : Exchanged ino fs fs :=
  ⟨rfl, rfl, fun _ _ => rfl, rfl, rfl, h⟩

theorem Exchanged.trans (h : Exchanged ino fs fs') (h' : Exchanged ino fs' fs'') :
    Exchanged ino fs fs'' where
  names := h'.names.trans h.names
  freeInodes := h'.freeInodes.trans h.freeInodes
  other j hj := (h'.other j hj).trans (h.other j hj)
  isFile := h'.isFile.trans h.isFile
  blocks := h'.blocks.trans h.blocks
  wf := h'.wf

/-- A change of the file that takes `n` blocks from the free ones. -/
theorem exchanged_setInode {n : Nat} {ip : Inode} (hn : n ≤ fs.nfree)
    (hused : ip.used = (fs.inode ino).used + n) (hfile : ip.isFile = (fs.inode ino).isFile)
    (hwf : ip.Wf) : Exchanged ino fs ({ fs with nfree := fs.nfree - n }.setInode ino ip) where
  names := rfl
  freeInodes := rfl
  other j hj := Function.update_of_ne hj _ _
  isFile := by simpa [setInode] using hfile
  blocks := by
    simp only [setInode, Function.update_self]
    omega
  wf := by simpa [setInode] using hwf

theorem exchanged_balloc {bn : Nat} (hwf : (fs.inode ino).Wf) (hbn : bn < 268)
    (hb : (fs.inode ino).blocks bn = false) (hind : 12 ≤ bn → (fs.inode ino).indirect = true) :
    Exchanged ino fs (fs.balloc ino bn).2 := by
  unfold balloc
  split
  · exact .refl hwf
  · refine exchanged_setInode (by omega) ?_ rfl fun a ha hblock => ?_
    · have hcount := length_filter_update hbn hb
      show ((List.range 268).filter (Function.update (fs.inode ino).blocks bn true)).length +
        (fs.inode ino).indirect.toNat =
          ((List.range 268).filter (fs.inode ino).blocks).length + (fs.inode ino).indirect.toNat + 1
      omega
    · change Function.update (fs.inode ino).blocks bn true a = true at hblock
      rcases eq_or_ne a bn with rfl | hne
      · exact hind ha
      · rw [Function.update_of_ne hne] at hblock
        exact hwf a ha hblock

theorem exchanged_bmap {bn : Nat} (hwf : (fs.inode ino).Wf) (hbn : bn < 268) :
    Exchanged ino fs (fs.bmap ino bn).2 := by
  unfold bmap
  dsimp only
  split
  · rename_i hlt
    split
    · exact .refl hwf
    · rename_i hb
      exact exchanged_balloc hwf hbn (by simpa using hb) (by omega)
  · rename_i hge
    split
    · rename_i hind
      split
      · exact .refl hwf
      · rename_i hb
        exact exchanged_balloc hwf hbn (by simpa using hb) fun _ => hind
    · rename_i hind
      split
      · exact .refl hwf
      · -- the indirect block comes first
        have hi : (fs.inode ino).indirect = false := by simpa using hind
        have h1 : Exchanged ino fs ({ fs with nfree := fs.nfree - 1 }.setInode ino
            { fs.inode ino with indirect := true }) := by
          refine exchanged_setInode (by omega) ?_ rfl fun _ _ _ => rfl
          simp [Inode.used, hi]
        have hb : (fs.inode ino).blocks bn = false := by
          cases h : (fs.inode ino).blocks bn with
          | false => rfl
          | true => rw [hwf bn (by omega) h] at hi; cases hi
        refine h1.trans (exchanged_balloc h1.wf hbn ?_ fun _ => ?_)
        · simpa [setInode] using hb
        · simp [setInode]

/-- A change of the file that keeps its blocks. -/
theorem exchanged_same {ip : Inode} (hused : ip.used = (fs.inode ino).used)
    (hfile : ip.isFile = (fs.inode ino).isFile) (hwf : ip.Wf) :
    Exchanged ino fs (fs.setInode ino ip) :=
  exchanged_setInode (Nat.zero_le _) hused hfile hwf

theorem exchanged_put (off m : Nat) (src : Nat → UInt8) (hwf : (fs.inode ino).Wf) :
    Exchanged ino fs (fs.put ino off m src) := exchanged_same rfl rfl hwf

theorem exchanged_writeiLoop (src : Nat → UInt8) (n fuel : Nat) :
    ∀ {fs : Fs} {tot off : Nat}, (fs.inode ino).Wf → off + (n - tot) ≤ maxfileBytes →
      Exchanged ino fs (writeiLoop ino src n fuel fs tot off).1 := by
  induction fuel with
  | zero => exact fun hwf _ => .refl hwf
  | succ fuel ih =>
      intro fs tot off hwf hmax
      unfold writeiLoop
      split
      · rename_i hlt
        have hbn : off / 1024 < 268 := by
          unfold maxfileBytes at hmax
          omega
        have hb : Exchanged ino fs (fs.bmap ino (off / 1024)).2 := exchanged_bmap hwf hbn
        dsimp only
        split
        · have hp := hb.trans (exchanged_put off (min (n - tot) (1024 - off % 1024))
            (fun i => src (tot + i)) hb.wf)
          refine hp.trans (ih hp.wf ?_)
          omega
        · exact hb
      · exact .refl hwf

theorem exchanged_writei {src : Nat → UInt8} {off n : Nat} (hwf : (fs.inode ino).Wf) :
    Exchanged ino fs (fs.writei ino src off n).1 := by
  unfold writei
  split
  · rename_i hacc
    simp only [writeiAccepts, Bool.and_eq_true, decide_eq_true_eq] at hacc
    have hloop : Exchanged ino fs (writeiLoop ino src n n fs 0 off).1 :=
      exchanged_writeiLoop src n n hwf (by simpa using hacc.2)
    exact hloop.trans (exchanged_same rfl rfl hloop.wf)
  · exact .refl hwf

end

end Fs

theorem SwapWrite.exchanged {fs fs' : Fs} {slot ino : Nat} {src : Option Page} {r : Int}
    (h : SwapWrite fs slot src (some ino) fs' r) (hwf : (fs.inode ino).Wf) :
    Fs.Exchanged ino fs fs' := by
  cases h with
  | write _ => exact Fs.exchanged_writei hwf
  | noBlock hacc _ =>
      refine Fs.exchanged_bmap hwf ?_
      simp only [Fs.writeiAccepts, Bool.and_eq_true, maxfileBytes] at hacc
      have := of_decide_eq_true hacc.2
      omega
  | refused _ => exact .refl hwf

/-! ## From `kexec` to `kexit` -/

/-- **The same disk**: the entries of the directory, the free inodes, the
free blocks, and type, size and blocks of every file. -/
structure Fs.SameDisk (fs fs' : Fs) : Prop where
  names : fs'.names = fs.names
  freeInodes : fs'.freeInodes = fs.freeInodes
  nfree : fs'.nfree = fs.nfree
  isFile : ∀ ino, (fs'.inode ino).isFile = (fs.inode ino).isFile
  size : ∀ ino, (fs'.inode ino).size = (fs.inode ino).size
  blocks : ∀ ino, (fs'.inode ino).blocks = (fs.inode ino).blocks
  indirect : ∀ ino, (fs'.inode ino).indirect = (fs.inode ino).indirect

theorem Fs.SameDisk.refl (fs : Fs) : fs.SameDisk fs :=
  ⟨rfl, rfl, rfl, fun _ => rfl, fun _ => rfl, fun _ => rfl, fun _ => rfl⟩

theorem Fs.SameDisk.trans {fs fs' fs'' : Fs} (h : fs.SameDisk fs') (h' : fs'.SameDisk fs'') :
    fs.SameDisk fs'' where
  names := h'.names.trans h.names
  freeInodes := h'.freeInodes.trans h.freeInodes
  nfree := h'.nfree.trans h.nfree
  isFile ino := (h'.isFile ino).trans (h.isFile ino)
  size ino := (h'.size ino).trans (h.size ino)
  blocks ino := (h'.blocks ino).trans (h.blocks ino)
  indirect ino := (h'.indirect ino).trans (h.indirect ino)

/-- An empty regular file. -/
structure Inode.Empty (ip : Inode) : Prop where
  isFile : ip.isFile = true
  size : ip.size = 0
  blocks : ip.blocks = fun _ => false
  indirect : ip.indirect = false

theorem Inode.Empty.wf {ip : Inode} (h : ip.Empty) : ip.Wf := fun bn _ hb => by
  rw [h.blocks] at hb
  cases hb

theorem Inode.Empty.used {ip : Inode} (h : ip.Empty) : ip.used = 0 := by
  simp [Inode.used, h.blocks, h.indirect]

/-- A process whose swap file `ino` was there, empty, on the disk `base`:
it has opened the file or not touched the disk. -/
structure Borrows (base : Fs) (ino : Nat) (st : St) : Prop where
  empty : (base.inode ino).Empty
  name : base.names (swapName st.p.pid) = some ino
  disk : Fs.Exchanged ino base st.sys.fs
  file : st.p.swapFile = some ino ∨ st.p.swapFile = none ∧ base.SameDisk st.sys.fs

section
variable {base : Fs} {ino : Nat} {st : St}

theorem Borrows.congr (h : Borrows base ino st) {st' : St} (hfs : st'.sys.fs = st.sys.fs)
    (hpid : st'.p.pid = st.p.pid) (hfile : st'.p.swapFile = st.p.swapFile) :
    Borrows base ino st' := by
  refine ⟨h.empty, ?_, ?_, ?_⟩
  · rw [hpid]
    exact h.name
  · rw [hfs]
    exact h.disk
  · rw [hfs, hfile]
    exact h.file

/-- `itrunc` gives back what was borrowed. -/
theorem Fs.Exchanged.itrunc {fs : Fs} (h : Fs.Exchanged ino base fs)
    (he : (base.inode ino).Empty) : base.SameDisk (fs.itrunc ino) := by
  have hcases : ∀ {β : Type} (g : Inode → β), g ⟨(fs.inode ino).isFile, 0, (fs.inode ino).data,
      fun _ => false, false⟩ = g (base.inode ino) → ∀ j, g ((fs.itrunc ino).inode j) =
        g (base.inode j) := by
    intro β g hg j
    rcases eq_or_ne j ino with rfl | hne
    · simpa [Fs.itrunc, Fs.setInode] using hg
    · rw [← h.other j hne]
      simp [Fs.itrunc, Fs.setInode, Function.update_of_ne hne]
  refine ⟨h.names, h.freeInodes, ?_, hcases Inode.isFile h.isFile, hcases Inode.size he.size.symm,
    hcases Inode.blocks he.blocks.symm, hcases Inode.indirect he.indirect.symm⟩
  have hb := h.blocks
  rw [he.used] at hb
  exact hb

theorem Borrows.exited (h : Borrows base ino st) (status : Int) :
    base.SameDisk (st.exited status).sys.fs := by
  unfold St.exited
  rcases h.file with hf | ⟨hf, hsame⟩
  · rw [hf]
    exact h.disk.itrunc h.empty
  · rw [hf]
    exact hsame

theorem Borrows.create (h : Borrows base ino st) {ok : Bool} {ino' : Nat} {fs : Fs}
    (hc : st.sys.fs.create (swapName st.p.pid) ok = some (ino', fs)) :
    Borrows base ino ((st.withFs fs).withProc { st.p with swapFile := some ino' }) := by
  have hname : st.sys.fs.names (swapName st.p.pid) = some ino := by
    rw [h.disk.names]
    exact h.name
  rcases Fs.create_some hc with ⟨hn, rfl⟩ | ⟨hn, -⟩
  · rw [hname] at hn
    cases hn
    exact ⟨h.empty, h.name, h.disk, .inl rfl⟩
  · rw [hname] at hn
    cases hn

theorem Borrows.swapWrite (h : Borrows base ino st) {slot : Nat} {src : Option Page} {fs : Fs}
    {r : Int} (hw : SwapWrite st.sys.fs slot src st.p.swapFile fs r) {p' : Proc}
    (hpid : p'.pid = st.p.pid) (hfile : p'.swapFile = st.p.swapFile) :
    Borrows base ino ((st.withFs fs).withProc p') := by
  have hname : base.names (swapName p'.pid) = some ino := by
    rw [hpid]
    exact h.name
  rcases h.file with hf | ⟨hf, hsame⟩
  · rw [hf] at hw
    exact ⟨h.empty, hname, h.disk.trans (hw.exchanged h.disk.wf), .inl (hfile.trans hf)⟩
  · rw [hf] at hw
    cases hw
    exact ⟨h.empty, hname, h.disk, .inr ⟨hfile.trans hf, hsame⟩⟩

end

/-- Code of a process borrows, and its exit returns. -/
def borrowsLink (base : Fs) (ino : Nat) : Link St Event :=
  keeps Event.Nonempty (fun _ => True) (Borrows base ino) fun st => base.SameDisk st.sys.fs

theorem borrows_tables (base : Fs) (ino : Nat) : TableCore (borrowsLink base ino) where
  composes := keeps_composes _ _ _ _
  same hfs hs _ h := ⟨h.congr hfs hs.pid hs.swapFile, fun _ _ => trivial⟩
  emptyRet hw hA := absurd hA hw
  emptyExit hw hA := absurd hA hw
  emptyPanic hw hA := absurd hA hw
  stop _ _ _ _ _ _ := trivial
  exited _ status _ h := ⟨h.exited status, fun _ _ => trivial⟩
  observe _ _ _ _ h := ⟨h, fun _ _ => trivial⟩
  evict _ _ h := ⟨h, fun _ _ => trivial⟩
  swapOut _ _ _ _ _ _ hw _ h := ⟨h.swapWrite hw rfl rfl, fun _ _ => trivial⟩
  swapFull _ _ := ⟨fun _ h => ⟨h.exited _, fun _ _ => trivial⟩, fun _ _ _ _ _ => trivial⟩
  swapPanic _ _ _ _ _ _ _ _ := trivial
  swapFail _ _ _ _ _ _ hw _ :=
    ⟨fun _ h => ⟨(h.swapWrite hw rfl rfl).exited (-1), fun _ _ => trivial⟩, fun _ _ _ _ _ => trivial⟩
  remove _ _ _ h := ⟨h.congr rfl rfl rfl, fun _ _ => trivial⟩
  take st va _ h := by
    have hframe : (st.p.takeSwapped va).2.pid = st.p.pid ∧
        (st.p.takeSwapped va).2.swapFile = st.p.swapFile := by
      unfold Proc.takeSwapped
      split <;> exact ⟨rfl, rfl⟩
    exact ⟨h.congr rfl hframe.1 hframe.2, fun _ _ => trivial⟩
  insert _ _ _ _ _ _ h := ⟨h.congr rfl rfl rfl, fun _ _ => trivial⟩
  insertNeg _ _ _ _ _ _ hpid hfile _ h := ⟨h.congr rfl hpid hfile, fun _ _ => trivial⟩
  mark _ _ _ _ _ h := ⟨h.congr rfl rfl rfl, fun _ _ => trivial⟩
  create _ _ _ _ hc _ h := ⟨h.create hc, fun _ _ => trivial⟩
  commit _ _ h := ⟨h.congr rfl rfl rfl, fun _ _ => trivial⟩

/-! ## Slots of dead processes have no swap file -/

/-- A process that exits has given up its swap file. -/
def closesFile : Link St Event where
  ret _ _ _ := True
  exit _ w st' := (∀ e ∈ w, e.Nonempty) → st'.p.swapFile = none
  panic _ _ _ := True

theorem closesFile_tables : TableRel closesFile where
  composes :=
    { refl := fun _ => trivial
      trans := fun _ _ => trivial
      exit := fun _ h' hw => h' fun e he => hw e (List.mem_append_right _ he)
      panic := fun _ _ => trivial }
  same _ _ := trivial
  emptyRet _ := trivial
  emptyExit h hw := absurd hw h
  emptyPanic _ := trivial
  stop _ _ := trivial
  exited _ _ _ := rfl
  observe _ _ _ := trivial
  evict _ := trivial
  swapOut _ _ _ _ _ _ _ := trivial
  swapFull _ _ := ⟨fun _ => rfl, fun _ => trivial⟩
  swapPanic _ _ _ _ := trivial
  swapFail _ _ _ _ _ _ _ _ := ⟨fun _ => rfl, fun _ => trivial⟩
  remove _ _ := trivial
  take _ _ := trivial
  insert _ _ _ _ _ := trivial
  insertNeg _ _ _ _ _ _ _ _ := trivial
  mark _ _ _ _ := trivial
  create _ _ _ _ _ := trivial
  commit _ := trivial
  env _ _ := trivial

/-- Only live processes have swap files. -/
def DeadClosed (k : Kern) : Prop := ∀ j, ¬ (k.proc j).Live → (k.proc j).swapFile = none

theorem deadClosed_boot {k : Kern} (h : Booted k) : DeadClosed k := by
  obtain ⟨k₀, j, s, tf, root, hf, -, rfl⟩ := h.shape
  intro a _
  rcases eq_or_ne a j with rfl | hne
  · rw [Kern.setProc_self]
    rfl
  · rw [Kern.setProc_ne _ hne]
    exact congrArg Proc.swapFile (hf.proc a)

theorem DeadClosed.step {k k' : Kern} {i : Nat} {w : List Event} (hk : DeadClosed k)
    (hi : (k.proc i).state = .runnable) (hw : ∀ e ∈ w, e.Nonempty)
    (h : KShape closesFile k i w k') : DeadClosed k' := by
  have hput : ∀ st : St, st.p.state = (k.proc i).state → DeadClosed (k.put i st) := by
    intro st hst a ha
    rcases eq_or_ne a i with rfl | hne
    · rw [Kern.put_self] at ha
      exact absurd (by simp [Proc.Live, hst, hi]) ha
    · rw [Kern.put_ne _ hne] at ha ⊢
      exact hk a ha
  cases h with
  | own _ hst => exact hput _ hst
  | @exit w st hT hst =>
      intro a ha
      obtain ⟨par, hpar⟩ := reparent_proc i (k.put i st) a
      rw [hpar] at ha ⊢
      rcases eq_or_ne a i with rfl | hne
      · show ((k.put a st).proc a).swapFile = none
        rw [Kern.put_self]
        exact hT hw
      · rw [Kern.put_ne _ hne] at ha ⊢
        exact hk a ha
  | @forkFail j s hj hc =>
      intro a ha
      rcases eq_or_ne a j with rfl | hne
      · rw [Kern.setProc_self]
        exact hk a (by simp [Proc.Live, hj])
      · rw [Kern.setProc_ne _ hne] at ha ⊢
        exact hk a ha
  | @fork j s tf root hj hc =>
      intro a ha
      rcases eq_or_ne a j with rfl | hne
      · rw [Kern.setProc_self]
        exact hk a (by simp [Proc.Live, hj])
      · rw [Kern.setProc_ne _ hne] at ha ⊢
        exact hk a ha
  | @reap w st j s _ hst hj hc =>
      intro a ha
      rcases eq_or_ne a j with rfl | hne
      · rw [Kern.setProc_self]
        exact hk a (by simp [Proc.Live, hj])
      · rw [Kern.setProc_ne _ hne] at ha ⊢
        exact hput st hst a ha

theorem Reach.deadClosed {k : Kern} (h : Reach EvictsNonempty k) : DeadClosed k :=
  h.inv (fun _ => deadClosed_boot) fun _ _ _ _ _ hk hs hc =>
    hk.step (by cases hs <;> assumption) hc (hs.shape closesFile_tables hc)

/-! ## Cycles -/

/-- The steps a process takes on its own: not `fork`, not `wait`, and not
the rest of the machine. -/
def Op.own : Op → Bool
  | .fork | .wait _ | .env _ _ _ => false
  | _ => true

/-- Own steps of slot `j`. -/
inductive Lives (C : Kern → Nat → Op → List Event → Prop) (j : Nat) (k : Kern) : Kern → Prop where
  | refl : Lives C j k k
  | step {k' k'' : Kern} {op : Op} {w : List Event} : Lives C j k k' → op.own = true →
      KStep k' j op w k'' → C k' j op w → Lives C j k k''

/-- **A complete cycle**: slot `i` forks a child into slot `j`; the child
execs, does whatever it does, and exits; slot `i` waits for it. -/
inductive Cycle (C : Kern → Nat → Op → List Event → Prop) (i j : Nat) (k : Kern) : Kern → Prop where
  | mk {addr : Nat} {path : List Char} {argv : List (List UInt8)} {d f : Bool} {n : Int} {op : Op}
      {w₀ w₁ w₂ w₃ : List Event} {k₁ k₂ k₃ k₄ k₅ : Kern} :
      (k.proc j).state = .unused →
      KStep k i .fork w₀ k₁ → C k i .fork w₀ → (k₁.proc j).state = .runnable →
      kstep j (.exec path argv d f) k₁ = .ret (.int n) k₂ w₁ → 0 ≤ n →
      C k₁ j (.exec path argv d f) w₁ →
      Lives C j k₂ k₃ →
      op.own = true → KStep k₃ j op w₂ k₄ → C k₃ j op w₂ → (k₄.proc j).state = .zombie →
      KStep k₄ i (.wait addr) w₃ k₅ → C k₄ i (.wait addr) w₃ → (k₅.proc j).state = .unused →
      Cycle C i j k k₅

/-- Cycles one after the other. -/
inductive Cycles (C : Kern → Nat → Op → List Event → Prop) (i : Nat) (k : Kern) :
    Nat → Kern → Prop where
  | zero : Cycles C i k 0 k
  | succ {n j : Nat} {k' k'' : Kern} : Cycles C i k n k' → Cycle C i j k' k'' →
      Cycles C i k (n + 1) k''

/-- The condition on a cycle: evictions start from a non-empty list, the
swap file of the new process is there and empty, and the status of the
child is not asked for. -/
def Prepared (k : Kern) (_ : Nat) (op : Op) (w : List Event) : Prop :=
  (∀ e ∈ w, e.Nonempty) ∧
  match op with
  | .fork => ∃ ino, k.sys.fs.names (swapName k.nextpid) = some ino ∧ (k.sys.fs.inode ino).Empty
  | .wait addr => addr = 0
  | _ => True

section
variable {C D : Kern → Nat → Op → List Event → Prop} {i j n : Nat} {k k' : Kern}

theorem Reach.step {op : Op} {w : List Event} (h : Reach D k) (hs : KStep k i op w k')
    (hc : D k i op w) : Reach D k' := by
  obtain ⟨tr, h⟩ := h
  exact ⟨_, h.step hs hc⟩

theorem Lives.reach (hC : ∀ k i op w, C k i op w → D k i op w) (h : Lives C j k k')
    (hk : Reach D k) : Reach D k' := by
  induction h with
  | refl => exact hk
  | step _ _ hs hc ih => exact ih.step hs (hC _ _ _ _ hc)

/-- Cycles are part of a run. -/
theorem Cycle.reach (hC : ∀ k i op w, C k i op w → D k i op w) (h : Cycle C i j k k')
    (hk : Reach D k) : Reach D k' := by
  cases h with
  | mk _ hfork hc₀ hrun hexec _ hc₁ hlives _ hend hc₂ _ hwait hc₃ _ =>
      have h₁ := hk.step hfork (hC _ _ _ _ hc₀)
      have h₂ := h₁.step (.ret hrun hexec) (hC _ _ _ _ hc₁)
      exact ((hlives.reach hC h₂).step hend (hC _ _ _ _ hc₂)).step hwait (hC _ _ _ _ hc₃)

theorem kstep_own {op : Op} (h : op.own = true) : kstep j op = onProc j (localStep op) := by
  cases op <;> first | rfl | cases h

/-- An own step of slot `j`. -/
theorem KStep.own_cases {T : Link St Event} {op : Op} {w : List Event}
    (hT : Respects T (localStep op)) (hop : op.own = true) (hs : KStep k j op w k')
    (hw : ∀ e ∈ w, e.Nonempty) :
    (∃ st, T.ret (k.at j) w st ∧ st.p.state = .runnable ∧ k' = k.put j st) ∨
      ∃ st, T.exit (k.at j) w st ∧ st.p.state = .zombie ∧ k' = reparent j (k.put j st) := by
  have hends : ends (kstep j op)
      (fun _ k' w => ∃ st, (T.ret (k.at j) w st ∧ staysLive.ret (k.at j) w st) ∧ k' = k.put j st)
      (fun k' w => ∃ st, (T.exit (k.at j) w st ∧ staysLive.exit (k.at j) w st) ∧ k' = k.put j st)
      (fun _ _ => True) k := by
    rw [kstep_own hop, ends_onProc]
    exact ((hT _).and (tables_localStep staysLive_tables op _)).mono
      (fun _ st _ h => ⟨st, h, rfl⟩) (fun st _ h => ⟨st, h, rfl⟩) fun _ _ _ => trivial
  cases hs with
  | ret hj hx =>
      obtain ⟨st, h, rfl⟩ := hends.of_ret hx
      exact .inl ⟨st, h.1, (h.2 hw).trans hj, rfl⟩
  | exit hj hx =>
      obtain ⟨st, h, rfl⟩ := hends.of_exit hx
      exact .inr ⟨st, h.1, h.2 hw, rfl⟩

/-- The child has the file or has given it back. -/
def Lending (base : Fs) (ino j : Nat) (k : Kern) : Prop :=
  (Borrows base ino (k.at j) ∧ (k.proc j).state = .runnable) ∨
    (base.SameDisk k.sys.fs ∧ (k.proc j).state = .zombie)

theorem Borrows.step {base : Fs} {ino : Nat} (h : Borrows base ino (k.at j)) {op : Op}
    (hop : op.own = true) {w : List Event} (hs : KStep k j op w k') (hw : ∀ e ∈ w, e.Nonempty) :
    Lending base ino j k' := by
  have hT : Respects (borrowsLink base ino) (localStep op) :=
    tables_localStep_core (borrows_tables base ino) fun _ _ _ he => by
      rw [he] at hop
      cases hop
  rcases hs.own_cases hT hop hw with ⟨st, hret, hst, rfl⟩ | ⟨st, hexit, hst, rfl⟩
  · refine .inl ⟨?_, by rw [Kern.put_self, hst]⟩
    have hb := (hret hw h).1
    rwa [show (k.put j st).at j = st by simp [Kern.at, Kern.put, Kern.withSys, Kern.setProc]]
  · refine .inr ⟨(hexit hw h).1, ?_⟩
    obtain ⟨par, hpar⟩ := reparent_proc j (k.put j st) j
    rw [hpar]
    show ((k.put j st).proc j).state = .zombie
    rw [Kern.put_self, hst]

theorem Lending.step {base : Fs} {ino : Nat} (h : Lending base ino j k) {op : Op}
    (hop : op.own = true) {w : List Event} (hs : KStep k j op w k') (hw : ∀ e ∈ w, e.Nonempty) :
    Lending base ino j k' := by
  rcases h with ⟨hb, -⟩ | ⟨-, hz⟩
  · exact hb.step hop hs hw
  · have hrun : (k.proc j).state = .runnable := by cases hs <;> assumption
    rw [hz] at hrun
    cases hrun

theorem Lives.lending {base : Fs} {ino : Nat}
    (hC : ∀ k i op w, C k i op w → ∀ e ∈ w, e.Nonempty) (h : Lives C j k k')
    (hk : Lending base ino j k) : Lending base ino j k' := by
  induction h with
  | refl => exact hk
  | step _ hop hs hc ih => exact ih.step hop hs (hC _ _ _ _ hc)

/-- **The child of a fork** starts on the disk of its parent, without a
swap file. -/
theorem KStep.fork_child (hk : DeadClosed k) {w : List Event} (hs : KStep k i .fork w k')
    (hw : ∀ e ∈ w, e.Nonempty) (hj : (k.proc j).state = .unused)
    (hj' : (k'.proc j).state = .runnable) :
    k'.sys.fs = k.sys.fs ∧ (k'.proc j).pid = k.nextpid ∧ (k'.proc j).swapFile = none := by
  have hi : (k.proc i).state = .runnable := by cases hs <;> assumption
  have hji : j ≠ i := by
    rintro rfl
    rw [hi] at hj
    cases hj
  have hcontra : ∀ {k'' : Kern}, (k''.proc j).state = .unused → (k''.proc j).state ≠ .runnable :=
    fun h h' => by
      rw [h] at h'
      cases h'
  cases hs.shape closesFile_tables hw with
  | own =>
      refine absurd hj' (hcontra ?_)
      rw [Kern.put_ne _ hji]
      exact hj
  | @exit w st =>
      refine absurd hj' (hcontra ?_)
      obtain ⟨par, hpar⟩ := reparent_proc i (k.put i st) j
      rw [hpar]
      show ((k.put i st).proc j).state = .unused
      rw [Kern.put_ne _ hji]
      exact hj
  | @forkFail j' s =>
      refine absurd hj' (hcontra ?_)
      rcases eq_or_ne j j' with rfl | hne
      · rw [Kern.setProc_self]
        rfl
      · rw [Kern.setProc_ne _ hne]
        exact hj
  | @fork j' s tf root _ hconf =>
      rcases eq_or_ne j j' with rfl | hne
      · refine ⟨hconf.fs, ?_, ?_⟩
        · rw [Kern.setProc_self]
          rfl
        · rw [Kern.setProc_self]
          exact hk j (by simp [Proc.Live, hj])
      · refine absurd hj' (hcontra ?_)
        rw [Kern.setProc_ne _ hne]
        exact hj
  | @reap w st j' s =>
      refine absurd hj' (hcontra ?_)
      rcases eq_or_ne j j' with rfl | hne
      · rw [Kern.setProc_self]
        rfl
      · rw [Kern.setProc_ne _ hne]
        exact (congrArg Proc.state (Kern.put_ne _ hji st)).trans hj

/-- `wait(0)` touches no file. -/
theorem ends_wait_null (i : Nat) (k : Kern) :
    ends (kstep i (.wait 0)) (fun _ k' _ => k'.sys.fs = k.sys.fs)
      (fun k' _ => ∀ j, j ≠ i → k'.proc j = k.proc j) (fun _ _ => True) k := by
  unfold kstep
  rw [ends_bind, ends_get]
  split
  · rw [ends_onProc]
    exact ends_kexit (fun j hj => Kern.put_ne k hj _) trivial
  · rw [ends_bind]
    unfold kwait
    rw [ends_bind, ends_get]
    dsimp only
    split
    · rw [if_neg (by simp), ends_bind]
      exact ends_freeproc (fun s' hc => ends_pure.mpr (ends_pure.mpr hc.fs)) fun _ => trivial
    · split <;> exact ends_pure.mpr (ends_pure.mpr rfl)

theorem KStep.wait_null {w : List Event} (hs : KStep k i (.wait 0) w k')
    (hj : (k.proc j).state = .zombie) (hj' : (k'.proc j).state = .unused) :
    k'.sys.fs = k.sys.fs := by
  cases hs with
  | ret _ hx => exact (ends_wait_null i k).of_ret hx
  | @exit w k' hi hx =>
      have hji : j ≠ i := by
        rintro rfl
        rw [hi] at hj
        cases hj
      obtain ⟨par, hpar⟩ := reparent_proc i k' j
      rw [hpar] at hj'
      change (k'.proc j).state = .unused at hj'
      rw [(ends_wait_null i k).of_exit hx j hji, hj] at hj'
      cases hj'

/-- **A prepared cycle leaves the disk as it was.** -/
theorem Cycle.sameDisk (hk : DeadClosed k) (h : Cycle Prepared i j k k') :
    k.sys.fs.SameDisk k'.sys.fs := by
  cases h with
  | @mk addr path argv d f n op w₀ w₁ w₂ w₃ k₁ k₂ k₃ k₄ k₅
      hj hfork hc₀ hrun hexec _ hc₁ hlives hop hend hc₂ hz hwait hc₃ hu =>
      obtain ⟨ino, hname, hempty⟩ := hc₀.2
      obtain ⟨hfs, hpid, hfile⟩ := hfork.fork_child hk hc₀.1 hj hrun
      have hstart : Borrows k.sys.fs ino (k₁.at j) := by
        refine ⟨hempty, ?_, ?_, .inr ⟨hfile, ?_⟩⟩
        · show k.sys.fs.names (swapName (k₁.proc j).pid) = some ino
          rw [hpid]
          exact hname
        · show Fs.Exchanged ino k.sys.fs k₁.sys.fs
          rw [hfs]
          exact .refl hempty.wf
        · show k.sys.fs.SameDisk k₁.sys.fs
          rw [hfs]
          exact .refl _
      have hloaded := hstart.step rfl (.ret hrun hexec) hc₁.1
      have hdone := (hlives.lending (fun _ _ _ _ hc => hc.1) hloaded).step hop hend hc₂.1
      obtain rfl : addr = 0 := hc₃.2
      rcases hdone with ⟨-, hr⟩ | ⟨hsame, -⟩
      · rw [hz] at hr
        cases hr
      · rw [hwait.wait_null hz hu]
        exact hsame

theorem Cycles.reach (hC : ∀ k i op w, C k i op w → D k i op w) (h : Cycles C i k n k')
    (hk : Reach D k) : Reach D k' := by
  induction h with
  | zero => exact hk
  | succ _ hc ih => exact hc.reach hC ih

theorem Cycles.sameDisk (h : Cycles Prepared i k n k') (hk : Reach EvictsNonempty k) :
    k.sys.fs.SameDisk k'.sys.fs := by
  induction h with
  | zero => exact .refl _
  | succ hcs hc ih => exact ih.trans (hc.sameDisk (hcs.reach (fun _ _ _ _ h => h.1) hk).deadClosed)

end

/-- Whether `create` finds or makes a file depends on the directory and
on the free inodes only. -/
theorem Fs.SameDisk.create {fs fs' : Fs} (h : fs.SameDisk fs') (name : List Char) (ok : Bool) :
    (fs'.create name ok).isSome = (fs.create name ok).isSome := by
  unfold Fs.create
  rw [h.names, h.freeInodes]
  cases fs.names name with
  | some ino =>
      simp only [h.isFile ino]
      split <;> rfl
  | none =>
      cases fs.freeInodes with
      | nil => rfl
      | cons ino rest => cases ok <;> rfl

/-! ## Executing a cycle -/

/-- A step of slot `i`, if it is possible and its evictions start from
non-empty lists, with its result if it returns. -/
def stepTo (i : Nat) (op : Op) (k : Kern) : Option (Option Res × Kern) :=
  if (k.proc i).state = .runnable then
    match kstep i op k with
    | .panic _ _ => none
    | .ret r k' w => if ∀ e ∈ w, e.Nonempty then some (some r, k') else none
    | .exit k' w => if ∀ e ∈ w, e.Nonempty then some (none, reparent i k') else none
  else none

/-- `fork`, `exec` of `a`, `exit` and `wait`, if they are a cycle of
slots `i` and `j`. -/
def cycleOnce (i j : Nat) (k : Kern) : Option Kern := do
  let (_, k₁) ← stepTo i .fork k
  let (r, k₂) ← stepTo j execA k₁
  let (_, k₄) ← stepTo j (.exit 0) k₂
  let (_, k₅) ← stepTo i (.wait 0) k₄
  if (k.proc j).state = .unused ∧ (k₁.proc j).state = .runnable ∧ r = some (.int 0) ∧
      (k₄.proc j).state = .zombie ∧ (k₅.proc j).state = .unused then some k₅ else none

section
variable {C : Kern → Nat → Op → List Event → Prop} {i j : Nat} {k k' : Kern}

theorem stepTo_some {op : Op} {r : Option Res} (h : stepTo i op k = some (r, k')) :
    ∃ w, KStep k i op w k' ∧ (∀ e ∈ w, e.Nonempty) ∧
      ∀ a, r = some a → kstep i op k = .ret a k' w := by
  unfold stepTo at h
  split at h
  · rename_i hrun
    split at h
    · cases h
    · rename_i hx
      split at h
      · rename_i hw
        cases h
        exact ⟨_, .ret hrun hx, hw, fun a ha => by cases ha; exact hx⟩
      · cases h
    · rename_i hx
      split at h
      · rename_i hw
        cases h
        exact ⟨_, .exit hrun hx, hw, fun a ha => by cases ha⟩
      · cases h
  · cases h

theorem cycleOnce_some (hfork : ∀ w, (∀ e ∈ w, e.Nonempty) → C k i .fork w)
    (hrest : ∀ k i op w, op.own = true ∨ op = .wait 0 → (∀ e ∈ w, e.Nonempty) → C k i op w)
    (h : cycleOnce i j k = some k') : Cycle C i j k k' := by
  simp only [cycleOnce, Option.bind_eq_bind, Option.bind_eq_some_iff, Prod.exists] at h
  obtain ⟨r₀, k₁, h₁, r, k₂, h₂, r₃, k₄, h₄, r₄, k₅, h₅, h⟩ := h
  split at h
  · rename_i hcond
    obtain ⟨hj, hrun, rfl, hz, hu⟩ := hcond
    cases h
    obtain ⟨w₀, hs₀, hw₀, -⟩ := stepTo_some h₁
    obtain ⟨w₁, -, hw₁, hx⟩ := stepTo_some h₂
    obtain ⟨w₂, hs₂, hw₂, -⟩ := stepTo_some h₄
    obtain ⟨w₃, hs₃, hw₃, -⟩ := stepTo_some h₅
    exact .mk hj hs₀ (hfork _ hw₀) hrun (hx _ rfl) (le_refl 0) (hrest _ _ _ _ (.inl rfl) hw₁)
      .refl rfl hs₂ (hrest _ _ _ _ (.inl rfl) hw₂) hz hs₃ (hrest _ _ _ _ (.inr rfl) hw₃) hu
  · cases h

end

/-! ## Swap files over many cycles -/

/-- **Swap files come back**: after any number of cycles whose swap files
were there before, entries, inodes and blocks are what they were, and
`kexec` can make a swap file exactly when it could before. -/
theorem swap_files_returned {i n : Nat} {k k' : Kern} (hk : Reach EvictsNonempty k)
    (h : Cycles Prepared i k n k') :
    k.sys.fs.SameDisk k'.sys.fs ∧
      ∀ name ok, (k'.sys.fs.create name ok).isSome = (k.sys.fs.create name ok).isSome :=
  ⟨h.sameDisk hk, (h.sameDisk hk).create⟩

/-- The small machine on another disk. -/
def smallKernOn (fs : Fs) : Kern := { smallKern with sys := { smallKern.sys with fs := fs } }

theorem smallKernOn_fresh {fs : Fs} (h : fs.Wf) : Fresh (smallKernOn fs) :=
  ⟨smallKern_fresh.proc, rfl, smallKern_fresh.kend, smallKern_fresh.free_nodup,
    smallKern_fresh.free_range, rfl, h⟩

/-- What `userinit` leaves on that disk. -/
theorem smallKernOn_booted {fs : Fs} {k : Kern} {w : List Event}
    (h : userinit (smallKernOn fs) = .ret () k w) : k.sys.fs = fs ∧ k.nextpid = 2 := by
  obtain ⟨j, s, tf, root, hc, -, rfl⟩ := (userinit_shape _).of_ret h
  exact ⟨hc.fs, rfl⟩

/-- The disk on which the process with pid 2 has left its file. -/
def keptFs : Fs := { smallFs with
  freeInodes := [4, 5, 6]
  names := Function.update smallFs.names (swapName 2) (some 3)
  inode := Function.update smallFs.inode 3 Inode.empty }

theorem keptFs_create : smallFs.create (swapName 2) true = some (3, keptFs) := by
  unfold Fs.create
  rw [smallFs_names_swap]
  rfl

/-- One cycle of slots 0 and 1, right after `userinit`. -/
theorem cycle_of_check {C : Kern → Nat → Op → List Event → Prop} (fs : Fs)
    (hfork : ∀ k w, k.sys.fs = fs → k.nextpid = 2 → (∀ e ∈ w, e.Nonempty) → C k 0 .fork w)
    (hrest : ∀ k i op w, op.own = true ∨ op = .wait 0 → (∀ e ∈ w, e.Nonempty) → C k i op w)
    (hwf : fs.Wf) (p : Kern → Bool)
    (h : (match userinit (smallKernOn fs) with
      | .ret _ k _ => (cycleOnce 0 1 k).any p
      | _ => false) = true) :
    ∃ k k', Reach EvictsNonempty k ∧ k.sys.fs = fs ∧ Cycles C 0 k 1 k' ∧ p k' = true := by
  cases hx : userinit (smallKernOn fs) with
  | ret u k w =>
      rw [hx] at h
      change (cycleOnce 0 1 k).any p = true at h
      cases hk' : cycleOnce 0 1 k with
      | none => rw [hk'] at h; cases h
      | some k' =>
          rw [hk'] at h
          obtain ⟨hfs, hpid⟩ := smallKernOn_booted hx
          exact ⟨k, k', ⟨_, .boot (smallKernOn_fresh hwf) hx⟩, hfs,
            .succ .zero (cycleOnce_some (hfork k · hfs hpid) hrest hk'), h⟩
  | exit k w => rw [hx] at h; cases h
  | panic m w => rw [hx] at h; cases h

theorem swap_files_returned_kept : ∃ k k', Reach EvictsNonempty k ∧ Cycles Prepared 0 k 1 k' ∧
    k.sys.fs.SameDisk k'.sys.fs ∧
      ∀ name ok, (k'.sys.fs.create name ok).isSome = (k.sys.fs.create name ok).isSome := by
  obtain ⟨k, k', hk, -, hc, -⟩ := cycle_of_check (C := Prepared) keptFs
    (fun k w hfs hpid hw => ⟨hw, 3, by rw [hfs, hpid]; rfl, by rw [hfs]; exact ⟨rfl, rfl, rfl, rfl⟩⟩)
    (fun k i op w hop hw => ⟨hw, by
      rcases hop with h | rfl
      · cases op <;> trivial
      · rfl⟩)
    (smallKern_fresh.fs.create keptFs_create) (fun _ => true) (by decide +kernel)
  exact ⟨k, k', hk, hc, swap_files_returned hk hc⟩

/-- The disk with one free inode left. -/
def lastFs : Fs := { smallFs with freeInodes := [3] }

theorem lastFs_wf : lastFs.Wf where
  free := by decide
  named name ino h hmem :=
    smallKern_fresh.fs.named name ino h (List.mem_cons.mpr (.inl (by simpa [lastFs] using hmem)))
  swap := smallKern_fresh.fs.swap

/-- A child of slot 0 in slot 1 cannot start the executable. -/
def execFails (k : Kern) : Bool :=
  match stepTo 0 .fork k with
  | none => false
  | some (_, k₁) =>
      match kstep 1 execA k₁ with
      | .ret (.int n) _ _ => n == -1
      | _ => false

theorem execFails_true {k : Kern} (h : execFails k = true) :
    ∃ w w' k₁ k₂, KStep k 0 .fork w k₁ ∧ kstep 1 execA k₁ = .ret (.int (-1)) k₂ w' := by
  unfold execFails at h
  split at h
  · cases h
  · rename_i hfork
    split at h
    · rename_i hexec
      obtain rfl := eq_of_beq h
      obtain ⟨w, hs, -⟩ := stepTo_some hfork
      exact ⟨w, _, _, _, hs, hexec⟩
    · cases h

/-- **Swap files stay**: after one cycle the directory has one more entry
and the last inode is gone, and the `exec` of the next child fails. -/
theorem swap_file_stays : ∃ k k', Reach EvictsNonempty k ∧ Cycles EvictsNonempty 0 k 1 k' ∧
    ¬ k.sys.fs.SameDisk k'.sys.fs ∧
    k.sys.fs.names (swapName 2) = none ∧ k'.sys.fs.names (swapName 2) = some 3 ∧
    k.sys.fs.freeInodes = [3] ∧ k'.sys.fs.freeInodes = [] ∧
    ∃ w w' k₁ k₂, KStep k' 0 .fork w k₁ ∧ kstep 1 execA k₁ = .ret (.int (-1)) k₂ w' := by
  obtain ⟨k, k', hk, hfs, hc, hp⟩ := cycle_of_check (C := EvictsNonempty) lastFs
    (fun _ _ _ _ hw => hw) (fun _ _ _ _ _ hw => hw) lastFs_wf
    (fun k' => k'.sys.fs.names (swapName 2) == some 3 && k'.sys.fs.freeInodes == [] && execFails k')
    (by decide +kernel)
  simp only [Bool.and_eq_true, beq_iff_eq] at hp
  obtain ⟨⟨hname, hfree⟩, hfail⟩ := hp
  have hname₀ : k.sys.fs.names (swapName 2) = none := by
    rw [hfs]
    exact smallFs_names_swap 2
  refine ⟨k, k', hk, hc, fun hsame => ?_, hname₀, hname, by rw [hfs]; rfl, hfree,
    execFails_true hfail⟩
  rw [hsame.names, hname₀] at hname
  cases hname

end OsSuite.Xv6
