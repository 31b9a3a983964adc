import OsSuite.Lib.Simulation
import OsSuite.Xv6.SwapSlots

/-!
# SwapFiles — every slot below the lowest free one has been written

`writei` refuses to start behind the end of a file. Slots are handed out
lowest first, so a slot in use has every lower slot in use, or has had:
the file reaches up to the lowest free slot. This couples the bitmap with
the size of the file and breaks when one is copied without the other.

`FilesFrame` is what one process can do to the files at all; it is used
for every claim that two processes do not disturb each other.
-/

namespace OsSuite.Xv6

/-! ## One process and the files -/

/-- The inode belongs to the swap file of the process. -/
def St.Mine (st : St) (ino : Nat) : Prop :=
  st.p.swapFile = some ino ∨ st.sys.fs.names (swapName st.p.pid) = some ino

/-- **What a process does to the files**: it writes to its own swap file,
which it may have made from a free inode. -/
structure FilesFrame (st st' : St) : Prop where
  pid : st'.p.pid = st.p.pid
  free : ∀ ino ∈ st'.sys.fs.freeInodes, ino ∈ st.sys.fs.freeInodes
  names : ∀ n, n ≠ swapName st.p.pid → st'.sys.fs.names n = st.sys.fs.names n
  mine : ∀ ino, st'.Mine ino → st.Mine ino ∨ ino ∈ st.sys.fs.freeInodes
  inode : ∀ ino, ¬ st.Mine ino → ino ∉ st.sys.fs.freeInodes →
    st'.sys.fs.inode ino = st.sys.fs.inode ino

theorem FilesFrame.refl (st : St) : FilesFrame st st :=
  ⟨rfl, fun _ h => h, fun _ _ => rfl, fun _ h => .inl h, fun _ _ _ => rfl⟩

theorem FilesFrame.trans {st st' st'' : St} (h : FilesFrame st st') (h' : FilesFrame st' st'') :
    FilesFrame st st'' where
  pid := h'.pid.trans h.pid
  free ino hino := h.free ino (h'.free ino hino)
  names n hn := by
    rw [h'.names n (by rw [h.pid]; exact hn)]
    exact h.names n hn
  mine ino hino := by
    rcases h'.mine ino hino with hm | hf
    · exact h.mine ino hm
    · exact .inr (h.free ino hf)
  inode ino hm hf := by
    have hm' : ¬ st'.Mine ino := fun hc => (h.mine ino hc).elim hm hf
    rw [h'.inode ino hm' fun hc => hf (h.free ino hc), h.inode ino hm hf]

/-- A change of the process' own swap file. -/
theorem FilesFrame.ofWrite {st : St} (fs : Fs) (p' : Proc) (hpid : p'.pid = st.p.pid)
    (hfile : p'.swapFile = st.p.swapFile ∨ p'.swapFile = none) (hn : fs.names = st.sys.fs.names)
    (hfree : fs.freeInodes = st.sys.fs.freeInodes)
    (hino : ∀ ino, st.p.swapFile ≠ some ino → fs.inode ino = st.sys.fs.inode ino) :
    FilesFrame st ((st.withFs fs).withProc p') where
  pid := hpid
  free ino h := by rw [← hfree]; exact h
  names n _ := congrFun hn n
  mine ino h := by
    refine .inl ?_
    rcases h with h | h
    · rcases hfile with hf | hf
      · exact .inl (hf ▸ h)
      · change p'.swapFile = some ino at h
        rw [hf] at h
        cases h
    · change fs.names (swapName p'.pid) = some ino at h
      rw [hn, hpid] at h
      exact .inr h
  inode ino hm _ := hino ino fun hc => hm (.inl hc)

theorem FilesFrame.ofProc {st : St} {p' : Proc} (hpid : p'.pid = st.p.pid)
    (hfile : p'.swapFile = st.p.swapFile) : FilesFrame st (st.withProc p') :=
  .ofWrite st.sys.fs p' hpid (.inl hfile) rfl rfl fun _ _ => rfl

/-- What a swap write can do to the files. -/
structure SwapWrite.Post (fs : Fs) (file : Option Nat) (fs' : Fs) : Prop where
  names : fs'.names = fs.names
  freeInodes : fs'.freeInodes = fs.freeInodes
  other : ∀ ino, file ≠ some ino → fs'.inode ino = fs.inode ino
  size : ∀ ino, (fs.inode ino).size ≤ (fs'.inode ino).size

theorem SwapWrite.post {fs fs' : Fs} {slot : Nat} {src : Option Page} {file : Option Nat} {r : Int}
    (h : SwapWrite fs slot src file fs' r) : SwapWrite.Post fs file fs' := by
  have hid : SwapWrite.Post fs file fs := ⟨rfl, rfl, fun _ _ => rfl, fun _ => Nat.le_refl _⟩
  cases h with
  | null => exact hid
  | @write ino pg hsrc =>
      have hw := Fs.writei_spec fs ino (fun i => pg (pgoff i)) (show slot * 4096 % 4096 = 0 by omega)
      refine ⟨hw.names, hw.freeInodes, fun j hj => hw.other j fun hc => hj (hc ▸ rfl), fun j => ?_⟩
      rcases eq_or_ne j ino with rfl | hne
      · exact hw.size
      · rw [hw.other j hne]
  | @noBlock ino hacc hb =>
      obtain ⟨hw, -⟩ := fs.bmap_spec ino (slot * 4096 / 1024)
      refine ⟨hw.names, hw.freeInodes, fun j hj => hw.other j fun hc => hj (hc ▸ rfl), fun j => ?_⟩
      rcases eq_or_ne j ino with rfl | hne
      · rw [hw.size]
      · rw [hw.other j hne]
  | refused hacc => exact hid

/-- `itrunc` empties one file. -/
theorem itrunc_other (fs : Fs) {ino j : Nat} (h : j ≠ ino) :
    (fs.itrunc ino).inode j = fs.inode j := by
  simp [Fs.itrunc, Fs.setInode, Function.update_of_ne h]

theorem FilesFrame.exited (st : St) (status : Int) : FilesFrame st (st.exited status) := by
  unfold St.exited
  split
  · rename_i hf
    exact .ofWrite st.sys.fs _ rfl (.inr rfl) rfl rfl fun _ _ => rfl
  · rename_i ino hf
    refine .ofWrite (st.sys.fs.itrunc ino) _ rfl (.inr rfl) rfl rfl fun j hj => ?_
    exact itrunc_other _ fun hc => hj (by rw [hf, hc])

theorem FilesFrame.create {st : St} {ok : Bool} {ino : Nat} {fs : Fs}
    (h : st.sys.fs.create (swapName st.p.pid) ok = some (ino, fs)) :
    FilesFrame st ((st.withFs fs).withProc { st.p with swapFile := some ino }) := by
  rcases Fs.create_some h with ⟨hn, rfl⟩ | ⟨hn, rest, hfree, rfl⟩
  · refine ⟨rfl, fun _ h => h, fun _ _ => rfl, fun j hj => .inl ?_, fun _ _ _ => rfl⟩
    rcases hj with hj | hj
    · cases hj
      exact .inr hn
    · exact .inr hj
  · refine ⟨rfl, fun j hj => ?_, fun n hne => Function.update_of_ne hne _ _, fun j hj => .inr ?_,
      fun j _ hj => ?_⟩
    · rw [hfree]
      exact List.mem_cons_of_mem _ hj
    · rw [hfree]
      rcases hj with hj | hj
      · cases hj
        exact List.mem_cons_self
      · change Function.update st.sys.fs.names (swapName st.p.pid) (some ino)
          (swapName st.p.pid) = some j at hj
        rw [Function.update_self] at hj
        cases hj
        exact List.mem_cons_self
    · rw [hfree, List.mem_cons, not_or] at hj
      exact Function.update_of_ne hj.1 _ _

/-- Every run of a process' code stays in its frame. -/
def filesLink : Link St Event where
  ret st w st' := (∀ e ∈ w, e.Nonempty) → FilesFrame st st'
  exit st w st' := (∀ e ∈ w, e.Nonempty) → FilesFrame st st'
  panic _ _ _ := True

theorem SameTables.filesFrame {st st' : St} (hfs : st'.sys.fs = st.sys.fs)
    (h : SameTables st.p st'.p) : FilesFrame st st' := by
  refine ⟨h.pid, fun _ hi => by rwa [hfs] at hi, fun _ _ => by rw [hfs], fun ino hm => .inl ?_,
    fun _ _ _ => by rw [hfs]⟩
  unfold St.Mine at hm ⊢
  rwa [hfs, h.swapFile, h.pid] at hm

theorem files_tables : TableRel filesLink where
  composes :=
    { refl := fun st _ => .refl st
      trans := fun h h' hw => (h fun e he => hw e (List.mem_append_left _ he)).trans
        (h' fun e he => hw e (List.mem_append_right _ he))
      exit := fun h h' hw => (h fun e he => hw e (List.mem_append_left _ he)).trans
        (h' fun e he => hw e (List.mem_append_right _ he))
      panic := fun _ _ => trivial }
  same hfs hs _ := hs.filesFrame hfs
  emptyRet hw hA := absurd hA hw
  emptyExit hw hA := absurd hA hw
  emptyPanic _ := trivial
  stop _ _ := trivial
  exited st status _ := .exited st status
  observe st _ _ _ := .refl st
  evict st _ := .refl st
  swapOut st slot _ fs va _ hw _ :=
    .ofWrite fs _ rfl (.inl rfl) hw.post.names hw.post.freeInodes hw.post.other
  swapFull st _ := ⟨fun _ => .exited st _, fun _ => trivial⟩
  swapPanic _ _ _ _ := trivial
  swapFail st slot _ fs r _ hw _ := by
    refine ⟨fun _ => FilesFrame.trans ?_ (.exited _ _), fun _ => trivial⟩
    exact .ofWrite fs _ rfl (.inl rfl) hw.post.names hw.post.freeInodes hw.post.other
  remove _ _ _ := .ofProc rfl rfl
  take st va _ := by
    refine .ofProc ?_ ?_ <;> unfold Proc.takeSwapped <;> split <;> rfl
  insert _ _ _ _ _ _ := .ofProc rfl rfl
  insertNeg _ _ _ _ _ _ hpid hfile _ := .ofProc hpid hfile
  mark _ _ _ _ _ := .ofProc rfl rfl
  create _ _ _ _ h _ := .create h
  commit _ _ := .ofProc rfl rfl
  env st n _ := .ofWrite { st.sys.fs with nfree := n } st.p rfl (.inl rfl) rfl rfl fun _ _ => rfl

/-! ## The file reaches up to the lowest free slot -/

/-- A swap-out is accepted: there is a swap file, the slot starts within
it and ends within the largest file. A write that was accepted fails only
on a full disk. -/
def SwapAccepted : Event → Prop
  | .swapOut slot _ size =>
      (∃ n, size = some n ∧ slot * 4096 ≤ n) ∧ slot * 4096 + 4096 ≤ maxfileBytes
  | .swapFail nfree => nfree = 0
  | _ => True

instance : DecidablePred SwapAccepted
  | .swapOut slot _ (some n) =>
      decidable_of_iff (slot * 4096 ≤ n ∧ slot * 4096 + 4096 ≤ maxfileBytes)
        (by simp [SwapAccepted])
  | .swapOut _ _ none => isFalse (by simp [SwapAccepted])
  | .swapFail nfree => inferInstanceAs (Decidable (nfree = 0))
  | .evict _ | .fault _ _ _ _ | .inserted _ _ _ | .removed _ _ _ | .marked _ | .swapFull _
  | .swapFile | .reset | .alloc _ | .forked _ | .evicted .. => isTrue trivial

/-- Whether a process has made its swap file since it was created; stuck
at a swap-out that is refused. -/
def ownFileStep (b : Bool) : Event → Option Bool
  | .swapFile => some true
  | .alloc _ | .forked _ => none
  | e => if SwapAccepted e then some b else none

/-- Pages are swapped out only by processes that made their swap file. -/
def ownFileOk (b : Bool) : Event → Prop
  | .swapOut _ _ _ => b = true
  | _ => True

instance (b : Bool) : (e : Event) → Decidable (ownFileOk b e)
  | .swapOut _ _ _ => inferInstanceAs (Decidable (b = true))
  | .evict _ | .fault _ _ _ _ | .inserted _ _ _ | .removed _ _ _ | .marked _ | .swapFull _
  | .swapFail _ | .swapFile | .reset | .alloc _ | .forked _ | .evicted .. => isTrue trivial

/-- **The swap file of a process matches its slots**, if it has made one
(`b`); otherwise no page is out. -/
structure FileOk (st : St) (b : Bool) : Prop where
  wf : st.sys.fs.Wf
  slots : SlotsOk st.p
  pid : st.p.pid < 1000000000
  file : b = true → ∃ ino, st.p.swapFile = some ino ∧
    st.sys.fs.names (swapName st.p.pid) = some ino ∧
    ∀ s ∈ st.p.slots, s * 4096 + 4096 ≤ (st.sys.fs.inode ino).size
  none : b = false → st.p.swapFile = none ∧ st.p.slots = []

section
variable {st : St} {b : Bool}

/-- Lowest first: everything below the slot is in use, so the file
reaches up to it. -/
theorem FileOk.accepted (h : FileOk st true) {slot : Nat} (hf : st.p.freeSlot = some slot) :
    SwapAccepted (swapOutEvent st slot) := by
  obtain ⟨ino, hfile, -, hsize⟩ := h.file rfl
  obtain ⟨hlt, -, hlow⟩ := freeSlot_some hf
  have hmax : maxSwapPages = 60 := rfl
  refine ⟨⟨(st.sys.fs.inode ino).size, by rw [hfile]; rfl, ?_⟩, ?_⟩
  · rcases Nat.eq_zero_or_pos slot with rfl | hpos
    · exact Nat.zero_le _
    · have hmem : slot - 1 ∈ st.p.slots := by
        have hne := hlow (slot - 1) (by omega)
        rw [h.slots.bit (slot - 1) (by omega)] at hne
        by_contra hnot
        rw [if_neg hnot] at hne
        exact hne rfl
      have hnext : slot * 4096 = (slot - 1) * 4096 + 4096 := by omega
      rw [hnext]
      exact hsize _ hmem
  · unfold maxfileBytes
    omega

theorem FileOk.accepts (h : FileOk st true) {slot ino : Nat} (hf : st.p.freeSlot = some slot)
    (hfile : st.p.swapFile = some ino) :
    Fs.writeiAccepts (st.sys.fs.inode ino) (slot * 4096) 4096 = true := by
  obtain ⟨⟨n, hn, hle⟩, hmax⟩ := h.accepted hf
  rw [hfile] at hn
  cases hn
  unfold maxfileBytes at hmax
  have hmod : (slot * 4096 + 4096) % 4294967296 = slot * 4096 + 4096 :=
    Nat.mod_eq_of_lt (by omega)
  have h1 : ¬ (st.sys.fs.inode ino).size < slot * 4096 := Nat.not_lt.mpr hle
  simp only [Fs.writeiAccepts, maxfileBytes, hmod, Bool.and_eq_true, Bool.not_eq_true',
    Bool.or_eq_false_iff, decide_eq_false_iff_not]
  exact ⟨⟨h1, by omega⟩, decide_eq_true hmax⟩

/-- A write that was accepted fails only on a full disk. -/
theorem FileOk.failed (h : FileOk st true) {slot : Nat} {src : Option Page} {fs : Fs} {r : Int}
    (hf : st.p.freeSlot = some slot) (hw : SwapWrite st.sys.fs slot src st.p.swapFile fs r)
    (hr : r ≠ 0) : fs.nfree = 0 := by
  obtain ⟨ino, hfile, -, -⟩ := h.file rfl
  have hacc := h.accepts hf hfile
  rw [hfile] at hw
  cases hw with
  | @write _ pg _ =>
      have hspec := Fs.writei_spec st.sys.fs ino (fun i => pg (pgoff i)) (show slot * 4096 % 4096 = 0 by omega)
      refine hspec.short hacc fun hc => hr ?_
      rw [if_pos hc]
  | noBlock _ hb => exact (st.sys.fs.bmap_spec ino (slot * 4096 / 1024)).2 hb
  | refused hn => exact absurd hacc hn

/-- The slot that was written is covered. -/
theorem FileOk.swapOut (h : FileOk st true) {slot : Nat} {src : Option Page} {fs : Fs} (va : Nat)
    (hf : st.p.freeSlot = some slot) (hw : SwapWrite st.sys.fs slot src st.p.swapFile fs 0) :
    FileOk ((st.withFs fs).withProc ((st.p.takeSlot slot).recordSwapped va slot)) true where
  wf := h.wf.congr hw.post.names hw.post.freeInodes
  slots := h.slots.swapOut hf va
  pid := h.pid
  file _ := by
    obtain ⟨ino, hfile, hname, hsize⟩ := h.file rfl
    refine ⟨ino, hfile, ?_, fun s hs => ?_⟩
    · show fs.names _ = _
      rw [hw.post.names]
      exact hname
    · show _ ≤ (fs.inode ino).size
      change s ∈ ((st.p.takeSlot slot).recordSwapped va slot).slots at hs
      rw [slots_recordSwapped] at hs
      rcases List.mem_append.mp hs with hs | hs
      · exact (hsize s hs).trans (hw.post.size ino)
      · rw [List.mem_singleton.mp hs]
        rw [hfile] at hw
        generalize hr : (0 : Int) = r at hw
        cases hw with
        | @write _ pg _ =>
            have hspec := Fs.writei_spec st.sys.fs ino (fun i => pg (pgoff i))
              (show slot * 4096 % 4096 = 0 by omega)
            split at hr
            · rename_i hfull
              exact (hspec.full hfull).1
            · cases hr
        | noBlock => cases hr
        | refused => cases hr
  none hb := nomatch hb

/-- Changes elsewhere in the files, and changes of the process that
record no further slot. -/
theorem FileOk.frame (h : FileOk st b) {st' : St} (hwf : st'.sys.fs.Wf)
    (hpid : st'.p.pid = st.p.pid) (hfile : st'.p.swapFile = st.p.swapFile)
    (hok : SlotsOk st'.p) (hsub : st'.p.slots ⊆ st.p.slots)
    (hname : st'.sys.fs.names (swapName st.p.pid) = st.sys.fs.names (swapName st.p.pid))
    (hino : ∀ ino, st.sys.fs.names (swapName st.p.pid) = some ino →
      st'.sys.fs.inode ino = st.sys.fs.inode ino) : FileOk st' b where
  wf := hwf
  slots := hok
  pid := by rw [hpid]; exact h.pid
  file hb := by
    obtain ⟨ino, hf, hn, hs⟩ := h.file hb
    refine ⟨ino, hfile.trans hf, ?_, fun s hmem => ?_⟩
    · rw [hpid, hname]
      exact hn
    · rw [hino ino hn]
      exact hs s (hsub hmem)
  none hb := by
    obtain ⟨hf, hs⟩ := h.none hb
    exact ⟨hfile.trans hf, List.eq_nil_of_subset_nil (by rw [← hs]; exact hsub)⟩

theorem FileOk.ofProc (h : FileOk st b) {p' : Proc} (hpid : p'.pid = st.p.pid)
    (hfile : p'.swapFile = st.p.swapFile) (hok : SlotsOk p') (hsub : p'.slots ⊆ st.p.slots) :
    FileOk (st.withProc p') b :=
  h.frame h.wf hpid hfile hok hsub rfl fun _ _ => rfl

theorem FileOk.create (h : FileOk st b) {ok : Bool} {ino : Nat} {fs : Fs}
    (hc : st.sys.fs.create (swapName st.p.pid) ok = some (ino, fs)) :
    FileOk ((st.withFs fs).withProc { st.p with swapFile := some ino }) true where
  wf := h.wf.create hc
  slots := h.slots.congr h.slots.nonneg rfl fun _ _ => rfl
  pid := h.pid
  file _ := by
    refine ⟨ino, rfl, ?_, fun s hs => ?_⟩
    · show fs.names (swapName st.p.pid) = _
      rcases Fs.create_some hc with ⟨hn, rfl⟩ | ⟨-, rest, -, rfl⟩
      · exact hn
      · exact Function.update_self ..
    · change s ∈ st.p.slots at hs
      show _ ≤ (fs.inode ino).size
      cases b with
      | false =>
          rw [(h.none rfl).2] at hs
          cases hs
      | true =>
          -- the file is there already, and stays as it is
          obtain ⟨ino', -, hn, hsize⟩ := h.file rfl
          rcases Fs.create_some hc with ⟨hn', rfl⟩ | ⟨hnone, -⟩
          · rw [hn] at hn'
            cases hn'
            exact hsize s hs
          · rw [hn] at hnone
            cases hnone
  none hb := nomatch hb

end

theorem ownFileStep_accepted {b b' : Bool} {e : Event} (h : ownFileStep b e = some b') :
    SwapAccepted e := by
  unfold ownFileStep at h
  split at h
  · trivial
  · cases h
  · cases h
  · split at h
    · assumption
    · cases h

/-- The code of a process follows `ownFileStep`. -/
def ownFileLink : Link St Event :=
  simulates ownFileStep ownFileOk Event.Nonempty FileOk
    fun st => st.sys.fs.Wf ∧ st.p.swapFile = none

theorem wf_exited {st : St} (h : st.sys.fs.Wf) (status : Int) :
    (st.exited status).sys.fs.Wf ∧ (st.exited status).p.swapFile = none := by
  refine ⟨?_, rfl⟩
  unfold St.exited
  dsimp only
  split
  · exact h
  · exact h.congr rfl rfl

/-- A swap-out of a process that has made its file. -/
theorem FileOk.step_swapOut {st : St} {b : Bool} (h : FileOk st b) {slot : Nat}
    (hf : st.p.freeSlot = some slot) (hok : ownFileOk b (swapOutEvent st slot)) :
    FileOk st true ∧ ownFileStep b (swapOutEvent st slot) = some true := by
  have hb : b = true := hok
  subst hb
  exact ⟨h, if_pos (h.accepted hf)⟩

theorem ownFile_tables : TableRel ownFileLink where
  composes := simulates_composes _ _ _ _ _
  same hfs hs _ b h _ := by
    have hslots := slots_same hs
    exact ⟨b, rfl, h.frame (by rw [hfs]; exact h.wf) hs.pid hs.swapFile (h.slots.same hs)
      (by rw [hslots]; exact List.Subset.refl _) (by rw [hfs]) fun _ _ => by rw [hfs]⟩
  emptyRet hw hA := absurd hA hw
  emptyExit hw hA := absurd hA hw
  emptyPanic hw hA := absurd hA hw
  exited st status _ b h _ := ⟨b, rfl, wf_exited h.wf status⟩
  stop _ _ _ b _ _ := ⟨b, rfl⟩
  observe _ e he _ b h _ := ⟨b, by cases e <;> first | rfl | exact he.elim, h⟩
  evict _ _ b h _ := ⟨b, rfl, h⟩
  swapOut st slot _ fs va hf hw _ b h had := by
    obtain ⟨h', hstep⟩ := h.step_swapOut hf had.1
    exact ⟨true, replay_one hstep, h'.swapOut va hf hw⟩
  swapFull st _ := ⟨fun _ b h _ => ⟨b, rfl, wf_exited h.wf _⟩, fun _ _ b _ _ => ⟨b, rfl⟩⟩
  swapPanic st slot hf _ _ b h had := ⟨true, replay_one (h.step_swapOut hf had.1).2⟩
  swapFail st slot _ fs r hf hw hr := by
    have hrun : ∀ b, FileOk st b →
        Admits ownFileStep ownFileOk [swapOutEvent st slot, .swapFail fs.nfree] b →
        replay ownFileStep [swapOutEvent st slot, .swapFail fs.nfree] b = some true := by
      intro b h had
      obtain ⟨h', hstep⟩ := h.step_swapOut hf had.1
      have hfail : ownFileStep true (.swapFail fs.nfree) = some true :=
        if_pos (h'.failed hf hw hr)
      simp [replay, hstep, hfail]
    refine ⟨fun _ b h had => ⟨true, hrun b h had, wf_exited ?_ _⟩,
      fun _ _ b h had => ⟨true, hrun b h had⟩⟩
    exact h.wf.congr hw.post.names hw.post.freeInodes
  remove st hpos _ b h _ := by
    refine ⟨b, rfl, h.ofProc rfl rfl ?_ (List.Subset.refl _)⟩
    exact h.slots.congr (by show 0 ≤ st.p.numResident - 1; omega) rfl fun _ _ => rfl
  take st va _ b h _ := by
    refine ⟨b, rfl, h.ofProc ?_ ?_ (h.slots.take va) ?_⟩
    · unfold Proc.takeSwapped
      split <;> rfl
    · unfold Proc.takeSwapped
      split <;> rfl
    · cases hi : st.p.swappedIdx va with
      | none => simp [Proc.takeSwapped, hi]
      | some i => exact fun s hs => (slots_takeSwapped hi).subset (List.mem_cons_of_mem _ hs)
  insert st va sw hpos _ _ b h _ := by
    refine ⟨b, rfl, h.ofProc rfl rfl ?_ (List.Subset.refl _)⟩
    exact h.slots.congr (by show 0 ≤ st.p.numResident + 1; omega) rfl fun _ _ => rfl
  insertNeg st p' va sw hneg _ _ _ _ b h _ := absurd h.slots.nonneg (by omega)
  mark st va i _ _ b h _ :=
    ⟨b, rfl, h.ofProc rfl rfl (h.slots.congr h.slots.nonneg rfl fun _ _ => rfl)
      (List.Subset.refl _)⟩
  create st ok ino fs hc _ b h _ := ⟨true, rfl, h.create hc⟩
  commit st _ b h _ :=
    ⟨b, rfl, h.ofProc rfl rfl (h.slots.congr (le_refl 0) rfl fun _ _ => rfl) (List.Subset.refl _)⟩
  env st n _ b h _ :=
    ⟨b, rfl, h.frame (h.wf.congr rfl rfl) rfl rfl h.slots (List.Subset.refl _) rfl fun _ _ => rfl⟩

/-! ## Runs -/

/-- One flag per process slot. -/
def ownFilesStep (bs : Nat → Bool) : Nat × Event → Option (Nat → Bool)
  | (_, .alloc j) => some (Function.update bs j false)
  | (_, .forked j) => some (Function.update bs j false)
  | (i, e) => (ownFileStep (bs i) e).map (Function.update bs i)

def ownFilesOk (bs : Nat → Bool) (x : Nat × Event) : Prop := ownFileOk (bs x.1) x.2

instance (bs : Nat → Bool) (x : Nat × Event) : Decidable (ownFilesOk bs x) :=
  inferInstanceAs (Decidable (ownFileOk (bs x.1) x.2))

theorem ownFilesStep_own (bs : Nat → Bool) (i : Nat) (e : Event) (b' : Bool)
    (h : ownFileStep (bs i) e = some b') :
    ownFilesStep bs (i, e) = some (Function.update bs i b') := by
  unfold ownFilesStep
  split
  · rename_i heq
    cases heq
    cases h
  · rename_i heq
    cases heq
    cases h
  · rename_i heq
    cases heq
    rw [h]
    rfl

theorem ownFilesStep_accepted {bs bs' : Nat → Bool} {x : Nat × Event}
    (h : ownFilesStep bs x = some bs') : SwapAccepted x.2 := by
  unfold ownFilesStep at h
  split at h
  · trivial
  · trivial
  · obtain ⟨b', hb', -⟩ := Option.map_eq_some_iff.mp h
    exact ownFileStep_accepted hb'

/-- A fork went through. -/
def Event.isFork : Event → Bool
  | .forked _ => true
  | _ => false

/-- Evictions start from a non-empty list, a process forks only while none
of its pages is out, and process numbers fit into the name of a file. -/
def SwapCond (k : Kern) (i : Nat) (_ : Op) (w : List Event) : Prop :=
  (∀ e ∈ w, e.Nonempty) ∧
    (w.any Event.isFork = true → (k.proc i).numSwapped = 0 ∧ k.nextpid < 1000000000)

instance (k : Kern) (i : Nat) (op : Op) (w : List Event) : Decidable (SwapCond k i op w) :=
  inferInstanceAs (Decidable (_ ∧ (_ → _)))

/-- **The files of all processes**: each live one matches its slots, and
no two share a file. -/
structure FilesInv (k : Kern) (bs : Nat → Bool) : Prop where
  wf : k.sys.fs.Wf
  ok : ∀ j, (k.proc j).Live → FileOk (k.at j) (bs j)
  dead : ∀ j, ¬ (k.proc j).Live → (k.proc j).swapFile = none
  pid : ∀ j, (k.proc j).Live → (k.proc j).pid < k.nextpid
  inj : ∀ i j, (k.proc i).Live → (k.proc j).Live → (k.proc i).pid = (k.proc j).pid → i = j

/-- Code of slot `i` leaves the file of slot `j` alone. -/
theorem FilesInv.other {k : Kern} {bs : Nat → Bool} (h : FilesInv k bs) {i j : Nat} (hij : j ≠ i)
    (hi : (k.proc i).Live) (hj : (k.proc j).Live) {st : St} (hf : FilesFrame (k.at i) st)
    (hwf : st.sys.fs.Wf) {p : Proc} (hs : SameTables (k.proc j) p) :
    FileOk ⟨st.sys, p⟩ (bs j) := by
  have hpids : (k.proc j).pid ≠ (k.proc i).pid := fun hc => hij (h.inj j i hj hi hc)
  have hnames : swapName (k.proc j).pid ≠ swapName (k.proc i).pid := fun hc =>
    hpids (swapName_inj (h.ok j hj).pid (h.ok i hi).pid hc)
  refine (h.ok j hj).frame hwf hs.pid hs.swapFile ((h.ok j hj).slots.same hs)
    (by rw [slots_same hs]; exact List.Subset.refl _) (hf.names _ hnames) fun ino hino => ?_
  refine hf.inode ino ?_ (h.wf.named _ _ hino)
  have hother : k.sys.fs.names (swapName (k.proc i).pid) ≠ some ino := fun hc =>
    hnames (h.wf.swap _ _ ino hino hc)
  rintro (hm | hm)
  · cases hb : bs i with
    | false =>
        have := ((h.ok i hi).none hb).1
        rw [hm] at this
        cases this
    | true =>
        obtain ⟨ino', hfile, hn, -⟩ := (h.ok i hi).file hb
        rw [hm] at hfile
        cases hfile
        exact hother hn
  · exact hother hm

theorem SameTables.parent (p : Proc) (par : Option Nat) :
    SameTables p { p with parent := par } :=
  ⟨rfl, rfl, rfl, rfl, rfl, rfl, rfl, rfl, rfl⟩

/-- What code of slot `i` does to the invariant, up to slot `i` itself. -/
theorem FilesInv.put {k : Kern} {bs : Nat → Bool} (h : FilesInv k bs) {i : Nat}
    (hi : (k.proc i).Live) {st : St} (hf : FilesFrame (k.at i) st) (hwf : st.sys.fs.Wf)
    {b : Bool} (hlive : st.p.Live → FileOk st b) (hdead : ¬ st.p.Live → st.p.swapFile = none) :
    FilesInv (k.put i st) (Function.update bs i b) := by
  have hpid : st.p.pid = (k.proc i).pid := hf.pid
  have hwas : ∀ j, ((k.put i st).proc j).Live → (k.proc j).Live ∧
      ((k.put i st).proc j).pid = (k.proc j).pid := fun j hj => by
    rcases eq_or_ne j i with rfl | hne
    · exact ⟨hi, by rw [Kern.put_self]; exact hpid⟩
    · rw [Kern.put_ne k hne] at hj ⊢
      exact ⟨hj, rfl⟩
  refine ⟨hwf, fun j hj => ?_, fun j hj => ?_, fun j hj => ?_, fun j j' hj hj' heq => ?_⟩
  · rcases eq_or_ne j i with rfl | hne
    · rw [Function.update_self]
      rw [Kern.put_self] at hj
      have hat : (k.put j st).at j = st := by
        unfold Kern.at
        rw [Kern.put_self]
        rfl
      rw [hat]
      exact hlive hj
    · rw [Function.update_of_ne hne]
      have hat : (k.put i st).at j = ⟨st.sys, k.proc j⟩ := by
        unfold Kern.at
        rw [Kern.put_ne k hne]
        rfl
      rw [hat]
      exact h.other hne hi (hwas j hj).1 hf hwf (.refl _)
  · rcases eq_or_ne j i with rfl | hne
    · rw [Kern.put_self] at hj ⊢
      exact hdead hj
    · rw [Kern.put_ne k hne] at hj ⊢
      exact h.dead j hj
  · rw [(hwas j hj).2]
    exact h.pid j (hwas j hj).1
  · rw [(hwas j hj).2, (hwas j' hj').2] at heq
    exact h.inj j j' (hwas j hj).1 (hwas j' hj').1 heq

/-- The same files and the same processes, up to the machine, the parents
and slots that are not live. -/
theorem FilesInv.congr {k k' : Kern} {bs bs' : Nat → Bool} (h : FilesInv k bs)
    (hfs : k'.sys.fs = k.sys.fs) (hnext : k.nextpid ≤ k'.nextpid)
    (hlive : ∀ j, (k'.proc j).Live → (k.proc j).Live ∧ SameTables (k.proc j) (k'.proc j) ∧
      bs' j = bs j)
    (hdead : ∀ j, ¬ (k'.proc j).Live → (k'.proc j).swapFile = none) : FilesInv k' bs' := by
  refine ⟨by rw [hfs]; exact h.wf, fun j hj => ?_, hdead, fun j hj => ?_, fun i j hi hj heq => ?_⟩
  · obtain ⟨hl, hs, hb⟩ := hlive j hj
    have hj := h.ok j hl
    rw [hb]
    exact hj.frame (by show k'.sys.fs.Wf; rw [hfs]; exact h.wf) hs.pid hs.swapFile
      (hj.slots.same hs) (by show (k'.proc j).slots ⊆ _; rw [slots_same hs]; exact List.Subset.refl _)
      (by show k'.sys.fs.names _ = _; rw [hfs]; rfl)
      fun ino _ => by show k'.sys.fs.inode ino = _; rw [hfs]; rfl
  · obtain ⟨hl, hs, -⟩ := hlive j hj
    have := h.pid j hl
    have := hs.pid
    omega
  · obtain ⟨hli, hsi, -⟩ := hlive i hi
    obtain ⟨hlj, hsj, -⟩ := hlive j hj
    rw [hsi.pid, hsj.pid] at heq
    exact h.inj i j hli hlj heq

theorem slots_eq_nil {p : Proc} (h : p.numSwapped = 0) : p.slots = [] := by
  rw [← List.length_eq_zero_iff, length_slots, h]

/-- The child of a fork has no file yet, and no page out. -/
theorem FilesInv.fork {k : Kern} {bs : Nat → Bool} (h : FilesInv k bs) {i j : Nat}
    (hi : (k.proc i).Live) (hj : (k.proc j).state = .unused) (hzero : (k.proc i).numSwapped = 0)
    (hnext : k.nextpid < 1000000000) {s : Sys} (hconf : SameConf k.sys s) (tf root : Frame) :
    FilesInv ((k.bump.withSys s).setProc j
      (((k.proc j).fresh k.nextpid tf root).forkFrom (k.proc i) i))
      (Function.update bs j false) := by
  have hnone : (k.proc j).swapFile = none := h.dead j (by simp [Proc.Live, hj])
  have hwf : s.fs.Wf := by rw [hconf.fs]; exact h.wf
  refine ⟨hwf, fun j' hj' => ?_, fun j' hj' => ?_, fun j' hj' => ?_, fun a b ha hb heq => ?_⟩
  · rcases eq_or_ne j' j with rfl | hne
    · rw [Function.update_self]
      unfold Kern.at
      rw [Kern.setProc_self]
      have hok := (h.ok i hi).slots.forkFrom ((k.proc j').fresh k.nextpid tf root) i
      refine ⟨hwf, hok, hnext, fun h => absurd h Bool.false_ne_true, fun _ => ⟨hnone, ?_⟩⟩
      exact slots_eq_nil hzero
    · rw [Kern.setProc_ne _ hne] at hj'
      rw [Function.update_of_ne hne]
      unfold Kern.at
      rw [Kern.setProc_ne _ hne]
      refine (h.ok j' hj').frame hwf rfl rfl (h.ok j' hj').slots (List.Subset.refl _)
        (by show s.fs.names _ = _; rw [hconf.fs]; rfl)
        fun ino _ => by show s.fs.inode ino = _; rw [hconf.fs]; rfl
  · rcases eq_or_ne j' j with rfl | hne
    · rw [Kern.setProc_self]
      exact hnone
    · rw [Kern.setProc_ne _ hne] at hj' ⊢
      exact h.dead j' hj'
  · rcases eq_or_ne j' j with rfl | hne
    · rw [Kern.setProc_self]
      exact Nat.lt_succ_self _
    · rw [Kern.setProc_ne _ hne] at hj' ⊢
      exact Nat.lt_succ_of_lt (h.pid j' hj')
  · have hold : ∀ a, ((k.bump.withSys s).proc a).Live → ((k.bump.withSys s).proc a).pid ≠
        (((k.proc j).fresh k.nextpid tf root).forkFrom (k.proc i) i).pid := fun a ha =>
      ne_of_lt (h.pid a ha)
    rcases eq_or_ne a j with rfl | hna
    · rcases eq_or_ne b a with rfl | hnb
      · rfl
      · rw [Kern.setProc_ne _ hnb] at hb heq
        rw [Kern.setProc_self] at heq
        exact absurd heq.symm (hold b hb)
    · rw [Kern.setProc_ne _ hna] at ha heq
      rcases eq_or_ne b j with rfl | hnb
      · rw [Kern.setProc_self] at heq
        exact absurd heq (hold a ha)
      · rw [Kern.setProc_ne _ hnb] at hb heq
        exact h.inj a b ha hb heq

theorem files_step {k k' : Kern} {i : Nat} {op : Op} {w : List Event} {bs : Nat → Bool}
    (hi : (k.proc i).state = .runnable) (hc : SwapCond k i op w) (hk : FilesInv k bs)
    (had : Admits ownFilesStep ownFilesOk (w.map (Prod.mk i)) bs)
    (h : KShape (ownFileLink.and filesLink) k i w k') :
    ∃ bs', replay ownFilesStep (w.map (Prod.mk i)) bs = some bs' ∧ FilesInv k' bs' := by
  have hlive : (k.proc i).Live := by simp [Proc.Live, hi]
  have hown := admits_party ownFilesStep_own (fun _ _ _ h => h) had
  have hret : ∀ st, (ownFileLink.and filesLink).ret (k.at i) w st →
      st.p.state = (k.proc i).state →
      ∃ b', replay ownFilesStep (w.map (Prod.mk i)) bs = some (Function.update bs i b') ∧
        FilesInv (k.put i st) (Function.update bs i b') := by
    intro st hT hst
    obtain ⟨b', hb', hok⟩ := hT.1 hc.1 (bs i) (hk.ok i hlive) hown
    refine ⟨b', replay_party ownFilesStep_own hb', ?_⟩
    refine hk.put hlive (hT.2 hc.1) hok.wf (fun _ => hok) fun hd => absurd ?_ hd
    simp [Proc.Live, hst, hi]
  cases h with
  | own hT hst =>
      obtain ⟨b', hb', hinv⟩ := hret _ hT hst
      exact ⟨_, hb', hinv⟩
  | @exit w st hT hst =>
      obtain ⟨b', hb', hwf, hnone⟩ := hT.1 hc.1 (bs i) (hk.ok i hlive) hown
      refine ⟨_, replay_party ownFilesStep_own hb', ?_⟩
      have hput : FilesInv (k.put i st) (Function.update bs i b') :=
        hk.put hlive (hT.2 hc.1) hwf (fun hl => absurd hst hl.2) fun _ => hnone
      refine hput.congr rfl (Nat.le_refl _) (fun j hj => ?_) fun j hj => ?_
      · obtain ⟨par, hpar⟩ := reparent_proc i (k.put i st) j
        rw [hpar] at hj ⊢
        exact ⟨hj, .parent _ _, rfl⟩
      · obtain ⟨par, hpar⟩ := reparent_proc i (k.put i st) j
        rw [hpar] at hj ⊢
        exact hput.dead j hj
  | @forkFail j s hj hconf =>
      refine ⟨_, rfl, hk.congr hconf.fs (Nat.le_succ _) (fun j' hj' => ?_) fun j' hj' => ?_⟩
      · rcases eq_or_ne j' j with rfl | hne
        · rw [Kern.setProc_self] at hj'
          exact absurd rfl hj'.1
        · rw [Kern.setProc_ne _ hne] at hj' ⊢
          exact ⟨hj', .refl _, Function.update_of_ne hne _ _⟩
      · rcases eq_or_ne j' j with rfl | hne
        · rw [Kern.setProc_self]
          exact hk.dead j' (by simp [Proc.Live, hj])
        · rw [Kern.setProc_ne _ hne] at hj' ⊢
          exact hk.dead j' hj'
  | @fork j s tf root hj hconf =>
      obtain ⟨hzero, hnext⟩ := hc.2 (by simp [Event.isFork])
      refine ⟨Function.update bs j false, ?_, hk.fork hlive hj hzero hnext hconf tf root⟩
      simp [replay, ownFilesStep, Function.update_idem]
  | @reap w st j s hT hst hj hconf =>
      obtain ⟨b', hb', hput⟩ := hret _ hT hst
      have hij : j ≠ i := by
        rintro rfl
        rw [hi] at hj
        cases hj
      have hnone : (k.proc j).swapFile = none := hk.dead j (by simp [Proc.Live, hj])
      refine ⟨_, hb', hput.congr hconf.fs (Nat.le_refl _) (fun j' hj' => ?_) fun j' hj' => ?_⟩
      · rcases eq_or_ne j' j with rfl | hne
        · rw [Kern.setProc_self] at hj'
          exact absurd rfl hj'.1
        · rw [Kern.setProc_ne _ hne] at hj' ⊢
          exact ⟨hj', .refl _, rfl⟩
      · rcases eq_or_ne j' j with rfl | hne
        · rw [Kern.setProc_self]
          exact hnone
        · rw [Kern.setProc_ne _ hne] at hj' ⊢
          exact hput.dead j' hj'

theorem filesInv_boot {k₀ : Kern} (hf : Fresh k₀) {s : Sys} (hconf : SameConf k₀.sys s)
    (j : Nat) (tf root : Frame) :
    FilesInv ((k₀.bump.withSys s).setProc j ((k₀.proc j).booted k₀.nextpid tf root))
      (Function.update (fun _ => false) j false) := by
  have hwf : s.fs.Wf := by rw [hconf.fs]; exact hf.fs
  have honly : ∀ j', (((k₀.bump.withSys s).setProc j
      ((k₀.proc j).booted k₀.nextpid tf root)).proc j').Live → j' = j := fun j' hj' => by
    by_contra hne
    rw [Kern.setProc_ne _ hne, show (k₀.bump.withSys s).proc j' = Proc.zero from hf.proc j'] at hj'
    exact hj'.1 rfl
  refine ⟨hwf, fun j' hj' => ?_, fun j' hj' => ?_, fun j' hj' => ?_, fun a b ha hb _ => ?_⟩
  · obtain rfl := honly j' hj'
    rw [Function.update_self]
    unfold Kern.at
    rw [Kern.setProc_self]
    refine ⟨hwf, ?_, ?_, (nomatch ·), fun _ => ⟨?_, rfl⟩⟩
    · exact (slotsOk_reset (k₀.proc j') k₀.nextpid tf root).congr (le_refl 0) rfl fun _ _ => rfl
    · show k₀.nextpid < _
      rw [hf.nextpid]
      decide
    · show (k₀.proc j').swapFile = none
      rw [hf.proc j']
      rfl
  · rcases eq_or_ne j' j with rfl | hne
    · rw [Kern.setProc_self] at hj'
      exact absurd ⟨nofun, nofun⟩ hj'
    · rw [Kern.setProc_ne _ hne, show (k₀.bump.withSys s).proc j' = Proc.zero from hf.proc j']
      rfl
  · obtain rfl := honly j' hj'
    rw [Kern.setProc_self]
    exact Nat.lt_succ_self _
  · rw [honly a ha, honly b hb]

theorem Run.files {k : Kern} {tr : List (Nat × Event)} (h : Run SwapCond k tr)
    (had : Admits ownFilesStep ownFilesOk tr fun _ => false) :
    ∃ bs, replay ownFilesStep tr (fun _ => false) = some bs ∧ FilesInv k bs := by
  induction h with
  | @boot k₀ k w hf hx =>
      obtain ⟨j, s, tf, root, hconf, rfl, rfl⟩ := (userinit_shape k₀).of_ret hx
      exact ⟨_, rfl, filesInv_boot hf hconf j tf root⟩
  | @step k k' i op w tr _ hs hc ih =>
      obtain ⟨had₁, had₂⟩ := admits_append had
      obtain ⟨bs, hbs, hinv⟩ := ih had₁
      have hi : (k.proc i).state = .runnable := by cases hs <;> assumption
      obtain ⟨bs', hbs', hinv'⟩ := files_step hi hc hinv (had₂ bs hbs)
        (hs.shape (ownFile_tables.and files_tables) hc.1)
      exact ⟨bs', by rw [replay_append, hbs]; exact hbs', hinv'⟩

/-- **Every swap-out is accepted**, in every run in which evictions start
from a non-empty list, processes fork only while none of their pages is
out, and no page of a process is swapped out before the process has made
its swap file. The last part is about one more step, whether it returns,
exits or panics. -/
theorem swap_out_accepted {k : Kern} {tr : List (Nat × Event)} (h : Run SwapCond k tr)
    (had : Admits ownFilesStep ownFilesOk tr fun _ => false) :
    (∀ x ∈ tr, SwapAccepted x.2) ∧
    ∀ i op, (k.proc i).state = .runnable → SwapCond k i op (kstep i op k).events →
      Admits ownFilesStep ownFilesOk (tr ++ (kstep i op k).events.map (Prod.mk i))
        (fun _ => false) →
      ∀ e ∈ (kstep i op k).events, SwapAccepted e := by
  obtain ⟨bs, hbs, hinv⟩ := h.files had
  refine ⟨replay_forall (G := fun x => SwapAccepted x.2) (fun _ _ _ => ownFilesStep_accepted) hbs,
    fun i op hi => ?_⟩
  have hlive : (k.proc i).Live := by simp [Proc.Live, hi]
  have hall : ∀ w : List Event, (∃ bs', replay ownFilesStep (w.map (Prod.mk i)) bs = some bs') →
      ∀ e ∈ w, SwapAccepted e := by
    rintro w ⟨bs', hbs'⟩ e he
    exact replay_forall (G := fun x => SwapAccepted x.2) (fun _ _ _ => ownFilesStep_accepted) hbs' (i, e)
      (List.mem_map_of_mem he)
  have hret : ∀ k' w, ((∀ e ∈ w, e.Nonempty) → KShape (ownFileLink.and filesLink) k i w k') →
      SwapCond k i op w →
      Admits ownFilesStep ownFilesOk (tr ++ w.map (Prod.mk i)) (fun _ => false) →
      ∀ e ∈ w, SwapAccepted e := by
    intro k' w hsh hc had'
    obtain ⟨bs', hbs', -⟩ := files_step hi hc hinv ((admits_append had').2 bs hbs) (hsh hc.1)
    exact hall w ⟨bs', hbs'⟩
  refine (kstep_shape (ownFile_tables.and files_tables) hi op).events (fun _ k' w => hret k' w)
    (fun k' w => hret _ w) fun _ w hp hc had' => ?_
  rcases hp with hp | ⟨j, -, rfl⟩
  · obtain ⟨b', hb'⟩ := hp.1 hc.1 (bs i) (hinv.ok i hlive)
      (admits_party ownFilesStep_own (fun _ _ _ h => h) ((admits_append had').2 bs hbs))
    exact hall w ⟨_, replay_party ownFilesStep_own hb'⟩
  · exact hall _ ⟨_, rfl⟩

/-- A process that swaps a page out, after its own `kexec`. -/
theorem swap_out_accepted_swapRun : ∃ k tr, Run SwapCond k tr ∧
    (∃ x ∈ tr, x.1 = 0 ∧ x.2.asSwapOut = some (0, [], some 0)) ∧
    ∀ x ∈ tr, SwapAccepted x.2 := by
  obtain ⟨k, tr, hk, hp⟩ := Run.of_check SwapCond smallKern_fresh swapRun
    (fun _ tr => decide (Admits ownFilesStep ownFilesOk tr (fun _ => false) ∧
      ∃ x ∈ tr, x.1 = 0 ∧ x.2.asSwapOut = some (0, [], some 0))) (by decide +kernel)
  obtain ⟨had, hmem⟩ := of_decide_eq_true hp
  exact ⟨k, tr, hk, hmem, (swap_out_accepted hk had).1⟩

/-- **A forked child has no swap file**: its first dirty victim is refused
although a slot and 1000 disk blocks are free, and the child is killed. -/
theorem swap_out_refused_after_fork : ∃ k tr, Run AnyStep k tr ∧
    (∃ x ∈ tr, x.1 = 1 ∧ x.2.asSwapOut = some (0, [], none)) ∧
    k.sys.fs.nfree = 1000 ∧ (k.proc 1).state = .zombie ∧ ¬ ∀ x ∈ tr, SwapAccepted x.2 := by
  obtain ⟨k, tr, hk, hp⟩ := Run.of_check AnyStep smallKern_fresh
    [(0, execA), (0, .sbrk 8192), (0, .access .store 28672 7), (0, .fork), (1, drained),
      (1, .access .load 32768 0)]
    (fun k tr => decide ((∃ x ∈ tr, x.1 = 1 ∧ x.2.asSwapOut = some (0, [], none)) ∧
      k.sys.fs.nfree = 1000 ∧ (k.proc 1).state = .zombie ∧ ¬ ∀ x ∈ tr, SwapAccepted x.2)) (by decide +kernel)
  exact ⟨k, tr, hk, of_decide_eq_true hp⟩

end OsSuite.Xv6
