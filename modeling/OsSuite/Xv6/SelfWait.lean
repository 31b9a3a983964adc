import OsSuite.Xv6.Uses
import OsSuite.Xv6.Run

/-!
# SelfWait — when a page fault waits for its own process

A transfer enters `handle_pgfault` with one buffer, one inode and at most
one transaction in its hands. The fault waits for one of them exactly if
one of its uses of the file system collides with the transfer.
-/

namespace OsSuite.Xv6

namespace Reentry

open Held

section
variable {α β : Type} {strict : Prop} {h : Held} {v v₀ : Vol} {x : Point} {level : Nat}
  {E : Vol → Held → Prop} {I : Vol → Prop} [Growing I]

/-! ## The handler -/

/-- The transfer is at block `x.bn` of its file, and the volume has grown
from `v₀`. -/
structure Spot (x : Point) (v₀ v : Vol) : Prop where
  wf : v.Wf
  grown : v₀.Ext v
  bn : x.bn < maxfile
  addr : v.addr x.file x.bn = x.addr
  ne : x.addr ≠ 0

theorem Spot.addr_ne (hv : Spot x v₀ v) : v.addr x.file x.bn ≠ 0 := by
  rw [hv.addr]
  exact hv.ne

theorem Spot.ext {v' : Vol} (hv : Spot x v₀ v) (hw : v'.Wf) (he : v.Ext v') : Spot x v₀ v' :=
  ⟨hw, hv.grown.trans he, hv.bn, (he.addr hv.bn hv.addr_ne).trans hv.addr, hv.ne⟩

instance : Growing (Spot x v₀) := ⟨Spot.wf, Spot.ext⟩

theorem Spot.solid (hv : Spot x v₀ v) : v.Solid x.addr := by
  have := hv.wf.solid x.file (.data x.bn) hv.bn hv.addr_ne
  rwa [Vol.at_, hv.addr] at this

/-- No other place of the volume records the block of the transfer. -/
theorem Spot.unique (hv : Spot x v₀ v) {j : Nat} (pos : Pos) (hp : pos.Valid)
    (h : v.at_ j pos = x.addr) : j = x.file ∧ pos = .data x.bn :=
  hv.wf.apart j x.file pos (.data x.bn) hp hv.bn (h ▸ hv.ne) (h.trans hv.addr.symm)

theorem Spot.ind_not_held (hv : Spot x v₀ v) (j level : Nat) :
    (v.inode j).addrs ndirect ∉ (x.held level).bufs := fun hm => by
  cases (hv.unique (j := j) .ind trivial (List.mem_singleton.mp hm)).2

theorem Spot.safe (hv : Spot x v₀ v) : Safe x v where
  area := hv.solid.area
  aside := by
    refine ⟨fun hm => ?_, fun j => ⟨fun hj => ?_, fun _ => hv.ind_not_held j 0⟩⟩
    · have := hv.solid.area
      rw [List.mem_singleton.mp hm] at this
      omega
    · have := (hv.wf.solid j .ind trivial (by rw [Vol.at_, hj]; decide)).area
      rw [Vol.at_, hj] at this
      omega

theorem Spot.off (hv : Spot x v₀ v) {j : Nat} (hj : j ≠ x.file) (level : Nat) :
    (x.held level).Off j v where
  clear b hb := by
    rw [List.mem_singleton.mp hb]
    exact hv.solid
  apart v' hw he pos hp hm := hj ((hv.ext hw he).unique pos hp (List.mem_singleton.mp hm)).1

/-! ### The swap file -/

theorem calm_swapWritePage {slot : Nat} {f : Option Nat} {page : Option (Nat → UInt8)} (hw : v.Wf)
    (hlock : strict → ∀ s ∈ f, s ∉ h.inodes) (ho : strict → ∀ s ∈ f, h.Off s v)
    (hib : strict → ∀ s ∈ f, iblock s ∉ h.bufs) :
    (watch strict).calm (swapWritePage slot f page) (fun _ v' h' => h' = h ∧ v'.Wf ∧ v.Ext v')
      E h v := by
  cases f with
  | none => exact Watcher.calm_pure.mpr ⟨rfl, hw, .refl v⟩
  | some s =>
      have hfinish : ∀ {copy : Nat → Nat → BProg Bool} {src : Nat → UInt8},
          Copies strict E (h.after (.ilock s)) s (slot * 4096) v copy →
          (watch strict).calm (do
              Prog.tell (.ilock s)
              let r ← writei copy src s (slot * 4096) 4096
              Prog.tell (.iunlock s)
              pure (r == some 4096)) (fun _ v' h' => h' = h ∧ v'.Wf ∧ v.Ext v')
            E h v := fun {copy src} hcopy => by
        refine Watcher.calm_bind.mpr (Watcher.calm_tell.mpr ⟨fun hm => hlock hm.1 s rfl hm.2, ?_⟩)
        refine (calm_writei hw src hcopy (fun hs => ⟨(ho hs s rfl).clear, (ho hs s rfl).apart⟩)
          fun hs => hib hs s rfl).bind fun r v' h' hq => ?_
        obtain ⟨rfl, hq⟩ := hq
        simpa using hq
      cases page with
      | none => exact hfinish fun _ _ _ _ _ _ _ => Watcher.calm_panic
      | some page => exact hfinish copies_kernelCopy

theorem calm_swapReadPage {slot : Nat} {f : Option Nat} (hw : v.Wf)
    (hlock : strict → ∀ s ∈ f, s ∉ h.inodes) (ho : strict → ∀ s ∈ f, h.Off s v) :
    (watch strict).calm (swapReadPage slot f) (fun _ v' h' => h' = h ∧ v'.Wf ∧ v.Ext v')
      E h v := by
  cases f with
  | none => exact Watcher.calm_panic
  | some s =>
      refine Watcher.calm_bind.mpr (Watcher.calm_tell.mpr ⟨fun hm => hlock hm.1 s rfl hm.2, ?_⟩)
      refine (calm_readi (h := h.after (.ilock s)) hw copies_kernelCopy fun hs =>
        ⟨(ho hs s rfl).clear, (ho hs s rfl).apart⟩).bind fun r v' h' hq => ?_
      obtain ⟨rfl, hq⟩ := hq
      simpa using hq

theorem stays_swapWritePage (slot : Nat) (f : Option Nat) (page : Option (Nat → UInt8)) :
    Stays I (io (swapWritePage slot f page)) fun _ => True := fun _ _ hv =>
  calm_io.mpr ((calm_swapWritePage (Growing.wf hv) False.elim False.elim False.elim).mono
    (fun _ _ _ hq => ⟨hq.1, Growing.ext hv hq.2.1 hq.2.2, trivial⟩) fun _ _ h => h)

theorem stays_swapReadPage (slot : Nat) (f : Option Nat) :
    Stays I (io (swapReadPage slot f)) fun _ => True := fun _ _ hv =>
  calm_io.mpr ((calm_swapReadPage (Growing.wf hv) False.elim False.elim).mono
    (fun _ _ _ hq => ⟨hq.1, Growing.ext hv hq.2.1 hq.2.2, trivial⟩) fun _ _ h => h)

/-- The fault waits for the inode of the transfer if it is the swap file. -/
theorem caught_swapWritePage {slot : Nat} {f : Option Nat} {page : Option (Nat → UInt8)}
    (hv : Spot x v₀ v) (hf : ∀ s ∈ f, s < ninodes) :
    (watchOps True).Caught (io (swapWritePage slot f page)) (x.held level) v ↔
      f = some x.file := by
  rw [caught_io]
  by_cases hs : f = some x.file
  · subst hs
    refine iff_of_true ?_ rfl
    cases page <;> exact Watcher.caught_tell_bind.mpr (.inl ⟨trivial, List.mem_cons_self⟩)
  · have hne : ∀ s ∈ f, s ≠ x.file := fun s hm he => hs (he ▸ hm)
    refine iff_of_false (Watcher.calm.not_caught (E := fun _ _ => True)
      (calm_swapWritePage hv.wf ?_ ?_ ?_)) hs
    · exact fun _ s hm hin => hne s hm (List.mem_singleton.mp hin)
    · exact fun _ s hm => hv.off (hne s hm) level
    · exact fun _ s hm => iblock_not_held hv.solid.area (hf s hm)

theorem caught_swapReadPage {slot : Nat} {f : Option Nat} (hv : Spot x v₀ v) :
    (watchOps True).Caught (io (swapReadPage slot f)) (x.held level) v ↔ f = some x.file := by
  rw [caught_io]
  by_cases hs : f = some x.file
  · subst hs
    exact iff_of_true (Watcher.caught_tell_bind.mpr (.inl ⟨trivial, List.mem_cons_self⟩)) rfl
  · have hne : ∀ s ∈ f, s ≠ x.file := fun s hm he => hs (he ▸ hm)
    refine iff_of_false (Watcher.calm.not_caught (E := fun _ _ => True)
      (calm_swapReadPage hv.wf ?_ ?_)) hs
    · exact fun _ s hm hin => hne s hm (List.mem_singleton.mp hin)
    · exact fun _ s hm => hv.off (hne s hm) level

/-- A transaction on the swap file. -/
theorem tallies_swap {t : Window} (ht : t.Sane) {f : Option Nat} {y : BProg α}
    (hn : Stays (Spot x v₀) (io y) fun _ => True)
    (hy : ∀ v, Spot x v₀ v → ((watchOps True).Caught (io y) (x.held 1) v ↔ f = some x.file)) :
    Tallies x 0 (Spot x v₀) (transact t (io y)) fun v => [t.use 0 f y v] := fun v hv => by
  have hcaught : (watchOps True).Caught (io y) (x.held 1) v ↔
      f = some x.file ∨ ∃ u ∈ ([] : List Use), u.Collides x := (hy v hv).trans (by simp)
  have huse := caught_transact_iff ht hv.solid.area
    ((hn (x.held 1) v hv).mono (fun _ _ _ hq => hq.1) fun _ _ h => h) hcaught
  rwa [use_io] at huse

/-! ### The executable -/

theorem thenUses_ret {ε : Type} {p : Prog Vol ε α} {k : α → Vol → List Use} {a : α} {v' : Vol}
    {w : List ε} (h : p v = .ret a v' w) : thenUses p k v = k a v' := by
  unfold thenUses
  rw [h]

theorem io_bind {y : BProg α} {k : α → BProg β} : io (y >>= k) = io y >>= fun a => io (k a) :=
  Prog.relabel_bind

theorem readi_le_size (ip : Inode) (off n : Nat) :
    Fs.readi ip off n = 0 ∨ off + Fs.readi ip off n ≤ ip.size := by
  unfold Fs.readi
  split
  · exact .inl rfl
  · rename_i h
    simp only [Bool.or_eq_true, decide_eq_true_eq, not_or, Nat.not_lt] at h
    right
    split <;> omega

/-- A read of the loader waits for the block that is being copied if it
comes to it. -/
theorem tallies_readi (j off n : Nat) :
    Tallies x 0 (Spot x v₀) (io (readi kernelCopy j off n)) fun v => [readUse v j off n] :=
  fun v hv => by
    obtain ⟨w, hrun, hw⟩ := readi_run hv.wf j off n
    rw [caught_io, Watcher.caught_of_ret hrun, hw.alarms True _ (hv.ind_not_held j 0)]
    simp only [true_and, Point.held, List.mem_singleton, exists_eq_left, readUse, Use.Collides]
    have hvalid : ∀ k, off ≤ k → k < off + Fs.readi (v.inode j).file off n → k / 1024 < maxfile :=
      fun k hk hk' => div_lt_maxfile (by
        have hsize : (v.inode j).file.size ≤ maxfileBytes := hv.wf.size j
        have := readi_le_size (v.inode j).file off n
        omega)
    constructor
    · rintro ⟨k, hk, hk', haddr⟩
      obtain ⟨rfl, hpos⟩ := hv.unique (.data (k / 1024)) (hvalid k hk hk') haddr
      exact ⟨rfl, k, hk, hk', Pos.data.inj hpos⟩
    · rintro ⟨rfl, k, hk, hk', hbn⟩
      exact ⟨k, hk, hk', by rw [hbn, hv.addr]⟩

theorem stays_readi (j off n : Nat) :
    Stays I (io (readi kernelCopy j off n)) fun _ => True := fun _ _ hv =>
  calm_io.mpr ((calm_readi (Growing.wf hv) copies_kernelCopy False.elim).mono
    (fun _ _ _ hq => ⟨hq.1, Growing.ext hv hq.2.1 hq.2.2, trivial⟩) fun _ _ h => h)

/-- The header loop, for reads of which `P` is observed. -/
theorem segLoop_reads {P : List BlockEv → Prop} {j : Nat} (hnil : P [])
    (happ : ∀ {w w'}, P w → P w' → P (w ++ w')) (hread : ∀ off n, ∃ w,
      readi kernelCopy j off n v = .ret (some (Fs.readi (v.inode j).file off n)) v w ∧ P w)
    (va : Nat) : ∀ n off buf, ∃ w,
    segLoop j va n off buf v = .ret (segSearch (v.inode j).file va n off buf) v w ∧ P w
  | 0, _, _ => ⟨[], rfl, hnil⟩
  | n + 1, off, buf => by
      obtain ⟨w, hrun, hw⟩ := hread off 56
      obtain ⟨w', hrest, hw'⟩ := segLoop_reads hnil happ hread va n ((off + 56) % 4294967296)
        (Fs.readInto (v.inode j).file off 56 buf)
      rw [segLoop, Prog.bind_ret hrun, Prog.get_bind, segSearch]
      split
      · exact ⟨w, by simp [pure, Prog.pure, Out.after], hw⟩
      · rw [hrest]
        exact ⟨w ++ w', rfl, happ hw hw'⟩

/-- The header search at the level of blocks finds what the search of the
pager's model finds. -/
theorem segFind_reads {P : List BlockEv → Prop} {j : Nat} (hnil : P [])
    (happ : ∀ {w w'}, P w → P w' → P (w ++ w')) (hread : ∀ off n, ∃ w,
      readi kernelCopy j off n v = .ret (some (Fs.readi (v.inode j).file off n)) v w ∧ P w)
    (va : Nat) (junk : Nat → UInt8) : ∃ w,
    segFind j va junk v = .ret (segFor (v.inode j).file junk va) v w ∧ P w := by
  obtain ⟨w, hrun, hw⟩ := hread 0 64
  obtain ⟨w', hrest, hw'⟩ := segLoop_reads hnil happ hread va
    (ElfHdr.decode (Fs.readInto (v.inode j).file 0 64 junk)).phnum
    ((ElfHdr.decode (Fs.readInto (v.inode j).file 0 64 junk)).phoff % 4294967296) junk
  rw [segFind, Prog.bind_ret hrun, Prog.get_bind, hrest]
  exact ⟨w ++ w', rfl, happ hw hw'⟩

theorem segFind_run (hw : v.Wf) (j va : Nat) (junk : Nat → UInt8) : ∃ w,
    segFind j va junk v = .ret (segFor (v.inode j).file junk va) v w := by
  obtain ⟨w, hrun, -⟩ := segFind_reads (P := fun _ => True) trivial (fun _ _ => trivial)
    (fun off n => (readi_run hw j off n).imp fun _ h => ⟨h.1, trivial⟩) va junk
  exact ⟨w, hrun⟩

omit [Growing I] in
theorem io_get_stays : Stays I (io Prog.get) fun _ => True := fun _ _ hv =>
  calm_io.mpr (Watcher.calm_get.mpr ⟨rfl, hv, trivial⟩)

/-- After a read of the loader, which changes nothing. -/
theorem Tallies.after_readi {j off n : Nat} {f : Vol → BProg β} {S : Vol → Vol → List Use}
    (hf : ∀ v', Tallies x 0 (Spot x v₀) (io (f v')) (S v')) :
    Tallies x 0 (Spot x v₀) (io (do
      let _ ← readi kernelCopy j off n
      let v' ← Prog.get
      f v')) fun v => readUse v j off n :: S v v := by
  rw [io_bind]
  refine ((tallies_readi j off n).bind (stays_readi j off n).neutral
    (Z := fun _ v => S v v) fun _ _ => ?_).congr fun v hv => ?_
  · rw [io_bind]
    exact ((tallies_nil fun _ _ => caught_io.not.mpr Watcher.not_caught_get).bind io_get_stays.neutral
      fun v' _ => hf v').congr fun v _ => by rw [thenUses_io, thenUses_ret (w := []) rfl]; rfl
  · obtain ⟨w, hrun, -⟩ := readi_run hv.wf j off n
    rw [thenUses_io, thenUses_ret hrun]
    rfl

theorem tallies_segLoop (j va : Nat) : ∀ n off buf,
    Tallies x 0 (Spot x v₀) (io (segLoop j va n off buf)) fun v => segUses v j va n off buf
  | 0, _, _ => tallies_nil fun _ _ => caught_io.not.mpr Watcher.not_caught_pure
  | n + 1, off, buf => by
      refine Tallies.after_readi (S := fun v' v =>
        if (ProgHdr.decode (Fs.readInto (v'.inode j).file off 56 buf)).covers va then []
        else segUses v j va n ((off + 56) % 4294967296)
          (Fs.readInto (v'.inode j).file off 56 buf)) fun v' => ?_
      dsimp only
      split
      · exact tallies_nil fun _ _ => caught_io.not.mpr Watcher.not_caught_pure
      · exact tallies_segLoop j va n _ _

theorem tallies_segFind (j va : Nat) (junk : Nat → UInt8) :
    Tallies x 0 (Spot x v₀) (io (segFind j va junk)) fun v =>
      readUse v j 0 64 :: segUses v j va
        (ElfHdr.decode (Fs.readInto (v.inode j).file 0 64 junk)).phnum
        ((ElfHdr.decode (Fs.readInto (v.inode j).file 0 64 junk)).phoff % 4294967296) junk :=
  Tallies.after_readi (S := fun v' v => segUses v j va
    (ElfHdr.decode (Fs.readInto (v'.inode j).file 0 64 junk)).phnum
    ((ElfHdr.decode (Fs.readInto (v'.inode j).file 0 64 junk)).phoff % 4294967296) junk)
    fun _ => tallies_segLoop j va _ _ junk

omit [Growing I] in
theorem stays_get_bind {f : Vol → BProg β} {Q : β → Prop}
    (hf : ∀ v', Stays I (io (f v')) Q) :
    Stays I (io (Prog.get >>= f)) Q := by
  rw [io_bind]
  exact io_get_stays.bind fun v' _ => hf v'

theorem stays_segLoop (j va : Nat) : ∀ n off buf,
    Stays I (io (segLoop j va n off buf)) fun _ => True
  | 0, _, _ => fun _ _ hv => calm_io.mpr (Watcher.calm_pure.mpr ⟨rfl, hv, trivial⟩)
  | n + 1, off, buf => by
      rw [segLoop, io_bind]
      refine (stays_readi j off 56).bind fun _ _ => stays_get_bind fun v' => ?_
      dsimp only
      split
      · exact fun _ _ hv => calm_io.mpr (Watcher.calm_pure.mpr ⟨rfl, hv, trivial⟩)
      · exact stays_segLoop j va n _ _

theorem stays_segFind (j va : Nat) (junk : Nat → UInt8) :
    Stays I (io (segFind j va junk)) fun _ => True := by
  rw [segFind, io_bind]
  exact (stays_readi j 0 64).bind fun _ _ => stays_get_bind fun v' => stays_segLoop j va _ _ _

variable {e : Entry} {p : Proc} {va : Nat}

theorem stays_loadPage : Stays I (io (loadPage e p va)) fun _ => True := by
  have hpure : ∀ b : Bool, Stays I (io (pure b)) fun _ => True := fun b _ _ hv =>
    calm_io.mpr (Watcher.calm_pure.mpr ⟨rfl, hv, trivial⟩)
  unfold loadPage
  split
  · exact hpure false
  · split
    · exact fun _ _ _ => calm_io.mpr Watcher.calm_panic
    · rename_i j hj
      rw [io_bind]
      refine (stays_segFind j va e.junk).bind fun r _ => ?_
      cases r with
      | none => exact hpure _
      | some ph =>
          dsimp only
          rw [io_bind]
          exact (stays_readi j _ _).bind fun r _ => hpure _

/-- **The loader** waits for the block that is being copied if one of its
reads comes to it. -/
theorem tallies_loadPage : Tallies x 0 (Spot x v₀) (io (loadPage e p va)) (loadUses e p va) := by
  have hpure : ∀ b : Bool, Tallies x 0 (Spot x v₀) (io (pure b)) fun _ => [] := fun b =>
    tallies_nil fun _ _ => caught_io.not.mpr Watcher.not_caught_pure
  unfold loadPage
  split
  · rename_i h
    exact (hpure false).congr fun v _ => by rw [loadUses, if_pos h]
  · rename_i h
    split
    · rename_i hj
      exact (tallies_nil fun _ _ => caught_io.not.mpr Watcher.not_caught_panic).congr fun v _ => by
        rw [loadUses, if_neg h, hj]
    · rename_i j hj
      rw [io_bind]
      refine ((tallies_segFind j va e.junk).bind (stays_segFind j va e.junk).neutral
        (Z := fun r v => r.elim [] fun ph => [readUse v j (ph.fileOffset va) (ph.fileSize va)])
        fun r _ => ?_).congr fun v hv => ?_
      · cases r with
        | none => exact hpure _
        | some ph =>
            dsimp only
            rw [io_bind]
            exact (tallies_readi j _ _).bind_nil fun _ _ _ =>
              caught_io.not.mpr Watcher.not_caught_pure
      · obtain ⟨w, hrun⟩ := segFind_run hv.wf j va e.junk
        rw [thenUses_io, thenUses_ret hrun, loadUses, if_neg h, hj]
        dsimp only
        cases segFor (v.inode j).file e.junk va <;> rfl

/-! ### The fault -/

theorem stays_fetchPage (he : e.Sane) : Stays I (fetchPage e p va) fun _ => True := by
  unfold fetchPage
  split
  · exact (stays_transact he.back (stays_swapReadPage _ _)).bind fun ok _ => by
      split
      · exact stays_pure trivial
      · exact stays_panic
  · exact stays_loadPage

theorem tallies_fetchPage (he : e.Sane) :
    Tallies x 0 (Spot x v₀) (fetchPage e p va) (fetchUses e p va) := by
  unfold fetchPage
  split
  · rename_i slot hslot
    refine ((tallies_swap he.back (stays_swapReadPage slot _) fun v hv =>
      caught_swapReadPage hv).bind_nil fun ok h v => ?_).congr fun v _ => by rw [fetchUses, hslot]
    split
    · exact Watcher.not_caught_pure
    · exact Watcher.not_caught_panic
  · rename_i hslot
    exact tallies_loadPage.congr fun v _ => by rw [fetchUses, hslot]

theorem neutral_swapOut (he : e.Sane) :
    Neutral I (swapOut e va) fun p => p.swapFile = e.p.swapFile := by
  unfold swapOut
  split
  · exact (neutral_kexit he.exiting he.swap).of_never fun _ _ => trivial
  · exact (stays_transact he.out (stays_swapWritePage _ _ _)).neutral.bind fun ok _ => by
      split
      · exact neutral_pure rfl
      · exact (neutral_kexit he.exiting he.swap).of_never fun _ _ => trivial

theorem tallies_swapOut (he : e.Sane) :
    Tallies x 0 (Spot x v₀) (swapOut e va) (swapOutUses e) := by
  unfold swapOut
  split
  · rename_i hslot
    exact ((tallies_kexit he.exiting he.swap).weaken fun _ hv => hv.safe).congr fun v _ => by
      rw [swapOutUses, hslot]
  · rename_i slot hslot
    refine ((tallies_swap he.out (stays_swapWritePage slot _ e.page) fun v hv =>
      caught_swapWritePage hv he.swap).bind
        (stays_transact he.out (stays_swapWritePage slot _ e.page)).neutral
        (Z := fun ok => if ok then fun _ => [] else exitUses e.exiting (e.p.takeSlot slot))
        fun ok _ => ?_).congr fun v _ => ?_
    · split
      · exact tallies_nil fun _ _ => Watcher.not_caught_pure
      · exact (tallies_kexit he.exiting he.swap).weaken fun _ hv => hv.safe
    · rw [swapOutUses, hslot]
      rfl

omit [Growing I] in
theorem neutral_dropVictim {i : Nat} {f : Option Nat} (hp : p.swapFile = f) :
    Neutral I (dropVictim i p) fun p => p.swapFile = f := by
  unfold dropVictim
  split
  · exact neutral_panic
  · exact neutral_pure hp

theorem neutral_evictPage (he : e.Sane) :
    Neutral I (evictPage e) fun p => p.swapFile = e.p.swapFile := by
  have hsave : Neutral I (saveVictim e) fun p => p.swapFile = e.p.swapFile := by
    unfold saveVictim
    split
    · exact neutral_swapOut he
    · exact neutral_pure rfl
  exact hsave.bind fun p hp => neutral_dropVictim hp

theorem not_caught_dropVictim {i : Nat} : ¬ (watchOps True).Caught (dropVictim i p) h v := by
  unfold dropVictim
  split
  · exact Watcher.not_caught_panic
  · exact Watcher.not_caught_pure

theorem neutral_allocOrEvict (he : e.Sane) :
    Neutral I (allocOrEvict e) fun p => p.swapFile = e.p.swapFile := by
  unfold allocOrEvict
  split
  · exact neutral_pure rfl
  · refine (neutral_evictPage he).bind fun p hp => ?_
    split
    · exact neutral_pure hp
    · exact neutral_panic

theorem tallies_allocOrEvict (he : e.Sane) :
    Tallies x 0 (Spot x v₀) (allocOrEvict e) (evictUses e) := by
  unfold allocOrEvict
  split
  · rename_i hfree
    exact (tallies_nil fun _ _ => Watcher.not_caught_pure).congr fun v _ => by
      rw [evictUses, if_pos hfree]
  · rename_i hfree
    refine Tallies.bind_nil ?_ fun p h v => ?_
    · refine Tallies.bind_nil ?_ fun p h v => not_caught_dropVictim
      unfold saveVictim
      split
      · rename_i hdirty
        exact (tallies_swapOut he).congr fun v _ => by rw [evictUses, if_neg hfree, if_pos hdirty]
      · rename_i hclean
        exact (tallies_nil fun _ _ => Watcher.not_caught_pure).congr fun v _ => by
          rw [evictUses, if_neg hfree, if_neg hclean]
    · split
      · exact Watcher.not_caught_pure
      · exact Watcher.not_caught_panic

omit [Growing I] in
theorem neutral_addToResidentSet (he : e.Sane) (hp : p.swapFile = e.p.swapFile) :
    Neutral I (addToResidentSet e p) fun _ => True := by
  unfold addToResidentSet
  split
  · exact (neutral_kexit he.exiting (hp ▸ he.swap)).of_never fun _ _ => trivial
  · exact neutral_pure trivial

theorem neutral_handlePgfault (he : e.Sane) :
    Neutral I (handlePgfault e) fun _ => True := by
  unfold handlePgfault
  split
  · exact neutral_pure trivial
  · refine (neutral_allocOrEvict he).bind fun p hp =>
      (stays_fetchPage he).neutral.bind fun ok _ => ?_
    split
    · exact (neutral_addToResidentSet he hp).bind fun _ _ => neutral_pure trivial
    · exact neutral_pure trivial

/-- **A page fault waits for its own process exactly if one of its uses
of the file system collides with the transfer.** -/
theorem tallies_handlePgfault (he : e.Sane) :
    Tallies x 0 (Spot x v₀) (handlePgfault e) e.uses := by
  unfold handlePgfault
  split
  · rename_i hva
    exact (tallies_nil fun _ _ => Watcher.not_caught_pure).congr fun v _ => by
      rw [Entry.uses, if_pos hva]
  · rename_i hva
    refine ((tallies_allocOrEvict he).bind (neutral_allocOrEvict he) fun p hp =>
      (tallies_fetchPage he).bind (stays_fetchPage he).neutral
        (Z := fun ok v => if ok && decide (maxResidentPages ≤ p.numResident)
          then exitUses e.exiting p v else []) fun ok _ => ?_).congr fun v _ => by
            rw [Entry.uses, if_neg hva]
    cases ok with
    | false => exact tallies_nil fun _ _ => Watcher.not_caught_pure
    | true =>
        refine Tallies.bind_nil ?_ fun _ _ _ => Watcher.not_caught_pure
        unfold addToResidentSet
        split
        · rename_i hfull
          refine ((tallies_kexit he.exiting (hp ▸ he.swap)).weaken fun _ hv => hv.safe).congr
            fun v _ => by simp [hfull]
        · rename_i hroom
          exact (tallies_nil fun _ _ => Watcher.not_caught_pure).congr fun v _ => by simp [hroom]

/-! ## The transfer -/

theorem ends_nested {y : FaultProg α} {Q : α → Vol → List BlockEv → Prop}
    {E : Vol → List BlockEv → Prop} {P : String → List BlockEv → Prop} :
    ends (nested y) Q E P v ↔ ends y (fun a v' w => Q a v' (w.map forget))
      (fun _ w => P "exit" (w.map forget)) (fun m w => P m (w.map forget)) v := by
  unfold ends nested
  cases y v <;> exact Iff.rfl

theorem calm_nested {y : FaultProg α} {Q : α → Vol → Held → Prop} {E E' : Vol → Held → Prop}
    (hy : (watchOps False).calm y Q E h v) : (watch False).calm (nested y) Q E' h v := by
  have hnext : ((watch False).comap forget).next = (watchOps False).next := by
    funext h e
    cases e <;> rfl
  have hy' := hy.of_watcher hnext fun h e hf => hf.1.elim
  refine ends_nested.mpr (ends.mono hy' (fun a v' w hq => ?_) (fun _ w hq => ?_) fun _ w hq => ?_)
  · rw [Watcher.alarms_map, Watcher.after_map]
    exact hq
  · rw [Watcher.alarms_map]
    exact hq.1
  · rw [Watcher.alarms_map]
    exact hq

/-- The copies give back what their faults take. -/
theorem calm_copyUser {E : Vol → Held → Prop} {es : List Entry} (hes : ∀ e ∈ es, e.Sane)
    (hv : Spot x v₀ v) :
    (watch False).calm (copyUser es) (fun _ v' h' => h' = h ∧ Spot x v₀ v') E h v := by
  induction es generalizing v with
  | nil => exact Watcher.calm_pure.mpr ⟨rfl, hv⟩
  | cons e es ih =>
      refine (calm_nested (neutral_handlePgfault (hes e List.mem_cons_self) h v hv)).bind
        fun r v' h' hq => ?_
      obtain ⟨rfl, hv', -⟩ := hq
      split
      · exact Watcher.calm_pure.mpr ⟨rfl, hv'⟩
      · exact ih (fun e' he' => hes e' (List.mem_cons_of_mem _ he')) hv'

end

namespace Transfer

variable {T : Transfer} {faults : Nat → List Entry} {q k : Nat} {v v' : Vol} {w : List BlockEv}

/-- Where the transfer is at byte `q` of the user buffer. -/
def point (T : Transfer) (q : Nat) (v : Vol) : Point :=
  ⟨T.file, (T.off + q) / 1024, v.addr T.file ((T.off + q) / 1024), T.depth⟩

/-- **What the transfer holds** when it enters a fault. -/
def Entered (T : Transfer) (q : Nat) (v : Vol) (h : Held) : Prop :=
  Spot (T.point q v) v v ∧ h = (T.point q v).held 0

theorem copies_upTo (hs : ∀ pos, ∀ e ∈ faults pos, e.Sane) (pos : Nat) (v₀ : Vol) :
    Copies False (T.Entered q) ⟨[], [T.file], T.depth⟩ T.file (T.off + pos) v₀
      (fun tot m => upTo faults q k (pos + tot) m) := by
  intro tot m v hw he hbn h0
  rw [Nat.add_assoc] at hbn h0 ⊢
  have hspot : Spot (T.point (pos + tot) v) v v := ⟨hw, .refl v, hbn, rfl, h0⟩
  unfold upTo
  dsimp only
  split
  · rename_i hq
    subst hq
    refine (calm_copyUser (fun e he => hs _ e (List.mem_of_mem_take he)) hspot).bind
      fun ok v' h' hq => ?_
    obtain ⟨rfl, hv'⟩ := hq
    split
    · -- the faults so far have left the block where it was
      have hpoint : T.point (pos + tot) v' = T.point (pos + tot) v := by
        have haddr : v'.addr T.file ((T.off + (pos + tot)) / 1024) = _ := hv'.addr
        rw [point, haddr]
        rfl
      refine Watcher.calm_exit.mpr ?_
      rw [Entered, id_eq, hpoint]
      exact ⟨⟨hv'.wf, .refl v', hv'.bn, hv'.addr, hv'.ne⟩, rfl⟩
    · exact Watcher.calm_pure.mpr ⟨rfl, hv'.wf, hv'.grown⟩
  · exact (calm_copyUser (hs _) hspot).mono (fun _ v' h' hq => ⟨hq.1, hq.2.wf, hq.2.grown⟩)
      fun _ _ h => h

theorem calm_fileread (hw : v.Wf) (hs : ∀ pos, ∀ e ∈ faults pos, e.Sane) (hsrc : T.src = none) :
    (watch False).calm (fileread (upTo faults q k) T.file T.off T.n) (fun _ _ _ => True)
      (T.Entered q) nothing v := by
  have hdepth : T.depth = 0 := by rw [depth, if_pos hsrc]
  have hcopies := copies_upTo (T := T) (q := q) (k := k) hs 0 v
  simp only [Nat.zero_add, Nat.add_zero, hdepth] at hcopies
  unfold fileread
  refine Watcher.calm_bind.mpr (Watcher.calm_tell.mpr ⟨fun hf => hf.1, ?_⟩)
  refine (calm_readi hw hcopies False.elim).bind fun r v' h' _ => ?_
  simp

theorem calm_filewriteLoop (hs : ∀ pos, ∀ e ∈ faults pos, e.Sane) (hsrc : T.src ≠ none)
    (src : Nat → UInt8) (fuel pos : Nat) {v : Vol} (hw : v.Wf) :
    (watch False).calm (filewriteLoop (upTo faults q k) src T.file T.off T.n fuel pos)
      (fun _ _ _ => True) (T.Entered q) nothing v := by
  have hdepth : T.depth = 1 := by rw [depth, if_neg hsrc]
  induction fuel generalizing pos v with
  | zero => exact Watcher.calm_pure.mpr trivial
  | succ fuel ih =>
      unfold filewriteLoop
      split
      · have hcopies := copies_upTo (T := T) (q := q) (k := k) hs pos v
        rw [hdepth] at hcopies
        refine Watcher.calm_bind.mpr (Watcher.calm_tell.mpr ⟨fun hf => hf.1, ?_⟩)
        refine Watcher.calm_bind.mpr (Watcher.calm_tell.mpr ⟨fun hf => hf.1, ?_⟩)
        refine (calm_writei hw _ hcopies False.elim False.elim).bind fun r v' h' hq => ?_
        obtain ⟨rfl, hw', -⟩ := hq
        refine Watcher.calm_bind.mpr (Watcher.calm_tell.mpr ⟨fun hf => hf.1, ?_⟩)
        refine Watcher.calm_bind.mpr (Watcher.calm_tell.mpr ⟨fun hf => hf.1, ?_⟩)
        have hdone : (Held.after ⟨[], [T.file], 1⟩ (.iunlock T.file)).after .endOp = nothing := by
          simp [Held.after, nothing]
        rw [watch_next, watch_next, hdone]
        split
        · exact ih _ hw'
        · exact Watcher.calm_pure.mpr trivial
      · exact Watcher.calm_pure.mpr trivial

/-- **Whenever a transfer enters a fault**, it holds the buffer of the
block at hand, the inode of the file and, if it writes, a transaction. -/
theorem Enters.entered (h : T.Enters faults v q k v' w) (hw : v.Wf)
    (hs : ∀ pos, ∀ e ∈ faults pos, e.Sane) :
    T.Entered q v' ((watch False).after nothing w) := by
  unfold Enters run at h
  cases hsrc : T.src with
  | none =>
      rw [hsrc] at h
      exact (calm_fileread hw hs hsrc).of_exit h
  | some src =>
      rw [hsrc] at h
      exact (calm_filewriteLoop hs (by rw [hsrc]; nofun) src _ 0 hw).of_exit h

end Transfer

section
variable {T : Transfer} {faults : Nat → List Entry} {q k : Nat} {v v' : Vol} {w : List BlockEv}
  {e : Entry}

/-- Fault `e` of a transfer, entered after the observations `w`. -/
theorem caught_iff_collides (hw : v.Wf) (hs : ∀ pos, ∀ e ∈ faults pos, e.Sane)
    (h : T.Enters faults v q k v' w) (he : (faults q)[k]? = some e) :
    (watchOps True).Caught (handlePgfault e) (w.foldl Held.after nothing) v' ↔
      ∃ u ∈ e.uses v', u.Collides (T.point q v') := by
  obtain ⟨hspot, hheld⟩ := h.entered hw hs
  have hheld : w.foldl Held.after nothing = (T.point q v').held 0 := hheld
  rw [hheld]
  exact tallies_handlePgfault (hs q e (List.mem_of_getElem? he)) v' hspot

/-- The uses of a fault fit into the transfer: none of them collides. -/
def Entry.Fits (e : Entry) (x : Point) (v : Vol) : Prop := ∀ u ∈ e.uses v, ¬ u.Collides x

end

/-! ## A small volume

File 2 is the executable, file 3 the swap file with one page, file 4 a
file of one block. -/

def smallVol : Vol where
  used b := decide (b ≤ 52)
  entry _ _ := 0
  inode i :=
    if i = 2 then ⟨128, fun k => if k = 0 then 47 else 0, fun k => smallElf.getD k 0⟩
    else if i = 3 then ⟨4096, fun k => if k < 4 then 48 + k else 0, fun _ => 0⟩
    else if i = 4 then ⟨1024, fun k => if k = 0 then 52 else 0, fun _ => 0⟩
    else ⟨0, fun _ => 0, fun _ => 0⟩

theorem smallVol_at {i : Nat} {pos : Pos} (h0 : smallVol.at_ i pos ≠ 0) :
    ∃ k, pos = .data k ∧ (i = 2 ∧ k = 0 ∧ smallVol.at_ i pos = 47 ∨
      i = 3 ∧ k < 4 ∧ smallVol.at_ i pos = 48 + k ∨ i = 4 ∧ k = 0 ∧ smallVol.at_ i pos = 52) := by
  have hind : (smallVol.inode i).addrs ndirect = 0 := by
    unfold smallVol ndirect
    dsimp only
    split_ifs <;> rfl
  cases pos with
  | ind => exact absurd hind h0
  | data k =>
      refine ⟨k, rfl, ?_⟩
      simp only [Vol.at_, Vol.addr, hind, if_true] at h0 ⊢
      split at h0
      · rename_i hk
        rw [if_pos hk]
        unfold smallVol at h0 ⊢
        dsimp only at h0 ⊢
        split_ifs at h0 ⊢ <;> simp_all
      · exact absurd rfl h0

theorem smallVol_wf : smallVol.Wf where
  low b hb := by
    unfold bitmapBlock at hb
    simp only [smallVol, decide_eq_true_eq]
    omega
  solid i pos _ h0 := by
    obtain ⟨k, -, h | h | h⟩ := smallVol_at h0 <;> rw [h.2.2]
    · exact ⟨rfl, by decide⟩
    · refine ⟨?_, ?_⟩
      · simp only [smallVol, decide_eq_true_eq]
        omega
      · unfold bitmapBlock
        omega
    · exact ⟨rfl, by decide⟩
  apart i j pos pos' _ _ h0 heq := by
    obtain ⟨k, rfl, h⟩ := smallVol_at h0
    obtain ⟨k', rfl, h'⟩ := smallVol_at (heq ▸ h0)
    rw [heq] at h
    refine ⟨by omega, congrArg Pos.data (by omega)⟩
  full i bn hbn := by
    have hlt : bn < ndirect ∧ (smallVol.inode i).addrs bn ≠ 0 := by
      unfold smallVol at hbn ⊢
      unfold ndirect
      dsimp only at hbn ⊢
      split_ifs at hbn ⊢ <;> dsimp only at hbn ⊢ <;> (try split_ifs) <;> omega
    rw [Vol.addr, if_pos hlt.1]
    exact hlt.2
  size i := by
    unfold smallVol maxfileBytes
    dsimp only
    split_ifs <;> decide

/-- The log of an otherwise idle machine. -/
def idleWindow : Window := ⟨⟨0, false, []⟩, ⟨1, false, []⟩⟩

/-- A process that runs the executable has its text not yet loaded. -/
def textFault : Entry where
  p := { Proc.zero with
    state := .running, pid := 3, sz := 28672, heapStart := 28672, execIp := some 2
    swapFile := some 3 }
  va := 0
  free := true
  freed := true
  page := none
  junk _ := 0
  mapped := true
  out := idleWindow
  back := idleWindow
  exiting := ⟨[], idleWindow, none, ⟨1, false, idleWindow⟩⟩

/-- The same process, with a page in slot 0 of its swap file. -/
def swapFault : Entry :=
  { textFault with
    p := { textFault.p with swappedPages := fun _ => ⟨4096, 0⟩, numSwapped := 1 }
    va := 4096 }

/-- The same fault, when other processes have logged eleven blocks, and
when they have logged block 52 and leave the commit to this process. -/
def fullLogFault : Entry :=
  { swapFault with back := ⟨⟨1, false, List.range' 60 11⟩, ⟨2, false, List.range' 60 11⟩⟩ }

def loggedFault : Entry := { swapFault with back := ⟨⟨1, false, [52]⟩, ⟨1, false, [52]⟩⟩ }

theorem uses_textFault : textFault.uses smallVol = [.read 2 0 64, .read 2 64 56, .read 2 120 8] := by
  decide +kernel

theorem idleWindow_sane : idleWindow.Sane := ⟨nofun, by decide⟩

theorem textFault_sane : textFault.Sane where
  out := idleWindow_sane
  back := idleWindow_sane
  swap s hs := by
    cases hs
    decide
  exiting := ⟨nofun, idleWindow_sane, nofun, by decide, idleWindow_sane⟩

theorem sane_swapFault {t : Window} (ht : t.Sane) : Entry.Sane { swapFault with back := t } :=
  ⟨idleWindow_sane, ht, textFault_sane.swap, textFault_sane.exiting⟩

/-- A transfer of the small volume faults at its first byte, and the fault
waits for the process itself. -/
def WaitsForItself (T : Transfer) (e : Entry) : Prop :=
  ∃ w, T.Enters (fun _ => [e]) smallVol 0 0 smallVol w ∧
    (watchOps True).Caught (handlePgfault e) (w.foldl Held.after nothing) smallVol

theorem waitsForItself_of_collides {T : Transfer} {e : Entry} {u : Use}
    (h : ∃ w, T.Enters (fun _ => [e]) smallVol 0 0 smallVol w) (he : e.Sane)
    (hu : u ∈ e.uses smallVol) (hc : u.Collides (T.point 0 smallVol)) : WaitsForItself T e := by
  obtain ⟨w, hw⟩ := h
  refine ⟨w, hw, (caught_iff_collides smallVol_wf (fun _ e' he' => ?_) hw rfl).mpr ⟨u, hu, hc⟩⟩
  rw [List.mem_singleton.mp he']
  exact he

end Reentry

end OsSuite.Xv6
