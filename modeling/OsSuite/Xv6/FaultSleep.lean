import OsSuite.Xv6.SelfWait
import OsSuite.Xv6.SpinRules

/-!
# FaultSleep — page faults under a spinlock

`pipewrite`, `piperead`, `consoleread` and `kwait` copy to or from user
memory with a spinlock held. A copy that meets an absent page runs
`handle_pgfault`, and that goes to the disk: `begin_op`, `ilock` and
`bread` sleep. Under a spinlock `sched` then panics.

Almost every fault uses the file system. The few that do not (`Dry`) are
told here from the process, the address and the volume, and a call never
sleeps under its spinlock exactly if all the faults it meets are among
them.
-/

namespace OsSuite.Xv6

namespace Reentry

variable {e : Entry} {p : Proc} {v : Vol} {j : Nat}

/-! ## Faults that do without the file system -/

/-- `resident_pages[victim_idx].is_dirty` -/
def Entry.dirty (e : Entry) : Bool := (e.p.residentPages e.p.victim).dirty

/-- The process after the victim is dropped. -/
def Entry.drop (e : Entry) (last : ResidentPage) : Proc :=
  { e.p with
    residentPages := Function.update e.p.residentPages e.p.victim last
    numResident := e.p.numResident - 1 }

/-- There is a frame without a write to the swap file: a free one, or that
of a clean victim. `p` is the process then. -/
inductive Framed (e : Entry) : Proc → Prop where
  | free (h : e.free = true) : Framed e e.p
  | dropped {last : ResidentPage} (h : e.free = false) (hclean : e.dirty = false)
      (hlast : e.p.residentAt (e.p.numResident - 1) = some last) (hfreed : e.freed = true) :
      Framed e (e.drop last)

/-- The page of the fault is not in the swap file. -/
def Unswapped (e : Entry) (p : Proc) : Prop := (p.takeSwapped (pgrounddown e.va)).1 = none

/-- The address belongs to neither the image nor the heap. -/
def Outside (e : Entry) (p : Proc) : Prop :=
  ¬ pgrounddown e.va < p.heapStart ∧
    ¬ (p.heapStart ≤ pgrounddown e.va ∧ pgrounddown e.va < p.sz)

/-- The EMPTY file `j` gives the page: no header asks for bytes of it. -/
def Zeroes (e : Entry) (p : Proc) (j : Nat) (v : Vol) : Bool :=
  (match segFor (v.inode j).file e.junk (pgrounddown e.va) with
    | some ph => ph.fileSize (pgrounddown e.va) == 0
    | none => pgrounddown e.va < p.sz ||
        u64 (p.regs.sp + 18446744073709547520) ≤ pgrounddown e.va) && e.mapped

/-- **A fault that leaves the file system alone.** -/
inductive Dry (e : Entry) (v : Vol) : Prop where
  | beyond (h : maxva ≤ e.va)
  /-- init finds no slot for a dirty victim: `panic("init exiting")`. -/
  | initFull (h : e.free = false) (hdirty : e.dirty = true) (hslot : e.p.freeSlot = none)
      (hinit : e.p.isInit = true)
  /-- The victim is clean, and the eviction panics or frees nothing. -/
  | noFrame (h : e.free = false) (hclean : e.dirty = false)
      (hstop : e.p.residentAt (e.p.numResident - 1) = none ∨ e.freed = false)
  | outside {p : Proc} (hp : Framed e p) (hswap : Unswapped e p) (hout : Outside e p)
  /-- There is no executable: the kernel follows a null pointer. -/
  | noImage {p : Proc} (hp : Framed e p) (hswap : Unswapped e p) (hexec : p.execIp = none)
  /-- The executable is empty, and no other process has to go for the
  page. -/
  | empty {p : Proc} {j : Nat} (hp : Framed e p) (hswap : Unswapped e p)
      (hexec : p.execIp = some j) (hsize : (v.inode j).size = 0)
      (hroom : Zeroes e p j v = true → p.numResident < maxResidentPages ∨ p.isInit = true)

/-- The fault brings the page, without the file system. -/
inductive Brings (e : Entry) (v : Vol) : Prop where
  | zeroed {p : Proc} {j : Nat} (hva : e.va < maxva) (hp : Framed e p) (hswap : Unswapped e p)
      (hin : ¬ Outside e p) (hexec : p.execIp = some j) (hsize : (v.inode j).size = 0)
      (hpage : Zeroes e p j v = true) (hroom : p.numResident < maxResidentPages)

theorem Brings.dry (hb : Brings e v) : Dry e v := by
  obtain ⟨-, hp, hswap, -, hexec, hsize, -, hroom⟩ := hb
  exact .empty hp hswap hexec hsize fun _ => .inl hroom

theorem not_silent_close {c : Closing} : ¬ silent (close c) v := not_silent_tell_bind

theorem not_silent_kexit {α : Type} {X : Exiting} (hp : p.isInit = false) (v : Vol) :
    ¬ silent (kexit X p : FaultProg α) v := by
  have htx : ∀ {β : Type} {t : Window} {y : FaultProg β}, Respects stopsLoud (transact t y) :=
    stopsLoud_tell_bind
  have hfiles : ∀ cs, Respects stopsLoud (closeAll cs) := fun cs => by
    induction cs with
    | nil => exact .pure stopsLoud_composes ()
    | cons c cs ih => exact .bind stopsLoud_composes htx fun _ => ih
  have hswap : ∀ f, Respects stopsLoud (swapCleanup X f) := fun f => by
    cases f with
    | none => exact .pure stopsLoud_composes ()
    | some s => exact htx
  rw [kexit, if_neg (by rw [hp]; exact Bool.false_ne_true)]
  exact not_silent_bind (hfiles _) (fun _ => not_silent_bind (hswap _) fun _ v h =>
    not_silent_close h.bind_left) v

theorem Framed.unique {p' : Proc} (hp : Framed e p) (hp' : Framed e p') : p' = p := by
  cases hp with
  | free h =>
      cases hp' with
      | free _ => rfl
      | dropped h' => rw [h] at h'; cases h'
  | dropped h _ hlast =>
      cases hp' with
      | free h' => rw [h] at h'; cases h'
      | dropped _ _ hlast' => rw [hlast] at hlast'; cases hlast'; rfl

theorem allocOrEvict_full (h : e.free = false) : allocOrEvict e = (do
    let p ← evictPage e
    if e.freed then pure p else Prog.panic "kalloc failed after eviction") := by
  rw [allocOrEvict, if_neg (by rw [h]; exact Bool.false_ne_true)]

theorem saveVictim_clean (h : e.dirty = false) : saveVictim e = pure e.p := by
  rw [saveVictim, if_neg (by rw [← Entry.dirty, h]; exact Bool.false_ne_true)]

theorem evictPage_clean (h : e.dirty = false) : evictPage e v = dropVictim e.p.victim e.p v := by
  have hsave : saveVictim e v = .ret e.p v [] := by
    rw [saveVictim_clean h]
    rfl
  rw [evictPage, Prog.bind_ret hsave, Out.after_nil]

theorem evictPage_drop {last : ResidentPage} (h : e.dirty = false)
    (hlast : e.p.residentAt (e.p.numResident - 1) = some last) :
    evictPage e v = .ret (e.drop last) v [] := by
  rw [evictPage_clean h, dropVictim, hlast]
  rfl

theorem Framed.run (hp : Framed e p) : allocOrEvict e v = .ret p v [] := by
  cases hp with
  | free h =>
      rw [allocOrEvict, if_pos h]
      rfl
  | dropped h hclean hlast hfreed =>
      rw [allocOrEvict_full h, Prog.bind_ret (evictPage_drop hclean hlast), if_pos hfreed]
      rfl

/-- `handle_pgfault` panics before it has a frame. -/
def Stops (e : Entry) (v : Vol) : Prop :=
  ∃ m, m ≠ "sched locks" ∧ allocOrEvict e v = .panic m []

theorem stops_noFrame (hfree : e.free = false) (hclean : e.dirty = false)
    (hstop : e.p.residentAt (e.p.numResident - 1) = none ∨ e.freed = false) : Stops e v := by
  cases hlast : e.p.residentAt (e.p.numResident - 1) with
  | none =>
      have hevict : evictPage e v = .panic "kerneltrap" [] := by
        rw [evictPage_clean hclean, dropVictim, hlast]
        rfl
      refine ⟨"kerneltrap", by decide, ?_⟩
      rw [allocOrEvict_full hfree, Prog.bind_panic hevict]
  | some last =>
      have hfreed : e.freed = false := hstop.resolve_left (by rw [hlast]; nofun)
      refine ⟨"kalloc failed after eviction", by decide, ?_⟩
      rw [allocOrEvict_full hfree, Prog.bind_ret (evictPage_drop hclean hlast), hfreed]
      rfl

theorem saveVictim_full (hdirty : e.dirty = true) (hslot : e.p.freeSlot = none) :
    saveVictim e = kexit e.exiting e.p := by
  refine (if_pos hdirty).trans ?_
  rw [swapOut, hslot]

theorem stops_initFull (hfree : e.free = false) (hdirty : e.dirty = true)
    (hslot : e.p.freeSlot = none) (hinit : e.p.isInit = true) : Stops e v := by
  have hsave : saveVictim e v = .panic "init exiting" [] := by
    rw [saveVictim_full hdirty hslot, kexit, if_pos hinit]
    rfl
  have hevict : evictPage e v = .panic "init exiting" [] := Prog.bind_panic hsave
  refine ⟨"init exiting", by decide, ?_⟩
  rw [allocOrEvict_full hfree, Prog.bind_panic hevict]

/-- A victim has to be written, or the process has to go. -/
theorem not_silent_allocOrEvict (hfree : e.free = false) (hdirty : e.dirty = true)
    (h : e.p.freeSlot = none → e.p.isInit = false) (v : Vol) : ¬ silent (allocOrEvict e) v := by
  intro hs
  rw [allocOrEvict_full hfree] at hs
  have hsave : silent (saveVictim e) v := hs.bind_left.bind_left
  cases hslot : e.p.freeSlot with
  | none =>
      rw [saveVictim_full hdirty hslot] at hsave
      exact not_silent_kexit (h hslot) v hsave
  | some slot =>
      have hout : saveVictim e = swapOut e (e.p.residentPages e.p.victim).va := if_pos hdirty
      rw [hout, swapOut, hslot] at hsave
      exact not_silent_tell_bind hsave.bind_left

/-- **The first step of a fault**: a frame without a write, or none; or a
use of the file system. -/
theorem framed_or_dry (e : Entry) (v : Vol) :
    (∃ p, Framed e p) ∨ Dry e v ∨ ¬ silent (allocOrEvict e) v := by
  cases hfree : e.free with
  | true => exact .inl ⟨_, .free hfree⟩
  | false =>
      cases hdirty : e.dirty with
      | false =>
          cases hlast : e.p.residentAt (e.p.numResident - 1) with
          | none => exact .inr (.inl (.noFrame hfree hdirty (.inl hlast)))
          | some last =>
              cases hfreed : e.freed with
              | true => exact .inl ⟨_, .dropped hfree hdirty hlast hfreed⟩
              | false => exact .inr (.inl (.noFrame hfree hdirty (.inr hfreed)))
      | true =>
          by_cases hinit : e.p.freeSlot = none ∧ e.p.isInit = true
          · exact .inr (.inl (.initFull hfree hdirty hinit.1 hinit.2))
          · refine .inr (.inr (not_silent_allocOrEvict hfree hdirty (fun hslot => ?_) v))
            exact Bool.eq_false_iff.mpr fun h => hinit ⟨hslot, h⟩

/-! ### The page -/

theorem readi_empty (hsize : (v.inode j).size = 0) (off n : Nat) :
    readi kernelCopy j off n v = .ret (some (Fs.readi (v.inode j).file off n)) v [] := by
  have hfile : (v.inode j).file.size = 0 := hsize
  rw [readi, Prog.get_bind, Fs.readi, hfile]
  dsimp only
  rw [hsize]
  by_cases hoff : off = 0
  · subst hoff
    cases n with
    | zero => rfl
    | succ n =>
        rw [if_neg (by simp), if_pos (by omega), if_neg (by simp)]
        rfl
  · have hlt : 0 < off := Nat.pos_of_ne_zero hoff
    rw [if_pos (.inl hlt), if_pos (by simp [hlt])]
    rfl

theorem fs_readi_empty {ip : Inode} (hsize : ip.size = 0) (off n : Nat) : Fs.readi ip off n = 0 := by
  rcases readi_le_size ip off n with h | h
  · exact h
  · omega

/-- A read of a file that is not empty goes to the buffer cache. -/
theorem not_silent_readi (hsize : (v.inode j).size ≠ 0) :
    ¬ silent (readi kernelCopy j 0 64) v := by
  have hbmap : bmap j (0 / 1024) = addrBlock j 0 := by
    rw [bmap, if_pos (by decide)]
  have hloud : ∀ n fuel, 0 < n → ¬ silent (readiLoop kernelCopy j n (fuel + 1) 0 0) v :=
    fun n fuel hn h => by
      rw [readiLoop, if_pos hn, hbmap] at h
      by_cases ha : (v.inode j).addrs 0 = 0
      · have hblock := h.bind_left
        rw [addrBlock] at hblock
        have hblock := hblock.bind_right (show Prog.get v = .ret v v [] from rfl)
        rw [if_pos ha] at hblock
        exact not_silent_tell_bind hblock.bind_left
      · have hblock : addrBlock j 0 v = .ret ((v.inode j).addrs 0) v [] := by
          rw [addrBlock, Prog.get_bind, if_neg ha]
          rfl
        have hrest := h.bind_right hblock
        rw [if_neg ha] at hrest
        exact not_silent_tell_bind hrest
  intro h
  rw [readi] at h
  have h := h.bind_right (show Prog.get v = .ret v v [] from rfl)
  rw [if_neg (by simp)] at h
  refine hloud _ _ ?_ h
  split <;> omega

theorem segFind_empty (hsize : (v.inode j).size = 0) (va : Nat) (junk : Nat → UInt8) :
    segFind j va junk v = .ret (segFor (v.inode j).file junk va) v [] := by
  obtain ⟨w, hrun, rfl⟩ := segFind_reads (P := fun w => w = []) rfl
    (fun hw hw' => by rw [hw, hw']; rfl) (fun off n => ⟨[], readi_empty hsize off n, rfl⟩) va junk
  exact hrun

theorem loadPage_outside (hout : Outside e p) : loadPage e p (pgrounddown e.va) = pure false :=
  if_pos hout

theorem loadPage_noImage (hin : ¬ Outside e p) (hexec : p.execIp = none) :
    loadPage e p (pgrounddown e.va) = Prog.panic "kerneltrap" := by
  refine (if_neg hin).trans ?_
  rw [hexec]

theorem loadPage_image (hin : ¬ Outside e p) (hexec : p.execIp = some j) :
    loadPage e p (pgrounddown e.va) = (do
      match ← segFind j (pgrounddown e.va) e.junk with
      | some ph =>
          let r ← readi kernelCopy j (ph.fileOffset (pgrounddown e.va))
            (ph.fileSize (pgrounddown e.va))
          pure (r == some (ph.fileSize (pgrounddown e.va)) && e.mapped)
      | none => pure ((pgrounddown e.va < p.sz ||
          u64 (p.regs.sp + 18446744073709547520) ≤ pgrounddown e.va) && e.mapped)) := by
  refine (if_neg hin).trans ?_
  rw [hexec] <;> rfl

theorem loadPage_empty (hin : ¬ Outside e p) (hexec : p.execIp = some j)
    (hsize : (v.inode j).size = 0) :
    loadPage e p (pgrounddown e.va) v = .ret (Zeroes e p j v) v [] := by
  rw [loadPage_image hin hexec, Prog.bind_ret (segFind_empty hsize _ _), Out.after_nil, Zeroes]
  cases segFor (v.inode j).file e.junk (pgrounddown e.va) with
  | none => rfl
  | some ph =>
      dsimp only
      rw [Prog.bind_ret (readi_empty hsize _ _), Out.after_nil,
        fs_readi_empty (show (v.inode j).file.size = 0 from hsize)]
      have hcount : ∀ n : Nat, (some 0 == some n) = (n == 0) := fun n => by cases n <;> rfl
      rw [hcount]
      rfl

theorem fetchPage_unswapped (hswap : Unswapped e p) :
    fetchPage e p (pgrounddown e.va) = io (loadPage e p (pgrounddown e.va)) := by
  unfold Unswapped at hswap
  rw [fetchPage, hswap]

theorem fetchPage_of_load {b : Bool} (hswap : Unswapped e p)
    (hload : loadPage e p (pgrounddown e.va) v = .ret b v []) :
    fetchPage e p (pgrounddown e.va) v = .ret b v [] := by
  rw [fetchPage_unswapped hswap, io, Prog.relabel, hload]
  rfl

/-- The handler after the frame. -/
theorem handlePgfault_framed (hva : e.va < maxva) (hp : Framed e p) :
    handlePgfault e v = (do
      if ← fetchPage e p (pgrounddown e.va) then
        addToResidentSet e p
        pure 0
      else pure (-1) : FaultProg Int) v := by
  rw [handlePgfault, if_neg (by omega), Prog.bind_ret hp.run, Out.after_nil]

/-- How a fault ends that leaves the file system alone. -/
inductive Ends (e : Entry) (v : Vol) : Prop where
  | brings (h : Brings e v) (hrun : handlePgfault e v = .ret 0 v [])
  | fails (h : ¬ Brings e v) (hrun : handlePgfault e v = .ret (-1) v [])
  | stops {m : String} (h : ¬ Brings e v) (hm : m ≠ "sched locks")
      (hrun : handlePgfault e v = .panic m [])

theorem ends_beyond (hva : maxva ≤ e.va) : Ends e v := by
  refine .fails (fun h => ?_) ?_
  · obtain ⟨hlt, -⟩ := h
    omega
  · rw [handlePgfault, if_pos hva]
    rfl

theorem ends_stops (hva : e.va < maxva) (h : Stops e v) : Ends e v := by
  obtain ⟨m, hm, hrun⟩ := h
  refine .stops (fun h => ?_) hm ?_
  · obtain ⟨-, hp, -⟩ := h
    rw [hp.run] at hrun
    cases hrun
  · rw [handlePgfault, if_neg (by omega), Prog.bind_panic hrun]

theorem ends_outside (hva : e.va < maxva) (hp : Framed e p) (hswap : Unswapped e p)
    (hout : Outside e p) : Ends e v := by
  refine .fails ?_ ?_
  · rintro ⟨-, hp', -, hin, -⟩
    exact hin (hp.unique hp' ▸ hout)
  · have hload : loadPage e p (pgrounddown e.va) v = .ret false v [] := by
      rw [loadPage_outside hout]
      rfl
    rw [handlePgfault_framed hva hp, Prog.bind_ret (fetchPage_of_load hswap hload)]
    rfl

theorem ends_noImage (hva : e.va < maxva) (hp : Framed e p) (hswap : Unswapped e p)
    (hin : ¬ Outside e p) (hexec : p.execIp = none) : Ends e v := by
  refine .stops ?_ (by decide : "kerneltrap" ≠ _) ?_
  · rintro ⟨-, hp', -, -, hexec', -⟩
    rw [hp.unique hp', hexec] at hexec'
    cases hexec'
  · refine (handlePgfault_framed hva hp).trans (Prog.bind_panic ?_)
    rw [fetchPage_unswapped hswap, loadPage_noImage hin hexec]
    rfl

/-- The handler with an empty executable. -/
theorem handlePgfault_empty (hva : e.va < maxva) (hp : Framed e p) (hswap : Unswapped e p)
    (hin : ¬ Outside e p) (hexec : p.execIp = some j) (hsize : (v.inode j).size = 0) :
    handlePgfault e v = (if Zeroes e p j v then (do
      addToResidentSet e p
      pure 0) else pure (-1) : FaultProg Int) v := by
  rw [handlePgfault_framed hva hp,
    Prog.bind_ret (fetchPage_of_load hswap (loadPage_empty hin hexec hsize)), Out.after_nil]

theorem ends_empty (hva : e.va < maxva) (hp : Framed e p) (hswap : Unswapped e p)
    (hin : ¬ Outside e p) (hexec : p.execIp = some j) (hsize : (v.inode j).size = 0)
    (hroom : Zeroes e p j v = true → p.numResident < maxResidentPages ∨ p.isInit = true) :
    Ends e v := by
  have hrun := handlePgfault_empty hva hp hswap hin hexec hsize
  cases hpage : Zeroes e p j v with
  | false =>
      refine .fails ?_ ?_
      · rintro ⟨-, hp', -, -, hexec', -, hpage', -⟩
        rw [hp.unique hp'] at hexec' hpage'
        rw [hexec] at hexec'
        cases hexec'
        rw [hpage] at hpage'
        cases hpage'
      · rw [hrun, hpage]
        rfl
  | true =>
      rw [hpage, if_pos rfl] at hrun
      by_cases hlt : p.numResident < maxResidentPages
      · refine .brings ⟨hva, hp, hswap, hin, hexec, hsize, hpage, hlt⟩ ?_
        rw [hrun, addToResidentSet, if_neg (by omega)]
        rfl
      · refine .stops ?_ (by decide : "init exiting" ≠ _) ?_
        · rintro ⟨-, hp', -, -, -, -, -, hlt'⟩
          exact hlt (hp.unique hp' ▸ hlt')
        · rw [hrun, addToResidentSet, if_pos (by omega), kexit,
            if_pos ((hroom hpage).resolve_left hlt)]
          rfl

/-- **A dry fault ends without any change.** -/
theorem Dry.ends (h : Dry e v) : Ends e v := by
  by_cases hva : maxva ≤ e.va
  · exact ends_beyond hva
  replace hva : e.va < maxva := by omega
  cases h with
  | beyond h => omega
  | initFull h hdirty hslot hinit => exact ends_stops hva (stops_initFull h hdirty hslot hinit)
  | noFrame h hclean hstop => exact ends_stops hva (stops_noFrame h hclean hstop)
  | @outside p hp hswap hout => exact ends_outside hva hp hswap hout
  | @noImage p hp hswap hexec =>
      by_cases hout : Outside e p
      · exact ends_outside hva hp hswap hout
      · exact ends_noImage hva hp hswap hout hexec
  | @empty p j hp hswap hexec hsize hroom =>
      by_cases hout : Outside e p
      · exact ends_outside hva hp hswap hout
      · exact ends_empty hva hp hswap hout hexec hsize hroom

/-- **Any other fault uses the file system.** -/
theorem loud_of_not_dry (h : ¬ Dry e v) : ¬ silent (handlePgfault e) v := by
  intro hs
  have hva : e.va < maxva := Nat.lt_of_not_le fun hva => h (.beyond hva)
  rcases framed_or_dry e v with ⟨p, hp⟩ | hdry | hloud
  · have hfetch : silent (fetchPage e p (pgrounddown e.va)) v :=
      (hs.of_eq (handlePgfault_framed hva hp)).bind_left
    by_cases hswap : Unswapped e p
    · have hin : ¬ Outside e p := fun hout => h (.outside hp hswap hout)
      cases hexec : p.execIp with
      | none => exact h (.noImage hp hswap hexec)
      | some j =>
          by_cases hsize : (v.inode j).size = 0
          · -- an empty executable: only `kexit` is left
            refine h (.empty hp hswap hexec hsize fun hpage => ?_)
            by_contra hfull
            rw [not_or] at hfull
            have hrun := handlePgfault_empty hva hp hswap hin hexec hsize
            rw [hpage, if_pos rfl, addToResidentSet, if_pos (by omega)] at hrun
            exact not_silent_kexit (Bool.eq_false_iff.mpr hfull.2) v (hs.of_eq hrun).bind_left
          · rw [fetchPage_unswapped hswap, loadPage_image hin hexec] at hfetch
            exact not_silent_readi hsize (silent_relabel.mp hfetch).bind_left.bind_left
    · obtain ⟨slot, hslot⟩ := Option.ne_none_iff_exists'.mp hswap
      rw [fetchPage, hslot] at hfetch
      exact not_silent_tell_bind hfetch.bind_left
  · exact h hdry
  · rw [handlePgfault, if_neg (by omega)] at hs
    exact hloud hs.bind_left

/-! ## What a fault does first -/

/-- An observation behind which a process can sleep. -/
inductive Sleepy : LockEv → Prop where
  | beginOp {l : Log} (h : l.beginOp = .wait) : Sleepy (.beginOp l)
  | bread (b : Nat) : Sleepy (.io (.bread b))

/-- The log is such that `begin_op` sleeps, whenever the fault calls it. -/
structure Busy (e : Entry) : Prop where
  out : e.out.begun.beginOp = .wait
  back : e.back.begun.beginOp = .wait
  files : ∀ c ∈ e.exiting.files, c.log.begun.beginOp = .wait
  cleanup : e.exiting.cleanup.begun.beginOp = .wait
  cwd : e.exiting.cwd.log.begun.beginOp = .wait

theorem heads_transact {α : Type} {t : Window} (ht : t.begun.beginOp = .wait) (y : FaultProg α) :
    Respects (heads Sleepy) (transact t y) := heads_tell_bind (.beginOp ht)

section
variable {P : BlockEv → Prop} (hP : ∀ b, P (.bread b))
include hP

theorem heads_addrBlock (i k : Nat) : Respects (heads P) (addrBlock i k) := by
  refine .bind (heads_composes P) (.get (heads_composes P)) fun v => ?_
  refine .ite (.bind (heads_composes P) (heads_tell_bind (hP _)) fun a => ?_) ?_
  · exact .ite (.pure (heads_composes P) _)
      (.bind (heads_composes P) (.modify fun _ => nofun) fun _ => .pure (heads_composes P) _)
  · exact .pure (heads_composes P) _

theorem heads_bmap (i bn : Nat) : Respects (heads P) (bmap i bn) := by
  unfold bmap
  refine .ite (heads_addrBlock hP i bn) (.ite ?_ (.panic fun _ => nofun))
  refine .bind (heads_composes P) (heads_addrBlock hP i ndirect) fun ind => ?_
  exact .ite (.pure (heads_composes P) _) (heads_tell_bind (hP ind))

theorem heads_readi (copy : Nat → Nat → BProg Bool) (i off n : Nat) :
    Respects (heads P) (readi copy i off n) := by
  have hloop : ∀ n fuel tot off, Respects (heads P) (readiLoop copy i n fuel tot off) :=
    fun n fuel tot off => by
      cases fuel with
      | zero => exact .pure (heads_composes P) _
      | succ fuel =>
          unfold readiLoop
          refine .ite (.bind (heads_composes P) (heads_bmap hP i _) fun a => ?_)
            (.pure (heads_composes P) _)
          exact .ite (.pure (heads_composes P) _) (heads_tell_bind (hP a))
  refine .bind (heads_composes P) (.get (heads_composes P)) fun v => ?_
  exact .ite (.pure (heads_composes P) _) (hloop _ _ _ _)

theorem heads_segLoop (j va : Nat) : ∀ n off buf, Respects (heads P) (segLoop j va n off buf)
  | 0, _, _ => .pure (heads_composes P) _
  | n + 1, off, buf => by
      refine .bind (heads_composes P) (heads_readi hP _ j off 56) fun _ =>
        .bind (heads_composes P) (.get (heads_composes P)) fun v => ?_
      exact .ite (.pure (heads_composes P) _) (heads_segLoop j va n _ _)

theorem heads_loadPage (e : Entry) (p : Proc) (va : Nat) :
    Respects (heads P) (loadPage e p va) := by
  unfold loadPage
  refine .ite (.pure (heads_composes P) _) ?_
  split
  · exact .panic fun _ => nofun
  · rename_i j hj
    refine .bind (heads_composes P) ?_ fun r => ?_
    · exact .bind (heads_composes P) (heads_readi hP _ j 0 64) fun _ =>
        .bind (heads_composes P) (.get (heads_composes P)) fun v => heads_segLoop hP j va _ _ _
    · split
      · exact .bind (heads_composes P) (heads_readi hP _ j _ _) fun _ =>
          .pure (heads_composes P) _
      · exact .pure (heads_composes P) _

end

theorem heads_kexit {α : Type} {X : Exiting} (hfiles : ∀ c ∈ X.files, c.log.begun.beginOp = .wait)
    (hcleanup : X.cleanup.begun.beginOp = .wait) (hcwd : X.cwd.log.begun.beginOp = .wait)
    (p : Proc) : Respects (heads Sleepy) (kexit X p : FaultProg α) := by
  have hall : ∀ cs : List Closing, (∀ c ∈ cs, c.log.begun.beginOp = .wait) →
      Respects (heads Sleepy) (closeAll cs) := fun cs hcs => by
    induction cs with
    | nil => exact .pure (heads_composes Sleepy) _
    | cons c cs ih =>
        exact .bind (heads_composes Sleepy) (heads_transact (hcs c List.mem_cons_self) _) fun _ =>
          ih fun c' hc' => hcs c' (List.mem_cons_of_mem _ hc')
  have hswap : Respects (heads Sleepy) (swapCleanup X p.swapFile) := by
    cases p.swapFile with
    | none => exact .pure (heads_composes Sleepy) _
    | some s => exact heads_transact hcleanup _
  unfold kexit
  refine .ite (.panic fun _ => nofun) (.bind (heads_composes Sleepy) (hall _ hfiles) fun _ => ?_)
  exact .bind (heads_composes Sleepy) hswap fun _ =>
    .bind (heads_composes Sleepy) (heads_transact hcwd _) fun _ => .exit fun _ => nofun

/-- **A fault that uses the file system can sleep at once.** -/
theorem heads_handlePgfault (he : Busy e) : Respects (heads Sleepy) (handlePgfault e) := by
  have hc := heads_composes (σ := Vol) Sleepy
  have hkexit : ∀ {α : Type} (p : Proc),
      Respects (heads Sleepy) (kexit e.exiting p : FaultProg α) :=
    heads_kexit he.files he.cleanup he.cwd
  have hout : ∀ va, Respects (heads Sleepy) (swapOut e va) := fun va => by
    unfold swapOut
    split
    · exact hkexit _
    · exact .bind hc (heads_transact he.out _) fun ok => .ite (.pure hc _) (hkexit _)
  have hdrop : ∀ i p, Respects (heads Sleepy) (dropVictim i p) := fun i p => by
    unfold dropVictim
    split
    · exact .panic fun _ => nofun
    · exact .pure hc _
  have halloc : Respects (heads Sleepy) (allocOrEvict e) := by
    refine .ite (.pure hc _) (.bind hc (.bind hc (.ite (hout _) (.pure hc _)) fun p => hdrop _ p)
      fun p => .ite (.pure hc _) (.panic fun _ => nofun))
  have hfetch : ∀ p va, Respects (heads Sleepy) (fetchPage e p va) := fun p va => by
    unfold fetchPage
    split
    · exact .bind hc (heads_transact he.back _) fun ok => .ite (.pure hc _) (.panic fun _ => nofun)
    · exact heads_relabel (heads_loadPage .bread e p va)
  refine .ite (.pure hc _) (.bind hc halloc fun p => .bind hc (hfetch p _) fun ok => ?_)
  exact .ite (.bind hc (.ite (hkexit p) (.pure hc _)) fun _ => .pure hc _) (.pure hc _)

/-! ### An inode that goes -/

theorem heads_bfree {P : BlockEv → Prop} (hP : ∀ b, P (.bread b)) (b : Nat) :
    Respects (heads P) (bfree b) := heads_tell_bind (hP _)

/-- `itrunc` starts with a read. -/
theorem heads_itrunc {P : BlockEv → Prop} (hP : ∀ b, P (.bread b)) (i : Nat) :
    Respects (heads P) (itrunc i) := by
  have hc := heads_composes (σ := Vol) P
  refine .bind hc (.upTo hc (fun k => ?_) _) fun _ => .bind hc ?_ fun _ =>
    .bind hc (.modify fun _ => nofun) fun _ => heads_tell_bind (hP _)
  · refine .bind hc (.get hc) fun v => .ite ?_ (.pure hc _)
    exact .bind hc (heads_bfree hP _) fun _ => .modify fun _ => nofun
  · exact .bind hc (.get hc) fun v => .ite (heads_tell_bind (hP _)) (.pure hc _)

theorem not_silent_itrunc (i : Nat) (v : Vol) : ¬ silent (itrunc i) v := by
  have hc := stopsLoud_composes (σ := Vol) (ε := BlockEv)
  refine not_silent_bind (.upTo hc (fun k => ?_) _) (fun _ => not_silent_bind ?_ fun _ =>
    not_silent_bind (.modify fun _ => trivial) fun _ v => not_silent_tell_bind) v
  · refine .bind hc (.get hc) fun v => .ite ?_ (.pure hc _)
    exact .bind hc stopsLoud_tell_bind fun _ => .modify fun _ => trivial
  · exact .bind hc (.get hc) fun v => .ite stopsLoud_tell_bind (.pure hc _)

/-- **`iput` of the last reference** locks the inode and then reads. -/
theorem iput_events {c : Closing} (hc : c.frees = true) (v : Vol) :
    ∃ b w, (iput c v).events = .ilock c.ip :: .bread b :: w := by
  obtain ⟨e, w, hw, b, rfl⟩ := (heads_itrunc (P := fun e => ∃ b, e = .bread b)
    (fun b => ⟨b, rfl⟩) c.ip).first (not_silent_itrunc c.ip v)
  rw [iput, if_pos hc, Prog.bind_ret (show Prog.tell _ v = .ret () v [_] from rfl),
    Out.events_after]
  obtain ⟨w', hw'⟩ := events_bind (x := itrunc c.ip) (s := v) (f := fun _ => (do
    iupdate c.ip
    Prog.tell (.iunlock c.ip) : BProg Unit))
  exact ⟨b, w ++ w', by rw [hw', hw]; rfl⟩

end Reentry

namespace Locks

open Reentry

variable {e : Entry} {v : Vol} {h : Held} {l : List Spin}

/-! ## The same fault in other surroundings -/

theorem framed_entry {p : Proc} (x : Around) (hp : Framed e p) : Framed (x.entry e) p := by
  cases hp with
  | free h => exact .free h
  | dropped h hclean hlast hfreed => exact .dropped h hclean hlast hfreed

theorem dry_entry (x : Around) (hd : Dry e v) : Dry (x.entry e) v := by
  cases hd with
  | beyond h => exact .beyond h
  | initFull h hdirty hslot hinit => exact .initFull h hdirty hslot hinit
  | noFrame h hclean hstop => exact .noFrame h hclean hstop
  | outside hp hswap hout => exact .outside (framed_entry x hp) hswap hout
  | noImage hp hswap hexec => exact .noImage (framed_entry x hp) hswap hexec
  | empty hp hswap hexec hsize hroom => exact .empty (framed_entry x hp) hswap hexec hsize hroom

theorem brings_entry (x : Around) (hb : Brings e v) : Brings (x.entry e) v := by
  obtain ⟨hva, hp, hswap, hin, hexec, hsize, hpage, hroom⟩ := hb
  exact ⟨hva, framed_entry x hp, hswap, hin, hexec, hsize, hpage, hroom⟩

/-- The surroundings of the fault itself. -/
def Around.of (x : Around) (e : Entry) : Around :=
  { x with out := e.out, back := e.back, exiting := e.exiting }

theorem of_entry (x : Around) (e : Entry) : (x.of e).entry (x.entry e) = e := rfl

theorem dry_entry_iff (x : Around) : Dry (x.entry e) v ↔ Dry e v :=
  ⟨fun hd => of_entry x e ▸ dry_entry (x.of e) hd, dry_entry x⟩

theorem brings_entry_iff (x : Around) : Brings (x.entry e) v ↔ Brings e v :=
  ⟨fun hb => of_entry x e ▸ brings_entry (x.of e) hb, brings_entry x⟩

/-! ## Calls that leave the file system alone -/

/-- **No sleep under a spinlock**: `sleep` is called with no spinlock but
the one it gives back, and `sched` finds no other. -/
def Sleepless (o : Out Cpu Slept Int) : Prop :=
  (∀ e ∈ o.events, e.spins = [e.lk]) ∧ ∀ w, o ≠ .panic "sched locks" w

/-- The faults of a copy leave the file system alone, up to the first one
that does not bring its page. -/
def DryCopy (v : Vol) : List Entry → Prop
  | [] => True
  | e :: es => Dry e v ∧ (Brings e v → DryCopy v es)

theorem dryCopy_of_brings {es : List Entry} (hes : ∀ e ∈ es, Brings e v) : DryCopy v es := by
  induction es with
  | nil => trivial
  | cons e es ih =>
      exact ⟨(hes e List.mem_cons_self).dry, fun _ =>
        ih fun e' he' => hes e' (List.mem_cons_of_mem _ he')⟩

/-- The copies of the call leave the file system alone, up to the first
one that fails; and it does not come to an executable that is to be
freed. -/
structure SpinCall.DryCall (c : SpinCall) (faults : Nat → List Entry) (v : Vol) : Prop where
  copies : ∀ i < c.copies, (∀ j < i, ∀ e ∈ faults j, Brings e v) → DryCopy v (faults i)
  frees : c.frees = true → ∃ i < c.copies, ∃ e ∈ faults i, ¬ Brings e v

section
variable {α : Type} {reply : Nat → Reply} {gone : KProg α} {y : FaultProg α} {v' : Vol}

theorem carry_ret {a : α} (hy : y v = .ret a v' []) :
    carry reply gone y ⟨l, h, v⟩ = .ret a ⟨l, h, v'⟩ [] := by
  rw [carry, hy]
  rfl

theorem carry_panic {m : String} (hy : y v = .panic m []) :
    carry reply gone y ⟨l, h, v⟩ = .panic m [] := by
  rw [carry, hy]
  rfl

/-- The observations cannot be performed. -/
theorem carry_stuck {m : String} {w' : List Slept}
    (hplay : play reply (y v).events ⟨l, h, v⟩ = .panic m w') :
    carry reply gone y ⟨l, h, v⟩ = .panic m w' := by
  unfold carry
  cases hy : y v <;> rw [hy] at hplay <;> exact Prog.bind_panic hplay

end

/-- How a dry copy ends. -/
inductive CopyEnds (x : Nat → Around) (es : List Entry) (k : Cpu) : Prop where
  | all (hes : ∀ e ∈ es, Brings e k.vol) (hrun : copyUser x es k = .ret true k [])
  | fails (hes : ∃ e ∈ es, ¬ Brings e k.vol) (hrun : copyUser x es k = .ret false k [])
  | stops {m : String} (hes : ∃ e ∈ es, ¬ Brings e k.vol) (hm : m ≠ "sched locks")
      (hrun : copyUser x es k = .panic m [])

theorem fault_ret {x : Around} {r : Int} (hrun : Reentry.handlePgfault (x.entry e) v = .ret r v []) :
    fault x e ⟨l, h, v⟩ = .ret r ⟨l, h, v⟩ [] := carry_ret hrun

theorem copyUser_ret {x : Nat → Around} {es : List Entry} {r : Int}
    (hrun : Reentry.handlePgfault ((x 0).entry e) v = .ret r v []) :
    copyUser x (e :: es) ⟨l, h, v⟩ =
      if r ≠ 0 then .ret false ⟨l, h, v⟩ [] else copyUser (fun n => x (n + 1)) es ⟨l, h, v⟩ := by
  rw [copyUser, Prog.bind_ret (fault_ret hrun), Out.after_nil]
  split <;> rfl

/-- One more fault before a copy. -/
theorem CopyEnds.cons {x : Nat → Around} {es : List Entry} {k : Cpu} (hb : Brings e k.vol)
    (hcopy : copyUser x (e :: es) k = copyUser (fun n => x (n + 1)) es k)
    (hrest : CopyEnds (fun n => x (n + 1)) es k) : CopyEnds x (e :: es) k := by
  have hsome : (∃ e' ∈ es, ¬ Brings e' k.vol) → ∃ e' ∈ e :: es, ¬ Brings e' k.vol :=
    fun ⟨e', he', hno⟩ => ⟨e', List.mem_cons_of_mem _ he', hno⟩
  cases hrest with
  | all hes hrun => exact .all (List.forall_mem_cons.mpr ⟨hb, hes⟩) (hcopy.trans hrun)
  | fails hes hrun => exact .fails (hsome hes) (hcopy.trans hrun)
  | stops hes hm hrun => exact .stops (hsome hes) hm (hcopy.trans hrun)

/-- **A dry copy** leaves everything as it was. -/
theorem DryCopy.ends {es : List Entry} {x : Nat → Around} (hd : DryCopy v es) :
    CopyEnds x es ⟨l, h, v⟩ := by
  induction es generalizing x with
  | nil => exact .all (fun _ he => absurd he List.not_mem_nil) rfl
  | cons e es ih =>
      cases ((dry_entry_iff (x 0)).mpr hd.1).ends with
      | brings hb hrun =>
          have hb : Brings e v := (brings_entry_iff (x 0)).mp hb
          exact .cons hb ((copyUser_ret hrun).trans (if_neg (by simp))) (ih (hd.2 hb))
      | fails hb hrun =>
          exact .fails ⟨e, List.mem_cons_self, fun h => hb (brings_entry _ h)⟩
            ((copyUser_ret hrun).trans (if_pos (by decide)))
      | @stops m hb hm hrun =>
          have hfault : fault (x 0) e ⟨l, h, v⟩ = .panic m [] := carry_panic hrun
          refine .stops ⟨e, List.mem_cons_self, fun h => hb (brings_entry _ h)⟩ hm ?_
          rw [copyUser, Prog.bind_panic hfault]

/-- What is asked of a run that is `Sleepless`. -/
abbrev OwnLock (e : Slept) : Prop := e.spins = [e.lk]

abbrev OtherPanic (m : String) : Prop := m ≠ "sched locks"

theorem allows_sleepless : Allows OwnLock OtherPanic := ⟨fun _ => rfl, by decide⟩

theorem sleepless_of_sure {x : KProg Int} {k : Cpu} {Q : Int → Cpu → Prop} {E : Cpu → Prop}
    (hx : sure OwnLock x ⟨Q, E, OtherPanic⟩ k) : Sleepless (x k) := by
  refine ⟨hx.events, fun w hw => ?_⟩
  exact ((sure_of_panic hw).mp hx).1 rfl

/-- **A call that leaves the file system alone** never sleeps under its
spinlocks. -/
theorem SpinCall.DryCall.sleepless {c : SpinCall} {faults : Nat → List Entry}
    (hd : c.DryCall faults v) (s : Scene) : Sleepless (c.run s (s.copy faults) ⟨[], h, v⟩) := by
  let J : Nat → Held → Vol → Prop := fun i _ v' => v' = v ∧ ∀ j < i, ∀ e ∈ faults j, Brings e v
  refine sleepless_of_sure (E := fun _ => True) (SpinCall.sure_run (J := J) allows_sleepless
    (fun i hi h v' hJ => ?_) (fun addr exec hc h v' hJ => ?_) ⟨rfl, nofun⟩)
  · obtain ⟨rfl, hbefore⟩ := hJ
    cases (hd.copies i hi hbefore).ends (l := c.grip s) (h := h) (x := s.around i) with
    | all hes hrun =>
        refine (sure_of_ret hrun).mpr ⟨⟨h, v', rfl, fun _ => ⟨rfl, fun j hj => ?_⟩⟩, nofun⟩
        rcases Nat.lt_succ_iff_lt_or_eq.mp hj with hj | rfl
        · exact hbefore j hj
        · exact hes
    | fails hes hrun => exact (sure_of_ret hrun).mpr ⟨⟨h, v', rfl, nofun⟩, nofun⟩
    | stops hes hm hrun => exact (sure_of_panic hrun).mpr ⟨hm, nofun⟩
  · obtain ⟨rfl, hall⟩ := hJ
    subst hc
    have hkeep : ∀ x ∈ exec, x.frees = false := fun x hx => by
      refine Bool.eq_false_iff.mpr fun hfrees => ?_
      have hx : exec = some x := hx
      obtain ⟨i, hi, e, he, hno⟩ := hd.frees (by rw [SpinCall.frees, hx]; exact hfrees)
      exact hno (hall i hi e he)
    cases exec with
    | none => exact sure_pure.mpr ⟨h, v', rfl⟩
    | some x =>
        have hput : io (iput ⟨x.ip, x.frees, ⟨.init, .init⟩⟩) v' = .ret () v' [] := by
          rw [io, Prog.relabel, iput, if_neg (by rw [hkeep x rfl]; exact Bool.false_ne_true)]
          rfl
        exact (sure_of_ret (carry_ret hput)).mpr ⟨⟨h, v', rfl⟩, nofun⟩

/-! ## Calls that do not

Another process commits a transaction, and nothing is in the buffer
cache: the first use of the file system sleeps. -/

/-- The spinlocks of the callers. -/
inductive Outer : Spin → Prop where
  | pipe : Outer .pipe
  | cons : Outer .cons
  | wait : Outer .wait
  | proc (j : Nat) : Outer (.proc j)

/-- A function finds no other process, and no block in the cache. -/
def cold : Reply where
  inoTaken := 0
  bufTaken := 0
  valid := false
  noBuffers := false
  ipValid := true
  noType := false
  descs := []
  woken := 0
  log := .init
  again := 0

/-- A transaction that is entered while another process commits. -/
def committing : Window := ⟨⟨0, true, []⟩, ⟨1, false, []⟩⟩

def coldAround : Around where
  out := committing
  back := committing
  exiting := ⟨[], committing, none, ⟨1, false, committing⟩⟩
  reply _ := cold
  children := 0

/-- A byte can be copied at once. -/
def ready : Round := ⟨0, false, false, false, false, false⟩

def coldScene : Scene where
  round _ := ready
  family := ⟨[], [], some 0, 0⟩
  reply _ := cold
  around _ _ := coldAround

theorem busy_cold (e : Entry) : Busy (coldAround.entry e) where
  out := rfl
  back := rfl
  files := nofun
  cleanup := rfl
  cwd := rfl

theorem grip_outer (c : SpinCall) : ∀ lk ∈ c.grip coldScene, Outer lk := fun lk hlk => by
  cases c with
  | pipewrite n => obtain rfl := List.mem_singleton.mp hlk; exact .pipe
  | piperead n => obtain rfl := List.mem_singleton.mp hlk; exact .pipe
  | consoleread n => obtain rfl := List.mem_singleton.mp hlk; exact .cons
  | kwait addr exec =>
      rcases List.mem_cons.mp hlk with rfl | hlk
      · exact .proc 0
      · obtain rfl := List.mem_singleton.mp hlk; exact .wait

theorem grip_ne_nil (c : SpinCall) : c.grip coldScene ≠ [] := by
  cases c <;> exact List.cons_ne_nil _ _

theorem times_one {x : KProg Unit} {k : Cpu} : times 1 x k = x k :=
  (Prog.bind_ret (show (pure () : KProg Unit) k = .ret () k [] from rfl)).trans (Out.after_nil _)

/-- The kernel's own locks are free. -/
theorem acquire_inner (ho : ∀ lk ∈ l, Outer lk) (lk : Spin) (hlk : ¬ Outer lk) :
    acquire lk ⟨l, h, v⟩ = .ret () ⟨lk :: l, h, v⟩ [] := acquire_run fun hm => hlk (ho _ hm)

theorem acquiresleep_run (ho : ∀ lk ∈ l, Outer lk) (lk : Spin) (hlk : ¬ Outer lk) :
    acquiresleep lk 0 ⟨l, h, v⟩ = .ret () ⟨l, h, v⟩ [] := by
  have htimes : times 0 (sleep lk) ⟨lk :: l, h, v⟩ = .ret () ⟨lk :: l, h, v⟩ [] := rfl
  rw [acquiresleep, Prog.bind_ret (acquire_inner ho lk hlk), Prog.bind_ret htimes, release_last]
  rfl

section
variable (hl : l ≠ []) (ho : ∀ lk ∈ l, Outer lk)
include hl ho

theorem stuck_sleep {lk : Spin} (hlk : lk ≠ .self) :
    sleep lk ⟨lk :: l, h, v⟩ = .panic "sched locks" [⟨lk, lk :: l⟩] := by
  refine sleep_locked hl fun hm => ?_
  rcases List.mem_cons.mp hm with hm | hm
  · exact hlk hm.symm
  · nomatch ho _ hm

theorem stuck_virtioDiskRw :
    virtioDiskRw cold ⟨l, h, v⟩ = .panic "sched locks" [⟨.vdisk, .vdisk :: l⟩] := by
  have hdescs : allocDescs cold.descs ⟨.vdisk :: l, h, v⟩ = .ret () ⟨.vdisk :: l, h, v⟩ [] := rfl
  have hsleep : times (cold.woken + 1) (sleep .vdisk) ⟨.vdisk :: l, h, v⟩ = .panic "sched locks" _ :=
    times_one.trans (stuck_sleep hl ho nofun)
  rw [virtioDiskRw, Prog.bind_ret (acquire_inner ho .vdisk nofun), Prog.bind_ret hdescs,
    Prog.bind_panic hsleep]
  rfl

theorem stuck_bread (b : Nat) :
    bread b cold ⟨l, h, v⟩ = .panic "sched locks" [⟨.vdisk, .vdisk :: l⟩] := by
  have hget : bget b cold ⟨l, h, v⟩ = .ret () ⟨l, h, v⟩ [] := by
    rw [bget, Prog.bind_ret (acquire_inner ho .bcache nofun),
      if_neg (show ¬ cold.noBuffers = true from nofun), Prog.bind_ret release_last,
      show cold.bufTaken = 0 from rfl, acquiresleep_run ho (.buf b) nofun]
    rfl
  rw [bread, Prog.bind_ret hget, if_neg (show ¬ cold.valid = true from nofun),
    stuck_virtioDiskRw hl ho]
  rfl

theorem stuck_beginOp {g : Log} (hg : g.beginOp = .wait) :
    beginOp g cold ⟨l, h, v⟩ = .panic "sched locks" [⟨.log, .log :: l⟩] := by
  have hsleep : times (cold.again + 1) (sleep .log) ⟨.log :: l, h, v⟩ = .panic "sched locks" _ :=
    times_one.trans (stuck_sleep hl ho nofun)
  rw [beginOp, Prog.bind_ret (acquire_inner ho .log nofun), if_pos hg, Prog.bind_panic hsleep]
  rfl

/-- The first observation cannot be performed. -/
theorem stuck_play {e : LockEv} (he : Sleepy e) (w : List LockEv) :
    ∃ w', play (fun _ => cold) (e :: w) ⟨l, h, v⟩ = .panic "sched locks" w' := by
  have hact : ∃ w', act cold e ⟨l, h, v⟩ = .panic "sched locks" w' := by
    cases he with
    | beginOp hg => exact ⟨_, stuck_beginOp hl ho hg⟩
    | bread b => exact ⟨_, stuck_bread hl ho b⟩
  obtain ⟨w', hact⟩ := hact
  have hperform : perform cold e ⟨l, h, v⟩ = .panic "sched locks" w' := Prog.bind_panic hact
  exact ⟨w', Prog.bind_panic hperform⟩

/-- **A fault that uses the file system** under a spinlock. -/
theorem stuck_fault (hd : ¬ Dry e v) :
    ∃ w, fault coldAround e ⟨l, h, v⟩ = .panic "sched locks" w := by
  obtain ⟨e', w, hw, hsleepy⟩ := (heads_handlePgfault (busy_cold e)).first
    (loud_of_not_dry (mt (dry_entry_iff coldAround).mp hd))
  obtain ⟨w', hplay⟩ := stuck_play hl ho hsleepy w
  exact ⟨w', carry_stuck (by rw [hw]; exact hplay)⟩

theorem stuck_copyUser {es : List Entry} (hd : ¬ DryCopy v es) :
    ∃ w, copyUser (fun _ => coldAround) es ⟨l, h, v⟩ = .panic "sched locks" w := by
  induction es with
  | nil => exact absurd trivial hd
  | cons e es ih =>
      by_cases hdry : Dry e v
      · obtain ⟨hb, hrest⟩ : Brings e v ∧ ¬ DryCopy v es :=
          Classical.not_imp.mp fun hrest => hd ⟨hdry, hrest⟩
        obtain ⟨w, hw⟩ := ih hrest
        cases ((dry_entry_iff coldAround).mpr hdry).ends with
        | brings _ hrun =>
            have hnext : copyUser (fun _ => coldAround) (e :: es) ⟨l, h, v⟩ =
              copyUser (fun _ => coldAround) es ⟨l, h, v⟩ :=
                (copyUser_ret (x := fun _ => coldAround) hrun).trans (if_neg (by simp))
            exact ⟨w, hnext.trans hw⟩
        | fails hno _ => exact absurd (brings_entry coldAround hb) hno
        | stops hno _ _ => exact absurd (brings_entry coldAround hb) hno
      · obtain ⟨w, hw⟩ := stuck_fault hl ho hdry
        exact ⟨w, Prog.bind_panic hw⟩

/-- **`freeproc` that frees an executable** under a spinlock. -/
theorem stuck_freeproc {x : Exec} (hx : x.frees = true) :
    ∃ w, freeproc (fun _ => cold) (some x) ⟨l, h, v⟩ = .panic "sched locks" w := by
  obtain ⟨b, w, hw⟩ := iput_events (c := ⟨x.ip, x.frees, ⟨.init, .init⟩⟩) hx v
  obtain ⟨w', hplay⟩ := stuck_play hl ho (.bread b) (h := h.after (.ilock x.ip)) (v := v)
    (w.map .io)
  have hilock : perform cold (.io (.ilock x.ip)) ⟨l, h, v⟩ =
      .ret () ⟨l, h.after (.ilock x.ip), v⟩ [] := by
    have hact : act cold (.io (.ilock x.ip)) ⟨l, h, v⟩ = .ret () ⟨l, h, v⟩ [] := by
      rw [act, ilock, show cold.inoTaken = 0 from rfl,
        Prog.bind_ret (acquiresleep_run ho (.ino x.ip) nofun)]
      rfl
    rw [perform, Prog.bind_ret hact]
    rfl
  refine ⟨w', carry_stuck ?_⟩
  rw [io, events_relabel, hw, List.map_cons, List.map_cons, play, Prog.bind_ret hilock, hplay]
  rfl

end

/-! ### The way to a copy -/

section
variable {copy : Nat → KProg Bool} {m : Nat} {msg : String} {w : List Slept}

/-- The copies up to byte `m` succeed, and the copy of byte `m` panics. -/
structure StopsAt (copy : Nat → KProg Bool) (l : List Spin) (h : Held) (v : Vol) (m : Nat)
    (msg : String) (w : List Slept) : Prop where
  before : ∀ i < m, copy i ⟨l, h, v⟩ = .ret true ⟨l, h, v⟩ []
  at_ : copy m ⟨l, h, v⟩ = .panic msg w

/-- A copy and what comes after it if it succeeds. -/
theorem StopsAt.step {β : Type} (hs : StopsAt copy l h v m msg w) {i : Nat} {g : Bool → KProg β}
    (hi : i ≤ m) (hnext : i < m → g true ⟨l, h, v⟩ = .panic msg w) :
    (copy i >>= g) ⟨l, h, v⟩ = .panic msg w := by
  rcases Nat.lt_or_eq_of_le hi with hlt | rfl
  · rw [Prog.bind_ret (hs.before i hlt), Out.after_nil, hnext hlt]
  · exact Prog.bind_panic hs.at_

theorem StopsAt.pipewriteLoop (hs : StopsAt copy [.pipe] h v m msg w) : ∀ n i, i ≤ m → m < i + n →
    pipewriteLoop (fun _ => ready) copy n i ⟨[.pipe], h, v⟩ = .panic msg w
  | 0, i, hi, hn => by omega
  | n + 1, i, hi, hn => by
      have hwait : times ready.waits (do
          let _ ← killed false
          wakeup
          sleep .pipe) ⟨[.pipe], h, v⟩ = .ret () ⟨[.pipe], h, v⟩ [] := rfl
      have hgo : (if ready.closed then pure true else killed ready.killed : KProg Bool)
          ⟨[.pipe], h, v⟩ = .ret false ⟨[.pipe], h, v⟩ [] := killed_run (by simp)
      rw [Locks.pipewriteLoop, Prog.bind_ret hwait, Prog.bind_ret hgo, Out.after_nil, Out.after_nil,
        if_neg Bool.false_ne_true]
      exact hs.step hi fun hlt => hs.pipewriteLoop n (i + 1) (by omega) (by omega)

theorem StopsAt.pipereadLoop (hs : StopsAt copy [.pipe] h v m msg w) : ∀ n i, i ≤ m → m < i + n →
    pipereadLoop (fun _ => ready) copy n i ⟨[.pipe], h, v⟩ = .panic msg w
  | 0, i, hi, hn => by omega
  | n + 1, i, hi, hn => by
      rw [Locks.pipereadLoop, if_neg (show ¬ ready.empty = true from nofun)]
      exact hs.step hi fun hlt => hs.pipereadLoop n (i + 1) (by omega) (by omega)

theorem await_ready {lk : Spin} : await lk ready ⟨[lk], h, v⟩ = .ret true ⟨[lk], h, v⟩ [] := rfl

theorem StopsAt.consolereadLoop (hs : StopsAt copy [.cons] h v m msg w) : ∀ n i, i ≤ m → m < i + n →
    consolereadLoop (fun _ => ready) copy n i ⟨[.cons], h, v⟩ = .panic msg w
  | 0, i, hi, hn => by omega
  | n + 1, i, hi, hn => by
      rw [Locks.consolereadLoop, Prog.bind_ret await_ready, Out.after_nil, if_pos rfl,
        if_neg (show ¬ ready.eof = true from nofun)]
      refine hs.step hi fun hlt => ?_
      rw [if_pos rfl, if_neg (show ¬ ready.newline = true from nofun)]
      exact hs.consolereadLoop n (i + 1) (by omega) (by omega)

/-- Up to the zombie, `kwait` takes its two locks. -/
theorem kwait_cold {addr : Nat} {exec : Option Exec} :
    kwait coldScene.family coldScene.reply copy addr exec ⟨[], h, v⟩ = (do
      if addr = 0 then reap (fun _ => cold) exec 0 0
      else if ← copy 0 then reap (fun _ => cold) exec 0 0
      else kwaitDone 0 (-1) : KProg Int) ⟨[.proc 0, .wait], h, v⟩ := by
  have hwait : acquire .wait ⟨[], h, v⟩ = .ret () ⟨[.wait], h, v⟩ [] :=
    acquire_run List.not_mem_nil
  have hpasses : waitPasses coldScene.family.passes ⟨[.wait], h, v⟩ = .ret () ⟨[.wait], h, v⟩ [] :=
    rfl
  have hlast : passOver coldScene.family.last ⟨[.wait], h, v⟩ = .ret () ⟨[.wait], h, v⟩ [] := rfl
  have hchild : acquire (.proc 0) ⟨[.wait], h, v⟩ = .ret () ⟨[.proc 0, .wait], h, v⟩ [] :=
    acquire_run (by simp)
  rw [kwait, Prog.bind_ret hwait, Prog.bind_ret hpasses, Prog.bind_ret hlast]
  simp only [Out.after_nil]
  exact (Prog.bind_ret hchild).trans (Out.after_nil _)

/-- **A call reaches each of its copies.** -/
theorem SpinCall.stopsAt {c : SpinCall} (hm : m < c.copies)
    (hs : StopsAt copy (c.grip coldScene) h v m msg w) :
    c.run coldScene copy ⟨[], h, v⟩ = .panic msg w := by
  have hpipe : acquire .pipe ⟨[], h, v⟩ = .ret () ⟨[.pipe], h, v⟩ [] := acquire_run List.not_mem_nil
  have hcons : acquire .cons ⟨[], h, v⟩ = .ret () ⟨[.cons], h, v⟩ [] := acquire_run List.not_mem_nil
  cases c with
  | pipewrite n =>
      refine (Prog.bind_ret hpipe).trans ((Out.after_nil _).trans ?_)
      exact StopsAt.pipewriteLoop hs n.toNat 0 (Nat.zero_le m) (by rwa [Nat.zero_add])
  | piperead n =>
      refine (Prog.bind_ret hpipe).trans ((Out.after_nil _).trans ?_)
      refine (Prog.bind_ret await_ready).trans ((Out.after_nil _).trans ?_)
      exact StopsAt.pipereadLoop hs n.toNat 0 (Nat.zero_le m) (by rwa [Nat.zero_add])
  | consoleread n =>
      refine (Prog.bind_ret hcons).trans ((Out.after_nil _).trans ?_)
      exact StopsAt.consolereadLoop hs n.toNat 0 (Nat.zero_le m) (by rwa [Nat.zero_add])
  | kwait addr exec =>
      have haddr : addr ≠ 0 := fun h0 => by
        rw [SpinCall.copies, if_pos h0] at hm
        omega
      rw [SpinCall.copies, if_neg haddr] at hm
      obtain rfl : m = 0 := by omega
      refine kwait_cold.trans ?_
      rw [if_neg haddr]
      exact Prog.bind_panic hs.at_

/-- `kwait` whose copy succeeds comes to `freeproc`. -/
theorem SpinCall.stops_freeing {c : SpinCall} (hc : c.frees = true)
    (hcopy : ∀ i < c.copies,
      copy i ⟨c.grip coldScene, h, v⟩ = .ret true ⟨c.grip coldScene, h, v⟩ []) :
    ∃ w, c.run coldScene copy ⟨[], h, v⟩ = .panic "sched locks" w := by
  cases c with
  | pipewrite n => cases hc
  | piperead n => cases hc
  | consoleread n => cases hc
  | kwait addr exec =>
      cases exec with
      | none => cases hc
      | some x =>
          obtain ⟨w, hw⟩ := stuck_freeproc (grip_ne_nil (.kwait addr (some x)))
            (grip_outer (.kwait addr (some x))) (h := h) (v := v) hc
          have hreap : reap (fun _ => cold) (some x) 0 0 ⟨[.proc 0, .wait], h, v⟩ =
            .panic "sched locks" w := Prog.bind_panic hw
          refine ⟨w, kwait_cold.trans ?_⟩
          by_cases haddr : addr = 0
          · rw [if_pos haddr]
            exact hreap
          · rw [if_neg haddr]
            have hcopy : copy 0 ⟨[.proc 0, .wait], h, v⟩ = .ret true ⟨[.proc 0, .wait], h, v⟩ [] :=
              hcopy 0 (by simp [SpinCall.copies, haddr])
            exact (Prog.bind_ret hcopy).trans ((Out.after_nil _).trans hreap)

end

/-- A copy whose faults all bring their pages. -/
theorem copy_brings {faults : Nat → List Entry} {i : Nat} (hes : ∀ e ∈ faults i, Brings e v)
    (s : Scene) : s.copy faults i ⟨l, h, v⟩ = .ret true ⟨l, h, v⟩ [] := by
  have hsome : ¬ ∃ e ∈ faults i, ¬ Brings e v := fun ⟨e, he, hno⟩ => hno (hes e he)
  cases (dryCopy_of_brings hes).ends (l := l) (h := h) (x := s.around i) with
  | all _ hrun => exact hrun
  | fails hno _ => exact absurd hno hsome
  | stops hno _ _ => exact absurd hno hsome

/-- The first byte whose copy does not leave the file system alone. -/
theorem stopsAt_wet {c : SpinCall} {faults : Nat → List Entry} {i : Nat}
    (hbefore : ∀ j < i, ∀ e ∈ faults j, Brings e v) (hwet : ¬ DryCopy v (faults i)) :
    ∃ w, StopsAt (coldScene.copy faults) (c.grip coldScene) h v i "sched locks" w := by
  obtain ⟨w, hw⟩ := stuck_copyUser (grip_ne_nil c) (grip_outer c) (h := h) hwet
  exact ⟨w, fun j hj => copy_brings (hbefore j hj) coldScene, hw⟩

/-- **`pipewrite`, `piperead`, `consoleread` and `kwait` never sleep under
a spinlock, whatever they find, exactly if they leave the file system
alone.** -/
theorem never_sleeps_locked_iff (c : SpinCall) (faults : Nat → List Entry) (h : Held) (v : Vol) :
    (∀ s : Scene, Sleepless (c.run s (s.copy faults) ⟨[], h, v⟩)) ↔ c.DryCall faults v := by
  refine ⟨fun hall => ?_, fun hd s => hd.sleepless s⟩
  have hcold := (hall coldScene).2
  refine ⟨fun i hi hbefore => ?_, fun hfrees => ?_⟩
  · by_contra hwet
    obtain ⟨w, hs⟩ := stopsAt_wet (c := c) hbefore hwet
    exact hcold w (SpinCall.stopsAt hi hs)
  · by_contra hnone
    push Not at hnone
    obtain ⟨w, hw⟩ := SpinCall.stops_freeing hfrees fun i hi => copy_brings (hnone i hi) coldScene
    exact hcold w hw

/-- **Reading from a pipe into a page of the text** that is not yet
loaded, with a cold buffer cache: the process sleeps for the disk with
`pi->lock` held. -/
theorem piperead_sleeps_locked : (SpinCall.piperead 1).run coldScene
    (coldScene.copy fun _ => [textFault]) ⟨[], .nothing, smallVol⟩ =
      .panic "sched locks" [⟨.vdisk, [.vdisk, .pipe]⟩] := rfl

end Locks

end OsSuite.Xv6
