import OsSuite.Xv6.PageTableSpec
import OsSuite.Xv6.Quiet
import OsSuite.Xv6.Run

/-!
# Tables — what a step can do to the paging tables

The resident list, the swapped list and the slot bitmap of a process are
changed in a handful of places only: an eviction, an insertion, the swap
lookup, the dirty mark, and the resets of `kexec` and `allocproc`.
`TableRel T` asks of a relation `T` that it holds across each of these;
`TableRel.kstep` then gives it for every step of the kernel. A claim
about the tables alone never looks at the rest of the code.
-/

namespace OsSuite.Xv6

open Table

namespace Proc

/-- The entry `evict_page` picks. -/
def victimPage (p : Proc) : ResidentPage := p.residentPages p.victim

/-- The end of `evict_page`, on a non-empty list. -/
def dropVictim (p : Proc) : Proc :=
  { p with
    residentPages := swapRemove p.residentPages p.numResident.toNat p.victim
    numResident := p.numResident - 1 }

/-- The end of `add_to_resident_set`, on a list that is not negative. -/
def insertResident (p : Proc) (va : Nat) (swapped : Bool) : Proc :=
  { p with
    residentPages := Function.update p.residentPages p.numResident.toNat
      ⟨va, wrap32 (p.nextFifoSeq + 1), swapped⟩
    nextFifoSeq := wrap32 (p.nextFifoSeq + 1)
    numResident := p.numResident + 1 }

/-- The reset of `kexec`. -/
def commit (p : Proc) : Proc := { p with numResident := 0, nextFifoSeq := 0 }

end Proc

/-! ## The lists after a change -/

section
variable {p : Proc}

theorem victim_lt (h : 0 < p.numResident) : p.victim < p.numResident.toNat :=
  argmin_lt _ _ (by omega)

theorem victimPage_mem (h : 0 < p.numResident) : p.victimPage ∈ p.residents :=
  mem_live.mpr ⟨p.victim, victim_lt h, rfl⟩

/-- An eviction removes the victim and nothing else. -/
theorem residents_dropVictim (h : 0 < p.numResident) :
    (p.victimPage :: p.dropVictim.residents).Perm p.residents := by
  have hcount : (p.numResident - 1).toNat = p.numResident.toNat - 1 := by omega
  have hlive : p.dropVictim.residents =
      live (swapRemove p.residentPages p.numResident.toNat p.victim)
        (p.numResident.toNat - 1) := by
    unfold Proc.residents
    show live _ (p.numResident - 1).toNat = _
    rw [hcount]
    rfl
  rw [hlive]
  exact live_swapRemove (victim_lt h)

theorem residents_insertResident (h : 0 ≤ p.numResident) (va : Nat) (b : Bool) :
    (p.insertResident va b).residents =
      p.residents ++ [⟨va, wrap32 (p.nextFifoSeq + 1), b⟩] := by
  have hcount : (p.numResident + 1).toNat = p.numResident.toNat + 1 := by omega
  unfold Proc.residents
  show live (Function.update _ _ _) (p.numResident + 1).toNat = _
  rw [hcount, live_push]

theorem residents_markDirty (p : Proc) (i : Nat) :
    (p.markDirty i).residents =
      p.residents.set i { p.residentPages i with dirty := true } :=
  live_update ..

theorem swapped_recordSwapped (p : Proc) (va slot : Nat) :
    (p.recordSwapped va slot).swapped = p.swapped ++ [⟨va, slot⟩] := live_push ..

/-- The lookup removes the entry it finds and nothing else. -/
theorem swapped_takeSwapped {va i : Nat} (h : p.swappedIdx va = some i) :
    (p.swappedPages i :: (p.takeSwapped va).2.swapped).Perm p.swapped := by
  simpa [Proc.takeSwapped, h, Proc.swapped] using
    live_swapRemove (a := p.swappedPages) (firstIdx_some h).1

theorem swappedIdx_some {va i : Nat} (h : p.swappedIdx va = some i) :
    p.swappedPages i ∈ p.swapped ∧ (p.swappedPages i).va = va := by
  obtain ⟨hi, hva, -⟩ := firstIdx_some h
  exact ⟨mem_live.mpr ⟨i, hi, rfl⟩, by simpa using hva⟩

theorem swappedIdx_none {va : Nat} : p.swappedIdx va = none ↔ ∀ e ∈ p.swapped, e.va ≠ va := by
  unfold Proc.swappedIdx Proc.swapped
  rw [firstIdx_none]
  simp [mem_live]

theorem residentIdx_some {va i : Nat} (h : p.residentIdx va = some i) :
    i < p.numResident.toNat ∧ (p.residentPages i).va = va := by
  obtain ⟨hi, hva, -⟩ := firstIdx_some h
  exact ⟨hi, by simpa using hva⟩

theorem residentIdx_none {va : Nat} :
    p.residentIdx va = none ↔ ∀ e ∈ p.residents, e.va ≠ va := by
  unfold Proc.residentIdx Proc.residents
  rw [firstIdx_none]
  simp [mem_live]

end

/-- The paging tables and the swap file are the same. -/
structure SameTables (p p' : Proc) : Prop where
  state : p'.state = p.state
  residentPages : p'.residentPages = p.residentPages
  numResident : p'.numResident = p.numResident
  nextFifoSeq : p'.nextFifoSeq = p.nextFifoSeq
  swappedPages : p'.swappedPages = p.swappedPages
  numSwapped : p'.numSwapped = p.numSwapped
  swapSlots : p'.swapSlots = p.swapSlots
  swapFile : p'.swapFile = p.swapFile
  pid : p'.pid = p.pid

theorem SameTables.refl (p : Proc) : SameTables p p := ⟨rfl, rfl, rfl, rfl, rfl, rfl, rfl, rfl, rfl⟩

/-- The ways a `swap_write_page` of `src` can go (`none` is a null
pointer): the files after it and its result. -/
inductive SwapWrite (fs : Fs) (slot : Nat) (src : Option Page) : Option Nat → Fs → Int → Prop where
  | null : SwapWrite fs slot src none fs (-1)
  | write {ino : Nat} {pg : Page} : src = some pg → SwapWrite fs slot src (some ino)
      (fs.writei ino (fun i => pg (pgoff i)) (slot * 4096) 4096).1
      (if (fs.writei ino (fun i => pg (pgoff i)) (slot * 4096) 4096).2 = 4096 then 0 else -1)
  /-- A null page, and no block for it. -/
  | noBlock {ino : Nat} : Fs.writeiAccepts (fs.inode ino) (slot * 4096) 4096 →
      (fs.bmap ino (slot * 4096 / 1024)).1 = false →
      SwapWrite fs slot src (some ino) (fs.bmap ino (slot * 4096 / 1024)).2 (-1)
  /-- A null page, at an offset that is refused. -/
  | refused {ino : Nat} : ¬ Fs.writeiAccepts (fs.inode ino) (slot * 4096) 4096 →
      SwapWrite fs slot src (some ino) fs (-1)

/-- The observation of a swap-out. -/
def swapOutEvent (st : St) (slot : Nat) : Event :=
  .swapOut slot st.p.slots (st.p.swapFile.map fun ino => (st.sys.fs.inode ino).size)

def St.withFs (st : St) (fs : Fs) : St := { st with sys := { st.sys with fs := fs } }

def St.withProc (st : St) (p : Proc) : St := { st with p := p }

/-- A process that has taken a slot and failed to write to it. -/
def swapFailed (st : St) (slot : Nat) (fs : Fs) : St :=
  ((st.withFs fs).withProc (st.p.takeSlot slot)).exited (-1)

/-- An observation that comes with no change of the tables. -/
def Event.Passive : Event → Prop
  | .fault .. | .evicted .. => True
  | _ => False

/-- **A relation across every change of the paging tables** and of the
swap file of a process whose list does not go negative. Runs with an
eviction from an empty list are not constrained. -/
structure TableCore (T : Link St Event) : Prop where
  composes : Composes T
  same : ∀ {st st'}, st'.sys.fs = st.sys.fs → SameTables st.p st'.p → T.ret st [] st'
  emptyRet : ∀ {st st' w}, ¬ (∀ e ∈ w, Event.Nonempty e) → T.ret st w st'
  emptyExit : ∀ {st st' w}, ¬ (∀ e ∈ w, Event.Nonempty e) → T.exit st w st'
  emptyPanic : ∀ {st m w}, ¬ (∀ e ∈ w, Event.Nonempty e) → T.panic st m w
  stop : ∀ st m, T.panic st m []
  exited : ∀ st status, T.exit st [] (st.exited status)
  observe : ∀ st e, Event.Passive e → T.ret st [e] st
  evict : ∀ st, T.ret st [.evict st.p.numResident] st
  swapOut : ∀ st slot src fs va, st.p.freeSlot = some slot →
    SwapWrite st.sys.fs slot src st.p.swapFile fs 0 →
    T.ret st [swapOutEvent st slot]
      ((st.withFs fs).withProc ((st.p.takeSlot slot).recordSwapped va slot))
  swapFull : ∀ st, st.p.freeSlot = none → T.exit st [.swapFull st.p.slots] (st.exited (-1)) ∧
    ∀ m, T.panic st m [.swapFull st.p.slots]
  swapPanic : ∀ st slot, st.p.freeSlot = some slot → ∀ m, T.panic st m [swapOutEvent st slot]
  swapFail : ∀ st slot src fs r, st.p.freeSlot = some slot →
    SwapWrite st.sys.fs slot src st.p.swapFile fs r → r ≠ 0 →
    T.exit st [swapOutEvent st slot, .swapFail fs.nfree] (swapFailed st slot fs) ∧
    ∀ m, T.panic st m [swapOutEvent st slot, .swapFail fs.nfree]
  remove : ∀ st, 0 < st.p.numResident →
    T.ret st [.removed st.p.victimPage.va st.p.victimPage.seq st.p.victimPage.dirty]
      (st.withProc st.p.dropVictim)
  take : ∀ st va, T.ret st [] (st.withProc (st.p.takeSwapped va).2)
  insert : ∀ st va swapped, 0 ≤ st.p.numResident → st.p.numResident < maxResidentPages →
    T.ret st [.inserted va (wrap32 (st.p.nextFifoSeq + 1)) swapped]
      (st.withProc (st.p.insertResident va swapped))
  /-- An insertion into a list that is negative. -/
  insertNeg : ∀ st p' va swapped, st.p.numResident < 0 → p'.state = st.p.state →
    p'.pid = st.p.pid → p'.swapFile = st.p.swapFile →
    T.ret st [.inserted va (wrap32 (st.p.nextFifoSeq + 1)) swapped] (st.withProc p')
  mark : ∀ st va i, st.p.residentIdx va = some i →
    T.ret st [.marked (st.p.residentPages i).seq] (st.withProc (st.p.markDirty i))
  create : ∀ st dirlinkOk ino fs, st.sys.fs.create (swapName st.p.pid) dirlinkOk = some (ino, fs) →
    T.ret st [.swapFile] ((st.withFs fs).withProc { st.p with swapFile := some ino })
  commit : ∀ st, T.ret st [.reset] (st.withProc st.p.commit)

/-- The same, where the rest of the machine may also fill and empty the
disk. -/
structure TableRel (T : Link St Event) : Prop extends TableCore T where
  env : ∀ st n, T.ret st [] (st.withFs { st.sys.fs with nfree := n })

theorem TableRel.and {T T' : Link St Event} (h : TableRel T) (h' : TableRel T') :
    TableRel (T.and T') where
  composes := h.composes.and h'.composes
  same hfs hs := ⟨h.same hfs hs, h'.same hfs hs⟩
  emptyRet hw := ⟨h.emptyRet hw, h'.emptyRet hw⟩
  emptyExit hw := ⟨h.emptyExit hw, h'.emptyExit hw⟩
  emptyPanic hw := ⟨h.emptyPanic hw, h'.emptyPanic hw⟩
  stop st m := ⟨h.stop st m, h'.stop st m⟩
  exited st n := ⟨h.exited st n, h'.exited st n⟩
  observe st e he := ⟨h.observe st e he, h'.observe st e he⟩
  evict st := ⟨h.evict st, h'.evict st⟩
  swapOut st slot src fs va hf hw :=
    ⟨h.swapOut st slot src fs va hf hw, h'.swapOut st slot src fs va hf hw⟩
  swapFull st hf := ⟨⟨(h.swapFull st hf).1, (h'.swapFull st hf).1⟩,
    fun m => ⟨(h.swapFull st hf).2 m, (h'.swapFull st hf).2 m⟩⟩
  swapPanic st slot hf m := ⟨h.swapPanic st slot hf m, h'.swapPanic st slot hf m⟩
  swapFail st slot src fs r hf hw hr :=
    have hx := h.swapFail st slot src fs r hf hw hr
    have hx' := h'.swapFail st slot src fs r hf hw hr
    ⟨⟨hx.1, hx'.1⟩, fun m => ⟨hx.2 m, hx'.2 m⟩⟩
  remove st hpos := ⟨h.remove st hpos, h'.remove st hpos⟩
  take st va := ⟨h.take st va, h'.take st va⟩
  insert st va b hpos hlt := ⟨h.insert st va b hpos hlt, h'.insert st va b hpos hlt⟩
  insertNeg st p' va b hneg h1 h2 h3 :=
    ⟨h.insertNeg st p' va b hneg h1 h2 h3, h'.insertNeg st p' va b hneg h1 h2 h3⟩
  mark st va i hi := ⟨h.mark st va i hi, h'.mark st va i hi⟩
  create st ok ino fs hc := ⟨h.create st ok ino fs hc, h'.create st ok ino fs hc⟩
  commit st := ⟨h.commit st, h'.commit st⟩
  env st n := ⟨h.env st n, h'.env st n⟩

/-! ## The machine below the tables -/

section
variable {α : Type} {Q : α → St → List Event → Prop} {E : St → List Event → Prop}
  {P : String → List Event → Prop} {st : St}

/-- Page-table code called from a process leaves the process and the
files alone. -/
theorem ends_onSys {x : Prog Sys Event α} (hx : Respects quiet x)
    (h : ∀ a s', SameConf st.sys s' → Q a ⟨s', st.p⟩ []) (hP : ∀ m, P m []) :
    ends (onSys x) Q E P st := by
  unfold onSys
  rw [ends_zoom]
  refine (hx st.sys).mono (fun a s' w hq => ?_) (fun _ _ hf => hf.elim) fun m w hw => ?_
  · rw [hq.1]
    exact h a s' hq.2
  · rw [show w = [] from hw]
    exact hP m

/-- The same with a specification of the code. -/
theorem ends_onSys_wp {x : Prog Sys Event α} {R : Post Sys α} (hx : Respects quiet x)
    (hw : wp (fun _ => True) x R st.sys)
    (h : ∀ a s', SameConf st.sys s' → R.ret a s' → Q a ⟨s', st.p⟩ [])
    (hP : ∀ m, R.panic m → P m []) : ends (onSys x) Q E P st := by
  unfold onSys
  rw [ends_zoom]
  refine ((hx st.sys).and hw.ends).mono (fun a s' w hq => ?_) (fun _ _ hf => hf.1.elim)
    fun m w hm => ?_
  · obtain ⟨⟨rfl, hc⟩, hr⟩ := hq
    exact h a s' hc (hr fun _ _ => trivial)
  · obtain ⟨hnil, hm⟩ := hm
    rw [show w = [] from hnil] at hm ⊢
    exact hP m (hm fun _ _ => trivial)

/-- Code that only looks. -/
theorem ends_onSys_look {x : Prog Sys Event α} {a : α} (hx : Respects quiet x)
    (hw : wp (fun _ => True) x ⟨fun a' s' => a' = a ∧ s' = st.sys, fun _ => False, fun _ => False⟩
      st.sys)
    (h : Q a st []) : ends (onSys x) Q E P st := by
  refine ends_onSys_wp hx hw (fun a' s' _ hr => ?_) fun _ hf => hf.elim
  obtain ⟨rfl, rfl⟩ := hr
  exact h

theorem ends_walkaddr {root : Frame} {va : Nat} {Q : Option Frame → St → List Event → Prop}
    (h : Q (userPa st.sys.mem root va) st []) : ends (onSys (walkaddr root va)) Q E P st :=
  ends_onSys_look (quiet_walkaddr _ _) (wp_walkaddr.mpr ⟨rfl, rfl⟩) h

@[simp] theorem ends_onSys_modify {g : Sys → Sys} {Q : Unit → St → List Event → Prop} :
    ends (onSys (Prog.modify g)) Q E P st ↔ Q () ⟨g st.sys, st.p⟩ [] := by
  unfold onSys
  rw [ends_zoom, ends_modify]

@[simp] theorem ends_modifyProc {f : Proc → Proc} {Q : Unit → St → List Event → Prop} :
    ends (modifyProc f) Q E P st ↔ Q () ⟨st.sys, f st.p⟩ [] := by
  unfold modifyProc
  rw [ends_modify]

@[simp] theorem ends_modifyFs {f : Fs → Fs} {Q : Unit → St → List Event → Prop} :
    ends (modifyFs f) Q E P st ↔ Q () ⟨{ st.sys with fs := f st.sys.fs }, st.p⟩ [] := by
  unfold modifyFs
  rw [ends_modify]

theorem ends_kexit {status : Int} (h : E (st.exited status) []) (hP : P "init exiting" []) :
    ends (kexit status : PProg α) Q E P st := by
  unfold kexit
  rw [ends_bind, ends_get]
  split
  · rw [ends_panic]
    exact hP
  · rw [ends_exit]
    exact h

/-- A swap write changes files only. -/
theorem ends_swapWritePage {slot : Nat} {pa : Option Frame} {Q : Int → St → List Event → Prop}
    (h : ∀ r fs, SwapWrite st.sys.fs slot (pa.map fun f => (st.sys.mem f).page) st.p.swapFile fs r →
      Q r (st.withFs fs) [])
    (hP : P "kerneltrap" []) : ends (swapWritePage slot pa) Q E P st := by
  unfold swapWritePage
  rw [ends_bind, ends_get]
  dsimp only
  split
  · rename_i hf
    exact ends_pure.mpr (h _ st.sys.fs (by rw [hf]; exact .null))
  · rename_i hf
    simp only [ends_bind, ends_modifyFs, ends_pure]
    exact h _ _ (by rw [hf]; exact .write rfl)
  · rename_i hf
    split
    · rename_i hacc
      split
      · rw [ends_panic]
        exact hP
      · rename_i hb
        simp only [ends_bind, ends_modifyFs, ends_pure]
        exact h _ _ (by rw [hf]; exact .noBlock hacc (by simpa using hb))
    · rename_i hacc
      exact ends_pure.mpr (h _ st.sys.fs (by rw [hf]; exact .refused hacc))

end

/-! ## The primitive changes -/

section
variable {T : Link St Event}

theorem tables_onSys (hT : TableCore T) {α : Type} {x : Prog Sys Event α}
    (hx : Respects quiet x) : Respects T (onSys x) :=
  fun st => ends_onSys hx (fun _ _ hc => hT.same hc.fs (.refl _)) (hT.stop st)

theorem tables_modifyProc (hT : TableCore T) {f : Proc → Proc} (h : ∀ p, SameTables p (f p)) :
    Respects T (modifyProc f) :=
  fun _ => ends_modifyProc.mpr (hT.same rfl (h _))

theorem tables_kexit (hT : TableCore T) {α : Type} (status : Int) :
    Respects T (kexit status : PProg α) :=
  fun st => ends_kexit (hT.exited st status) (hT.stop st _)

theorem tables_tell (hT : TableCore T) {e : Event} (he : e.Passive) : Respects T (Prog.tell e) :=
  .tell fun st => hT.observe st e he

theorem tables_setkilled (hT : TableCore T) : Respects T setkilled :=
  tables_modifyProc hT fun _ => ⟨rfl, rfl, rfl, rfl, rfl, rfl, rfl, rfl, rfl⟩

/-- The page `evict_page` writes to the swap file. -/
def St.userPage (st : St) (root : Frame) (va : Nat) : Option Page :=
  (userPa st.sys.mem root va).map fun f => (st.sys.mem f).page

/-- The dirty branch of `evict_page`, by what became of the slot. -/
theorem ends_swapOut {st : St} {root : Frame} {va : Nat} {Q : Unit → St → List Event → Prop}
    {E : St → List Event → Prop} {P : String → List Event → Prop}
    (hfull : st.p.freeSlot = none →
      E (st.exited (-1)) [.swapFull st.p.slots] ∧ P "init exiting" [.swapFull st.p.slots])
    (hok : ∀ slot fs, st.p.freeSlot = some slot →
      SwapWrite st.sys.fs slot (st.userPage root va) st.p.swapFile fs 0 →
      Q () ((st.withFs fs).withProc ((st.p.takeSlot slot).recordSwapped va slot))
        [swapOutEvent st slot])
    (hfail : ∀ slot fs r, st.p.freeSlot = some slot →
      SwapWrite st.sys.fs slot (st.userPage root va) st.p.swapFile fs r → r ≠ 0 →
      E (swapFailed st slot fs) [swapOutEvent st slot, .swapFail fs.nfree] ∧
      P "init exiting" [swapOutEvent st slot, .swapFail fs.nfree])
    (hpanic : ∀ slot, st.p.freeSlot = some slot → P "kerneltrap" [swapOutEvent st slot]) :
    ends (swapOut root va) Q E P st := by
  obtain ⟨s, p⟩ := st
  unfold swapOut swapAllocatedSlot
  rw [ends_bind, ends_bind, ends_get]
  cases hslot : p.freeSlot with
  | none =>
      simp only [ends_bind, ends_pure, ends_get, ends_tell]
      exact ends_kexit (hfull hslot).1 (hfull hslot).2
  | some slot =>
      simp only [ends_bind, ends_modifyProc, ends_pure, ends_get, ends_tell, List.nil_append]
      refine ends_walkaddr ?_
      refine ends_swapWritePage (fun r fs hw => ?_) (hpanic slot hslot)
      split
      · rename_i hr
        simp only [ends_bind, ends_get, ends_tell]
        obtain ⟨hx, hp⟩ := hfail slot fs r hslot hw hr
        exact ends_kexit hx hp
      · rename_i hr
        rw [not_not] at hr
        rw [hr] at hw
        exact ends_modifyProc.mpr (hok slot fs hslot hw)

theorem residentAt_last {p : Proc} (h : 0 < p.numResident) :
    p.residentAt (p.numResident - 1) = some (p.residentPages (p.numResident.toNat - 1)) := by
  unfold Proc.residentAt
  rw [if_pos (by omega)]
  congr 2
  omega

/-- The end of `evict_page`. -/
theorem ends_removeResident {st : St} {i : Nat} {Q : Unit → St → List Event → Prop}
    {E : St → List Event → Prop} {P : String → List Event → Prop} (h : 0 < st.p.numResident)
    (hi : i = st.p.victim)
    (hQ : Q () (st.withProc st.p.dropVictim)
      [.removed st.p.victimPage.va st.p.victimPage.seq st.p.victimPage.dirty]) :
    ends (removeResident i) Q E P st := by
  subst hi
  unfold removeResident
  rw [ends_bind, ends_get]
  dsimp only
  rw [residentAt_last h]
  simp only [ends_bind, ends_modifyProc, ends_tell]
  exact hQ

/-- `evict_page` after the swap-out. -/
theorem tables_dropVictim (hT : TableCore T) {st : St} (root : Frame) (va : Nat)
    (hpos : 0 < st.p.numResident) {i : Nat} (hi : i = st.p.victim) {r : Frame} {n : Int}
    {s : Sys} :
    ends (do
        onSys (uvmunmap root va 1 true)
        removeResident i
        let st' ← Prog.get
        Prog.tell (.evicted r va n st'.p.numResident s st'.sys)
        pure (0 : Int))
      (fun _ st' w => T.ret st w st') (fun st' w => T.exit st w st') (fun m w => T.panic st m w) st := by
  rw [ends_bind]
  refine ends_onSys (quiet_uvmunmap _ _ _ _) (fun _ s' hc => ?_) (hT.stop st)
  simp only [ends_bind, ends_get, ends_tell, ends_pure, List.nil_append, List.append_nil]
  refine ends_removeResident hpos hi ?_
  have hconf : T.ret st [] ⟨s', st.p⟩ := hT.same hc.fs (.refl _)
  have hrem := hT.composes.trans hconf (hT.remove ⟨s', st.p⟩ hpos)
  exact hT.composes.trans hrem (hT.observe _ _ trivial)

/-- An eviction from an empty list is observed as such. -/
theorem ends_evictPage_empty {st : St} (hpos : ¬ 0 < st.p.numResident)
    {Q : Int → St → List Event → Prop} {E : St → List Event → Prop}
    {P : String → List Event → Prop} (hQ : ∀ r st' w, ¬ (∀ e ∈ w, Event.Nonempty e) → Q r st' w)
    (hE : ∀ st' w, ¬ (∀ e ∈ w, Event.Nonempty e) → E st' w)
    (hP : ∀ m w, ¬ (∀ e ∈ w, Event.Nonempty e) → P m w) : ends evictPage Q E P st := by
  have hempty : ∀ w : List Event, ¬ ∀ e ∈ [] ++ ([Event.evict st.p.numResident] ++ w), e.Nonempty :=
    fun w hall => hpos (hall (.evict st.p.numResident) (by simp))
  unfold evictPage
  rw [ends_bind, ends_get, ends_bind, ends_tell]
  exact ends_of_forall (fun _ _ w => hQ _ _ _ (hempty w)) (fun _ w => hE _ _ (hempty w))
    fun _ w => hP _ _ (hempty w)

theorem tables_evictPage (hT : TableCore T) : Respects T evictPage := by
  intro st
  by_cases hpos : 0 < st.p.numResident
  · unfold evictPage
    rw [ends_bind, ends_get, ends_bind, ends_tell]
    simp only [List.nil_append]
    refine hT.composes.ends_after (hT.evict st) ?_
    split
    · rw [ends_bind]
      refine ends_swapOut (fun hslot => (hT.swapFull st hslot).imp_right fun h => h _)
        (fun slot fs hslot hw => ?_)
        (fun slot fs r hslot hw hr => (hT.swapFail st slot _ fs r hslot hw hr).imp_right fun h => h _)
        fun slot hslot => hT.swapPanic st slot hslot _
      refine hT.composes.ends_after (hT.swapOut st slot _ fs st.p.victimPage.va hslot hw)
        (tables_dropVictim hT _ _ ?_ ?_)
      · exact hpos
      · rfl
    · exact tables_dropVictim hT _ _ hpos rfl
  · exact ends_evictPage_empty hpos (fun _ _ _ => hT.emptyRet) (fun _ _ => hT.emptyExit)
      fun _ _ => hT.emptyPanic

/-! ## The code of a process -/

theorem setResident_frame {p p' : Proc} {i : Int} {e : ResidentPage}
    (h : p.setResident i e = some p') :
    p'.state = p.state ∧ p'.pid = p.pid ∧ p'.swapFile = p.swapFile := by
  unfold Proc.setResident at h
  split at h
  · cases h; exact ⟨rfl, rfl, rfl⟩
  · split at h
    · cases h; exact ⟨rfl, rfl, rfl⟩
    · cases h

/-- `add_to_resident_set` on a list that is not negative. -/
theorem ends_addToResidentSet {st : St} {va : Nat} {swapped : Bool}
    {Q : Unit → St → List Event → Prop} {E : St → List Event → Prop}
    {P : String → List Event → Prop} (hpos : 0 ≤ st.p.numResident)
    (hfull : maxResidentPages ≤ st.p.numResident → E (st.exited (-1)) [] ∧ P "init exiting" [])
    (hins : st.p.numResident < maxResidentPages → Q () (st.withProc (st.p.insertResident va swapped))
      [.inserted va (wrap32 (st.p.nextFifoSeq + 1)) swapped]) :
    ends (addToResidentSet va swapped) Q E P st := by
  unfold addToResidentSet
  rw [ends_bind, ends_get]
  dsimp only
  split
  · rename_i hmax
    exact ends_kexit (hfull hmax).1 (hfull hmax).2
  · rename_i hmax
    rw [show st.p.setResident st.p.numResident ⟨va, wrap32 (st.p.nextFifoSeq + 1), swapped⟩ = _
      from if_pos hpos]
    simp only [ends_bind, ends_modifyProc, ends_tell]
    exact hins (not_le.mp hmax)

theorem tables_addToResidentSet (hT : TableCore T) (va : Nat) (swapped : Bool) :
    Respects T (addToResidentSet va swapped) := by
  intro st
  rcases lt_or_ge st.p.numResident 0 with hneg | hpos
  · unfold addToResidentSet
    rw [ends_bind, ends_get]
    dsimp only
    split
    · exact ends_kexit (hT.exited _ _) (hT.stop _ _)
    · split
      · exact ends_panic.mpr (hT.stop _ _)
      · rename_i p' hp'
        obtain ⟨hstate, hpid, hfile⟩ := setResident_frame hp'
        simp only [ends_bind, ends_modifyProc, ends_tell]
        exact hT.insertNeg st { p' with nextFifoSeq := _, numResident := _ } va swapped hneg
          hstate hpid hfile
  · exact ends_addToResidentSet hpos (fun _ => ⟨hT.exited _ _, hT.stop _ _⟩)
      (hT.insert st va swapped hpos)

theorem tables_takeSwapped (hT : TableCore T) (va : Nat) :
    Respects T (takeSwapped va) := by
  rintro ⟨s, p⟩
  unfold takeSwapped
  simp only [ends_bind, ends_get, ends_modifyProc, ends_pure]
  exact hT.take ⟨s, p⟩ va

theorem tables_setDirty (hT : TableCore T) (va : Nat) :
    Respects T (setDirty va) := by
  rintro ⟨s, p⟩
  unfold setDirty
  rw [ends_bind, ends_get]
  dsimp only
  split
  · exact ends_pure.mpr (hT.composes.refl _)
  · rename_i i hi
    simp only [ends_bind, ends_modifyProc, ends_tell]
    exact hT.mark ⟨s, p⟩ va i hi

theorem tables_allocOrEvict (hT : TableCore T) : Respects T allocOrEvict := by
  refine .bind hT.composes (tables_onSys hT quiet_kalloc) fun f => ?_
  split
  · exact .pure hT.composes _
  · refine .bind hT.composes (tables_evictPage hT) fun r => .ite ?_ ?_
    · exact .bind hT.composes (tables_setkilled hT) fun _ => .pure hT.composes _
    · refine .bind hT.composes (tables_onSys hT quiet_kalloc) fun f => ?_
      split
      · exact .panic fun st => hT.stop st _
      · exact .pure hT.composes _

theorem tables_mapOrFree (hT : TableCore T) (root : Frame) (va : Nat) (f : Frame) (perm : Perm) :
    Respects T (onSys (mapOrFree root va f perm)) :=
  tables_onSys hT (quiet_mapOrFree _ _ _ _)

theorem tables_swapIn (hT : TableCore T) (root : Frame) (va slot : Nat) (f : Frame) :
    Respects T (swapIn root va slot f) := by
  refine .bind hT.composes (.get hT.composes) fun st => ?_
  dsimp only
  split
  · exact .panic fun st => hT.stop st _
  · refine .ite (.panic fun st => hT.stop st _) (.bind hT.composes (tables_onSys hT (quiet_fillFrame _ _)) fun _ => ?_)
    exact tables_mapOrFree hT _ _ _ _

theorem tables_loadPage (hT : TableCore T) (root : Frame) (va : Nat) (f : Frame) :
    Respects T (loadPage root va f) := by
  have hbad : Respects T (do onSys (kfree f); pure false) :=
    .bind hT.composes (tables_onSys hT (quiet_kfree _)) fun _ => .pure hT.composes _
  refine .bind hT.composes (.get hT.composes) fun st => .ite (.pure hT.composes _) ?_
  split
  · exact .panic fun st => hT.stop st _
  · dsimp only
    split
    · refine .ite hbad (.bind hT.composes (tables_onSys hT (quiet_fillFrame _ _)) fun _ => ?_)
      exact tables_mapOrFree hT _ _ _ _
    · exact .ite (tables_mapOrFree hT _ _ _ _) (.ite (tables_mapOrFree hT _ _ _ _) hbad)

theorem tables_fetchPage (hT : TableCore T) (root : Frame) (va : Nat) (slot : Option Nat)
    (f : Frame) : Respects T (fetchPage root va slot f) := by
  unfold fetchPage
  split
  · exact tables_swapIn hT _ _ _ _
  · exact tables_loadPage hT _ _ _

theorem tables_handlePgfault (hT : TableCore T) (root : Frame) (va : Nat) :
    Respects T (handlePgfault root va) := by
  refine .ite (.pure hT.composes _) (.bind hT.composes (tables_allocOrEvict hT) fun f => ?_)
  split
  · exact .pure hT.composes _
  · refine .bind hT.composes (tables_onSys hT (quiet_zeroFrame _)) fun _ => ?_
    refine .bind hT.composes (.get hT.composes) fun st => ?_
    refine .bind hT.composes (tables_tell hT trivial) fun _ => ?_
    refine .bind hT.composes (tables_takeSwapped hT _) fun slot => ?_
    refine .bind hT.composes (tables_fetchPage hT _ _ _ _) fun ok => ?_
    refine .ite ?_ (.pure hT.composes _)
    exact .bind hT.composes (tables_addToResidentSet hT _ _) fun _ => .pure hT.composes _

theorem tables_pageFault (hT : TableCore T) (acc : Access) (va : Nat) :
    Respects T (pageFault acc va) := by
  refine .bind hT.composes (.get hT.composes) fun st => ?_
  refine .bind hT.composes (tables_onSys hT (quiet_minorFault _ _ _)) fun r => ?_
  split
  · refine .ite ?_ (tables_setkilled hT)
    exact .bind hT.composes (tables_onSys hT (quiet_writePte _ _ _)) fun _ =>
      tables_setDirty hT _
  · exact .bind hT.composes (tables_handlePgfault hT _ _) fun _ =>
      .ite (tables_setkilled hT) (.pure hT.composes _)

theorem tables_usertrapFault (hT : TableCore T) (acc : Access) (va : Nat) :
    Respects T (usertrapFault acc va) := by
  refine .ite (tables_kexit hT _) (.bind hT.composes (tables_pageFault hT _ _) fun _ => ?_)
  exact .bind hT.composes (.get hT.composes) fun _ => .ite (tables_kexit hT _) (.pure hT.composes _)

theorem tables_userAccess (hT : TableCore T) (acc : Access) (va : Nat) (b : UInt8) (n : Nat) :
    Respects T (userAccess acc va b n) := by
  induction n with
  | zero => exact .pure hT.composes _
  | succ n ih =>
      refine .bind hT.composes (.get hT.composes) fun st => .ite (.ite ?_ (.pure hT.composes _)) ?_
      · exact .bind hT.composes (tables_onSys hT (quiet_setByte _ _ _)) fun _ =>
          .pure hT.composes _
      · exact .bind hT.composes (tables_usertrapFault hT _ _) fun _ => ih

theorem tables_userFrame (hT : TableCore T) (root : Frame) (va0 : Nat) :
    Respects T (userFrame root va0) := by
  refine .bind hT.composes (tables_onSys hT (quiet_walkaddr _ _)) fun r => ?_
  split
  · exact .pure hT.composes _
  · exact .bind hT.composes (tables_handlePgfault hT _ _) fun _ =>
      .ite (.pure hT.composes _) (tables_onSys hT (quiet_walkaddr _ _))

theorem tables_copyinLoop (hT : TableCore T) (root : Frame) (fuel srcva len : Nat)
    (got : List UInt8) : Respects T (copyinLoop root fuel srcva len got) := by
  induction fuel generalizing srcva len got with
  | zero => exact .pure hT.composes _
  | succ fuel ih =>
      refine .ite (.pure hT.composes _) (.bind hT.composes (tables_userFrame hT _ _) fun r => ?_)
      split
      · exact .pure hT.composes _
      · exact .bind hT.composes (.get hT.composes) fun _ => ih _ _ _

theorem tables_copyin (hT : TableCore T) (root : Frame) (srcva len : Nat) :
    Respects T (copyin root srcva len) :=
  .bind hT.composes (tables_copyinLoop hT _ _ _ _ _) fun _ => .pure hT.composes _

theorem tables_copyoutLoop (hT : TableCore T) (root : Frame) (fuel dstva : Nat)
    (src : List UInt8) : Respects T (copyoutLoop root fuel dstva src) := by
  induction fuel generalizing dstva src with
  | zero => exact .pure hT.composes _
  | succ fuel ih =>
      refine .ite (.pure hT.composes _) (.ite (.pure hT.composes _) ?_)
      refine .bind hT.composes (tables_userFrame hT _ _) fun r => ?_
      split
      · exact .pure hT.composes _
      · refine .bind hT.composes (.get hT.composes) fun _ => .ite ?_ (.pure hT.composes _)
        exact .bind hT.composes (tables_onSys hT (quiet_storeBytes _ _ _)) fun _ => ih _ _

theorem tables_copyout (hT : TableCore T) (root : Frame) (dstva : Nat) (src : List UInt8) :
    Respects T (copyout root dstva src) :=
  tables_copyoutLoop hT _ _ _ _

theorem tables_execBad (hT : TableCore T) (root : Frame) (sz : Nat) :
    Respects T (execBad root sz) :=
  .bind hT.composes (tables_onSys hT (quiet_procFreepagetable _ _)) fun _ => .pure hT.composes _

theorem tables_pushArgs (hT : TableCore T) (root : Frame) (stackbase : Nat)
    (args : List (List UInt8)) (sp : Nat) (ustack : List Nat) :
    Respects T (pushArgs root stackbase args sp ustack) := by
  induction args generalizing sp ustack with
  | nil => exact .pure hT.composes _
  | cons arg rest ih =>
      refine .ite (.pure hT.composes _) (.ite (.pure hT.composes _) ?_)
      exact .bind hT.composes (tables_copyout hT _ _ _) fun _ => .ite (ih _ _) (.pure hT.composes _)

theorem tables_execCommit (hT : TableCore T) (root : Frame) (sz entry sp argc : Nat) :
    Respects T (execCommit root sz entry sp argc) := by
  rintro ⟨s, p⟩
  unfold execCommit
  simp only [ends_bind, ends_get, ends_modifyProc, ends_tell, ends_pure, List.nil_append,
    List.append_nil]
  refine ends_onSys (quiet_procFreepagetable _ _) (fun _ s' hc => ?_) ?_
  · exact hT.composes.trans (hT.commit ⟨s, p⟩)
      (hT.same hc.fs ⟨rfl, rfl, rfl, rfl, rfl, rfl, rfl, rfl, rfl⟩)
  · exact fun m => hT.composes.panic (hT.commit ⟨s, p⟩) (hT.stop _ m)

theorem tables_execStack (hT : TableCore T) (root : Frame) (sz entry : Nat)
    (argv : List (List UInt8)) : Respects T (execStack root sz entry argv) := by
  refine .bind hT.composes (tables_modifyProc hT fun _ => ⟨rfl, rfl, rfl, rfl, rfl, rfl, rfl, rfl, rfl⟩)
    fun _ => ?_
  refine .bind hT.composes (tables_onSys hT (quiet_uvmalloc _ _ _ _)) fun sz1 => ?_
  refine .ite (tables_execBad hT _ _) ?_
  refine .bind hT.composes (tables_onSys hT (quiet_uvmclear _ _)) fun _ => ?_
  refine .bind hT.composes (tables_pushArgs hT _ _ _ _ _) fun r => ?_
  refine .ite (tables_execBad hT _ _) (.ite (tables_execBad hT _ _) ?_)
  refine .bind hT.composes (tables_copyout hT _ _ _) fun _ => ?_
  exact .ite (tables_execBad hT _ _) (tables_execCommit hT _ _ _ _ _)

theorem tables_execImage (hT : TableCore T) (ino : Nat) (argv : List (List UInt8)) :
    Respects T (execImage ino argv) := by
  refine .bind hT.composes (.get hT.composes) fun st => ?_
  refine .ite (.pure hT.composes _) (.ite (.pure hT.composes _) ?_)
  refine .bind hT.composes (tables_onSys hT (quiet_procPagetable _)) fun r => ?_
  split
  · exact .pure hT.composes _
  · refine .bind hT.composes (tables_onSys hT (quiet_loadHeaders _ _ _ _ _)) fun r => ?_
    refine .ite (tables_execBad hT _ _) (.ite (.panic fun st => hT.stop st _) ?_)
    refine .bind hT.composes (tables_modifyProc hT fun _ => ⟨rfl, rfl, rfl, rfl, rfl, rfl, rfl, rfl, rfl⟩)
      fun _ => ?_
    exact .ite (tables_execBad hT _ _) (tables_execStack hT _ _ _ _)

theorem tables_kexec (hT : TableCore T) (path : List Char) (argv : List (List UInt8))
    (dirlinkOk fileallocOk : Bool) :
    Respects T (kexec path argv dirlinkOk fileallocOk) := by
  intro st
  unfold kexec
  rw [ends_bind, ends_get]
  split
  · exact ends_pure.mpr (hT.composes.refl st)
  · rename_i ino fs hcreate
    rw [ends_bind, ends_modifyFs]
    split
    · rw [ends_bind, ends_modifyProc, ends_bind, ends_tell]
      refine hT.composes.ends_after (hT.create st dirlinkOk ino fs hcreate) ?_
      split
      · exact ends_pure.mpr (hT.composes.refl _)
      · exact tables_execImage hT _ _ _
    · exact ends_panic.mpr (hT.stop st _)

theorem tables_sysSbrk (hT : TableCore T) (n : Int) :
    Respects T (sysSbrk n) := by
  have hsz : ∀ sz, Respects T (modifyProc fun p => { p with sz := sz }) :=
    fun _ => tables_modifyProc hT fun _ => ⟨rfl, rfl, rfl, rfl, rfl, rfl, rfl, rfl, rfl⟩
  refine .bind hT.composes (.get hT.composes) fun st => .ite (.ite (.pure hT.composes _) ?_) ?_
  · exact .bind hT.composes (hsz _) fun _ => .pure hT.composes _
  · refine .ite ?_ (.pure hT.composes _)
    refine .bind hT.composes (tables_onSys hT (quiet_uvmdealloc _ _ _)) fun sz => ?_
    exact .bind hT.composes (hsz _) fun _ => .pure hT.composes _

theorem tables_syscall (hT : TableCore T) {α : Type} {x : PProg α}
    (hx : Respects T x) : Respects T (syscall x) := by
  refine .bind hT.composes (.get hT.composes) fun st => .ite (tables_kexit hT _) ?_
  refine .bind hT.composes hx fun r => .bind hT.composes (.get hT.composes) fun st => ?_
  exact .ite (tables_kexit hT _) (.pure hT.composes _)

/-- **Every step of one process** changes the tables in these ways only. -/
theorem tables_localStep_core (hT : TableCore T) {op : Op}
    (henv : ∀ script nfree stack, op = .env script nfree stack → Respects T (localStep op)) :
    Respects T (localStep op) := by
  have hret : ∀ r : Res, Respects T (pure r : PProg Res) := .pure hT.composes
  cases op with
  | access acc va b => exact .bind hT.composes (tables_userAccess hT _ _ _ _) fun _ => hret _
  | copyin srcva len =>
      refine tables_syscall hT (.bind hT.composes (.get hT.composes) fun st => ?_)
      exact .bind hT.composes (tables_copyin hT _ _ _) fun _ => hret _
  | copyout dstva src =>
      refine tables_syscall hT (.bind hT.composes (.get hT.composes) fun st => ?_)
      exact .bind hT.composes (tables_copyout hT _ _ _) fun _ => hret _
  | sbrk n => exact tables_syscall hT (.bind hT.composes (tables_sysSbrk hT _) fun _ => hret _)
  | exec path argv d f =>
      exact tables_syscall hT (.bind hT.composes (tables_kexec hT _ _ _ _) fun _ => hret _)
  | exit status => exact tables_syscall hT (tables_kexit hT _)
  | setSp sp =>
      refine .bind hT.composes (tables_modifyProc hT fun _ => ?_) fun _ => hret _
      exact ⟨rfl, rfl, rfl, rfl, rfl, rfl, rfl, rfl, rfl⟩
  | kill => exact .bind hT.composes (tables_setkilled hT) fun _ => hret _
  | env script nfree stack => exact henv _ _ _ rfl
  | fork => exact hret _
  | wait addr => exact hret _

theorem tables_localStep (hT : TableRel T) (op : Op) :
    Respects T (localStep op) := by
  refine tables_localStep_core hT.toTableCore ?_
  rintro script nfree stack rfl
  refine .bind hT.composes (.modify fun st => ?_) fun _ => .pure hT.composes _
  exact hT.composes.trans (hT.env st nfree) (hT.same rfl (.refl _))

end

end OsSuite.Xv6
