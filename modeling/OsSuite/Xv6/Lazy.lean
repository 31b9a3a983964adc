import OsSuite.Xv6.Eager
import OsSuite.Xv6.ExecSpec
import OsSuite.Xv6.Run
import OsSuite.Xv6.UserMem

/-!
# Lazy — demand loading builds the image of the eager loader

`a.Executes exe ip` holds of a process from the `exec` of a file on: the
moves of the pager and the stores of the user never change it. Whatever
else happened in between — which pages came in, in which order, which
were thrown out — a fault on a page of a segment therefore loads the
page that `Segments` describes, and so would the eager loader.
-/

namespace OsSuite.Xv6

/-- **The process runs the executable `exe`**, whose inode is `ip`; its
swap file is another file. -/
structure Space.Executes (a : Space) (exe : Nat) (ip : Inode) : Prop where
  execIp : a.p.execIp = some exe
  heapStart : a.p.heapStart = ip.imageEnd
  file : a.fs.inode exe = ip
  swapFile : a.p.swapFile ≠ some exe

namespace Space

variable {a a' : Space} {w : List Event} {exe : Nat} {ip : Inode}

theorem Executes.withProc (h : a.Executes exe ip) {p : Proc} (hexec : p.execIp = a.p.execIp)
    (hheap : p.heapStart = a.p.heapStart) (hswap : p.swapFile = a.p.swapFile) :
    (a.withProc p).Executes exe ip :=
  ⟨hexec.trans h.execIp, hheap.trans h.heapStart, h.file, fun hc => h.swapFile (hswap ▸ hc)⟩

/-- **No move changes what is executed.** Only the swap file is written. -/
theorem Step.executes (hs : Step a w a') (h : a.Executes exe ip) : a'.Executes exe ip := by
  have htake : ∀ va, (a.withProc (a.p.takeSwapped va).2).Executes exe ip := by
    intro va
    obtain ⟨sp, n, sl, hp⟩ := takeSwapped_frame a.p va
    exact h.withProc (by rw [hp]) (by rw [hp]) (by rw [hp])
  cases hs with
  | kill => exact h.withProc rfl rfl rfl
  | grow low hlow => exact ⟨h.execIp, h.heapStart, h.file, h.swapFile⟩
  | discard he hclean => exact ⟨h.execIp, h.heapStart, h.file, h.swapFile⟩
  | @swapOut _ _ slot ino x fs he hdirty hslot hfile hpage hwrite =>
      have hne : exe ≠ ino := by
        rintro rfl
        exact h.swapFile hfile
      have hother := (Fs.writei_spec a.fs ino (fun i => x.2 (pgoff i))
        (show slot * 4096 % 4096 = 0 by omega)).other exe hne
      rw [hwrite] at hother
      exact ⟨h.execIp, h.heapStart, hother.trans h.file, h.swapFile⟩
  | @swapIn va _ _ hal hva hi hfile hread himg hlow hroom =>
      have ht := htake va
      exact ⟨ht.execIp, ht.heapStart, h.file, ht.swapFile⟩
  | load hal hva hi hx himg hlow hroom => exact ⟨h.execIp, h.heapStart, h.file, h.swapFile⟩
  | reject hi => exact h
  | lost hi hno => exact htake _
  | minor hx hw hok hi => exact ⟨h.execIp, h.heapStart, h.file, h.swapFile⟩
  | dirty hx hw hok hi => exact ⟨h.execIp, h.heapStart, h.file, h.swapFile⟩

theorem Moves.executes (hm : Moves a w a') (h : a.Executes exe ip) : a'.Executes exe ip :=
  Moves.inv (A := fun _ => True) (fun _ _ _ hs _ ha => hs.executes ha) hm (fun _ _ => trivial) h

theorem Uses.executes (hu : Uses a w a') (h : a.Executes exe ip) : a'.Executes exe ip := by
  induction hu with
  | moves hm => exact hm.executes h
  | store hx hu hw b => exact ⟨h.execIp, h.heapStart, h.file, h.swapFile⟩
  | trans _ _ ih₁ ih₂ => exact ih₂ (ih₁ h)

end Space

section
variable {ip : Inode} {exe i va : Nat}

/-- A page of a segment lies below the heap. -/
theorem Inode.lt_imageEnd (ip : Inode) (hi : i < ip.phnum) (hp : (ip.hdr i).HasPage va) :
    va < ip.imageEnd :=
  hp.2.2.2.trans_le (ip.le_imageEnd hi hp.1)

/-- **What Case 2 of `handle_pgfault` maps** at a page of a segment. -/
theorem Space.Executes.load_eq {a : Space} (h : a.Executes exe ip) (hip : WellLaid ip)
    (hi : i < ip.phnum) (hp : (ip.hdr i).HasPage va) :
    a.load va = some ({ flags2perm (ip.hdr i).flags with u := true }, ip.segPage (ip.hdr i) va) := by
  obtain ⟨hread, hpage⟩ := ProgHdr.filePage_eq hip.size_le (hip.inFile i hi hp.1) hp.2.2.1
  have hrange : va < a.p.heapStart := h.heapStart ▸ ip.lt_imageEnd hi hp
  have hfile := h.file
  subst hfile
  rw [Space.load_seg (.inl hrange) h.execIp (hip.segFor_eq a.stack hi hp) hread, hpage]

/-- The code, in any state of the machine: the frame is filled with the
page of the image and mapped. -/
theorem Space.Executes.loadPage_eq {st : St} (h : st.space.Executes exe ip) (hip : WellLaid ip)
    (hi : i < ip.phnum) (hp : (ip.hdr i).HasPage va) (root f : Frame) :
    loadPage root va f st = (do
      onSys (fillFrame f (ip.segPage (ip.hdr i) va))
      onSys (mapOrFree root va f { flags2perm (ip.hdr i).flags with u := true })) st := by
  obtain ⟨hread, hpage⟩ := ProgHdr.filePage_eq hip.size_le (hip.inFile i hi hp.1) hp.2.2.1
  have hrange : va < st.p.heapStart := by
    have hh : st.p.heapStart = ip.imageEnd := h.heapStart
    exact hh ▸ ip.lt_imageEnd hi hp
  have hexec : st.p.execIp = some exe := h.execIp
  have hfile : st.sys.fs.inode exe = ip := h.file
  unfold loadPage
  rw [Prog.get_bind, if_neg fun hc => hc.1 hrange, hexec]
  dsimp only
  rw [hfile, hip.segFor_eq st.sys.stack hi hp]
  dsimp only
  rw [if_neg (not_not.mpr hread), hpage]

/-- A fault that is served from the file maps the page of the image. -/
theorem Space.Executes.faulted {root : Frame} {role : Frame → Role} {st st' : St} {w : List Event}
    {a : Nat} {seq : Int} (h : st.space.Executes exe ip) (hip : WellLaid ip)
    (hown : Own root role st) (hi : i < ip.phnum) (hp : (ip.hdr i).HasPage (pgrounddown a))
    (hfault : handlePgfault root a st = .ret 0 st' w) (hw : ∀ e ∈ w, e.Nonempty)
    (hcase : w.getLast? = some (.inserted (pgrounddown a) seq false)) :
    ∃ perm, st'.space.img (pgrounddown a) = some (perm, ip.segPage (ip.hdr i) (pgrounddown a)) := by
  obtain ⟨-, -, hfrom⟩ := (runs_handlePgfault_from hown a).of_ret hfault hw
  obtain ⟨b, x, w₁, rfl, hm, hx, hbrings⟩ := hfrom rfl
  have hload : b.load (pgrounddown a) = some x := by
    rcases hbrings with ⟨-, hload⟩ | ⟨hsome, -⟩
    · exact hload
    · -- a page from the swap file is entered as such
      obtain ⟨j, hj⟩ := Option.isSome_iff_exists.mp hsome
      rw [takeSwapped_of_some hj, List.getLast?_append, List.getLast?_cons_cons,
        List.getLast?_singleton] at hcase
      cases hcase
  rw [(hm.executes h).load_eq hip hi hp] at hload
  cases hload
  exact ⟨_, hx⟩

/-- The page at `va` that the eager loader leaves in memory, if it finds
the memory. -/
def EagerPage (ip : Inode) (va : Nat) (pg : Page) : Prop :=
  ∀ tf s root sz s' w, PoolOk s → eagerLoad tf ip s = .ret (some (root, sz)) s' w →
    ∃ perm, pageAt s'.mem root va = some (perm, pg)

/-- **Lazy loading equals eager loading.** For an address `a` in a page of
a segment there is one page of the image: with the byte of the file or
the zero that belongs at `a`; the one the eager loader leaves there; the
one with which demand loading fills the frame, whatever the state of the
machine; and the one that is mapped when a fault is served from the
file, after any run of the process (`Used`) since it executed the file. -/
theorem lazy_load_eq_eager {a : Nat} (hip : WellLaid ip) (hi : i < ip.phnum)
    (hp : (ip.hdr i).HasPage (pgrounddown a)) :
    ∃ pg : Page,
      pg (pgoff a) = (if a - (ip.hdr i).vaddr < (ip.hdr i).filesz
        then ip.data ((ip.hdr i).off + (a - (ip.hdr i).vaddr)) else 0) ∧
      EagerPage ip (pgrounddown a) pg ∧
      (∀ (exe : Nat) (st : St) (root f : Frame), st.space.Executes exe ip →
        loadPage root (pgrounddown a) f st = (do
          onSys (fillFrame f pg)
          onSys (mapOrFree root (pgrounddown a) f
            { flags2perm (ip.hdr i).flags with u := true })) st) ∧
      ∀ (exe : Nat) (root : Frame) (role : Frame → Role) (st st₁ st₂ : St) (w w₂ : List Event)
        (seq : Int), Own root role st → st.space.Executes exe ip → Used root role st w st₁ →
        handlePgfault root a st₁ = .ret 0 st₂ w₂ → (∀ e ∈ w₂, e.Nonempty) →
        w₂.getLast? = some (.inserted (pgrounddown a) seq false) →
        ∃ perm, st₂.space.img (pgrounddown a) = some (perm, pg) := by
  refine ⟨ip.segPage (ip.hdr i) (pgrounddown a), ?_, ?_, ?_, ?_⟩
  · unfold Inode.segPage Inode.segByte
    rw [pgrounddown_add_pgoff]
  · intro tf s root sz s' w hpool hload
    exact (eagerLoad_spec hip hpool).of_ret hload (fun _ _ => trivial) root sz rfl i _ hi hp
  · exact fun exe st root f hexec => hexec.loadPage_eq hip hi hp root f
  · intro exe root role st st₁ st₂ w w₂ seq hown hexec hrun hfault hw hcase
    obtain ⟨role₁, hown₁, -, huses⟩ := hrun
    exact (huses.executes hexec).faulted hip hown₁ hi hp hfault hw hcase

end

/-! ## The small executable -/

/-- The executable `a` of the small machine. -/
def smallIp : Inode := smallFs.inode 2

theorem wellLaid_smallIp : WellLaid smallIp := by
  have hnum : smallIp.phnum = 1 := by decide +kernel
  have hhdr : smallIp.hdr 0 = ⟨1, 6, 120, 0, 8, 4096⟩ := by decide +kernel
  have hzero : ∀ {i}, i < smallIp.phnum → i = 0 := fun hi => by omega
  refine ⟨⟨by decide +kernel, by decide +kernel, fun i hi => ?_⟩, by decide +kernel,
    fun i hi _ => ?_, ?_⟩
  · rw [hzero hi]
    refine ⟨by decide +kernel, by decide +kernel, fun _ => ?_⟩
    rw [hhdr]
    exact ⟨by decide, by decide, by decide, by decide⟩
  · rw [hzero hi]
    decide +kernel
  · intro i j va hi hj _ _
    rw [hzero hi, hzero hj]

/-- A process that has just executed `a`, with the page table at `root`. -/
def startedProc (root : Frame) : Proc :=
  { Proc.zero with
    pagetable := root, sz := 28672, heapStart := 4096, execIp := some 2, swapFile := some 3 }

/-- The small machine with that process. -/
def startedSt : St :=
  match procPagetable 524290 smallKern.sys with
  | .ret (some root) s _ => ⟨s, startedProc root⟩
  | _ => ⟨smallKern.sys, Proc.zero⟩

theorem procPagetable_smallKern :
    ∃ s w, procPagetable 524290 smallKern.sys = .ret (some 524300) s w :=
  Out.of_returns (by decide +kernel)

theorem own_startedSt :
    (∃ role, Own 524300 role startedSt) ∧ startedSt.space.Executes 2 smallIp := by
  have hpool : PoolOk smallKern.sys := ⟨by decide, by decide, by decide⟩
  obtain ⟨s, w, hx⟩ := procPagetable_smallKern
  obtain ⟨role, hstep, -, hleaf⟩ :=
    (procPagetable_spec (A := fun _ => True) hpool.inv).of_ret hx fun _ _ => trivial
  have hlists : ListsOk (startedProc 524300) := ⟨by decide, by decide, nofun, nofun⟩
  unfold startedSt
  rw [hx]
  refine ⟨⟨role, rfl, hstep.inv, hstep.wf, fun b hal hb hm => ?_, hlists⟩, rfl, ?_, ?_, nofun⟩
  · rw [hleaf b hal hm]
    exact top_leaf hal hb hm
  · show 4096 = smallIp.imageEnd
    decide +kernel
  · show s.fs.inode 2 = smallIp
    rw [hstep.conf.fs]
    rfl

/-- The page `va` was mapped, and not from the swap file. -/
def Event.loads (va : Nat) : Event → Bool
  | .inserted va' _ swapped => va' == va && !swapped
  | _ => false

theorem Event.of_loads {va : Nat} {e : Event} (h : e.loads va = true) :
    ∃ seq, e = .inserted va seq false := by
  unfold Event.loads at h
  split at h
  · rename_i va' seq swapped
    obtain ⟨hva, hswapped⟩ := Bool.and_eq_true_iff.mp h
    rw [Bool.not_eq_eq_eq_not, Bool.not_true] at hswapped
    exact ⟨seq, by rw [eq_of_beq hva, hswapped]⟩
  · cases h

/-- The fifth byte of the small executable, loaded on demand. -/
theorem lazy_load_eq_eager_small :
    ∃ pg : Page, pg 4 = 5 ∧ EagerPage smallIp 0 pg ∧
      (∃ root sz s w, eagerLoad 524290 smallIp smallKern.sys = .ret (some (root, sz)) s w) ∧
      ∃ st w perm, handlePgfault 524300 4 startedSt = .ret 0 st w ∧
        st.space.img 0 = some (perm, pg) := by
  have hi : 0 < smallIp.phnum := by decide +kernel
  have hp : (smallIp.hdr 0).HasPage (pgrounddown 4) := by decide +kernel
  obtain ⟨pg, hbyte, heager, -, hlazy⟩ := lazy_load_eq_eager wellLaid_smallIp hi hp
  have hfile : (if 4 - (smallIp.hdr 0).vaddr < (smallIp.hdr 0).filesz
      then smallIp.data ((smallIp.hdr 0).off + (4 - (smallIp.hdr 0).vaddr)) else 0) = 5 := by
    decide +kernel
  have hload : (eagerLoad 524290 smallIp smallKern.sys).passes (fun r _ _ => r.isSome) = true := by
    decide +kernel
  have hfault : (handlePgfault 524300 4 startedSt).passes (fun r _ w =>
      decide ((r = 0 ∧ ∀ e ∈ w, e.Nonempty) ∧ w.getLast?.any (Event.loads 0) = true)) = true := by
    decide +kernel
  refine ⟨pg, hbyte.trans hfile, heager, ?_, ?_⟩
  · obtain ⟨r, s, w, hx, hr⟩ := Out.of_passes hload
    obtain ⟨x, rfl⟩ := Option.isSome_iff_exists.mp hr
    exact ⟨x.1, x.2, s, w, hx⟩
  · obtain ⟨⟨role, hown⟩, hexec⟩ := own_startedSt
    obtain ⟨r, st, w, hx, hr⟩ := Out.of_passes hfault
    obtain ⟨⟨rfl, hw⟩, hlast⟩ := of_decide_eq_true hr
    obtain ⟨e, hl, he⟩ := (Option.any_eq_true _ _).mp hlast
    obtain ⟨seq, rfl⟩ := Event.of_loads he
    obtain ⟨perm, himg⟩ := hlazy 2 524300 role startedSt startedSt st [] w seq hown hexec
      hown.used_refl hx hw hl
    exact ⟨st, w, perm, hx, himg⟩

end OsSuite.Xv6
