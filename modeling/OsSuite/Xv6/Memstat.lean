import OsSuite.Xv6.Steps
import OsSuite.Xv6.UserCopy

/-!
# Memstat — `sys_memstat`

The system call fills a `struct proc_mem_stat` on its kernel stack and
copies it out whole. The header and one entry for each page below `sz`
are written, for at most `MAX_PAGES_INFO` pages; the entries behind them
are what the stack held before. All fields have four bytes, so the
struct has no padding.
-/

namespace OsSuite.Xv6

/-! ## The report -/

inductive PageState where
  | unmapped | resident | swapped
  deriving DecidableEq, Repr

/-- `UNMAPPED`, `RESIDENT` and `SWAPPED` -/
def PageState.code : PageState → Int
  | .unmapped => 0
  | .resident => 1
  | .swapped => 2

/-- `struct page_stat`, as the loop fills it in. -/
structure PageStat where
  va : Nat
  state : PageState
  isDirty : Bool
  seq : Int
  swapSlot : Int
  deriving DecidableEq, Repr

/-- `MAX_PAGES_INFO` -/
def maxPagesInfo : Nat := 128

/-- The two searches of the loop body: the resident list first, then the
swapped one. -/
def Proc.pageStat (p : Proc) (va : Nat) : PageStat :=
  match p.residentIdx va with
  | some i => ⟨va, .resident, (p.residentPages i).dirty, (p.residentPages i).seq, -1⟩
  | none =>
      match p.swappedIdx va with
      | some i => ⟨va, .swapped, false, -1, (p.swappedPages i).slot⟩
      | none => ⟨va, .unmapped, false, -1, -1⟩

/-- The loop over the pages: the entries it fills in. -/
def Proc.fillPages (p : Proc) : Nat → Nat → List PageStat
  | 0, _ => []
  | n + 1, va => if va < p.sz then p.pageStat va :: p.fillPages n (va + 4096) else []

/-- `struct proc_mem_stat`, the entries that are filled in. -/
structure ProcMemStat where
  pid : Int
  numPagesTotal : Int
  numResidentPages : Int
  numSwappedPages : Int
  nextFifoSeq : Int
  pages : List PageStat

/-- What `sys_memstat` fills in. -/
def Proc.memStat (p : Proc) : ProcMemStat where
  pid := p.pid
  numPagesTotal := wrap32 (p.sz / 4096 : Nat)
  numResidentPages := p.numResident
  numSwappedPages := p.numSwapped
  nextFifoSeq := wrap32 (p.nextFifoSeq + 1)
  pages := p.fillPages maxPagesInfo 0

/-- A field of type `int` or `uint`. -/
def word32 (x : Int) : List UInt8 := bytesLe 4 (x % 4294967296).toNat

def PageStat.bytes (e : PageStat) : List UInt8 :=
  word32 e.va ++ word32 e.state.code ++ word32 (if e.isDirty then 1 else 0) ++ word32 e.seq ++
    word32 e.swapSlot

/-- The bytes that are filled in. -/
def ProcMemStat.filled (k : ProcMemStat) : List UInt8 :=
  word32 k.pid ++ word32 k.numPagesTotal ++ word32 k.numResidentPages ++
    word32 k.numSwappedPages ++ word32 k.nextFifoSeq ++ k.pages.flatMap PageStat.bytes

/-- `sizeof(struct proc_mem_stat)` -/
def sizeofMemStat : Nat := 20 + 20 * maxPagesInfo

/-- The bytes of `k_info`: behind those that are filled in, what the
kernel stack held. -/
def ProcMemStat.bytes (k : ProcMemStat) (stack : Nat → UInt8) : List UInt8 :=
  k.filled ++ (List.range (sizeofMemStat - k.filled.length)).map fun j => stack (k.filled.length + j)

/-- The bytes `sys_memstat` hands to `copyout`. -/
def St.memstatBytes (st : St) : List UInt8 := st.p.memStat.bytes st.sys.stack

/-- `sys_memstat()`, with the user's pointer. -/
def sysMemstat (infoPtr : Nat) : PProg Int := do
  let st ← Prog.get
  let r ← copyout st.p.pagetable infoPtr st.memstatBytes
  pure (if r.1 then 0 else -1)

/-! ## Sizes -/

@[simp] theorem length_word32 (x : Int) : (word32 x).length = 4 := by
  simp [word32, bytesLe]

@[simp] theorem PageStat.length_bytes (e : PageStat) : e.bytes.length = 20 := by
  simp [PageStat.bytes]

theorem length_flatMap_bytes (l : List PageStat) :
    (l.flatMap PageStat.bytes).length = 20 * l.length := by
  induction l with
  | nil => rfl
  | cons e l ih =>
      rw [List.flatMap_cons, List.length_append, ih, PageStat.length_bytes, List.length_cons]
      omega

theorem ProcMemStat.length_filled (k : ProcMemStat) : k.filled.length = 20 + 20 * k.pages.length := by
  simp only [ProcMemStat.filled, List.length_append, length_word32, length_flatMap_bytes]

/-- One entry for each page below `sz`, as long as there is room. -/
theorem Proc.length_fillPages (p : Proc) (n va : Nat) :
    (p.fillPages n va).length = min n ((p.sz - va + 4095) / 4096) := by
  induction n generalizing va with
  | zero => simp [Proc.fillPages]
  | succ n ih =>
      rw [Proc.fillPages]
      split
      · rw [List.length_cons, ih]
        omega
      · rw [List.length_nil]
        omega

theorem Proc.length_memStat (p : Proc) :
    p.memStat.filled.length = 20 + 20 * min maxPagesInfo ((p.sz + 4095) / 4096) := by
  rw [ProcMemStat.length_filled]
  show 20 + 20 * (p.fillPages maxPagesInfo 0).length = _
  rw [p.length_fillPages, Nat.sub_zero]

theorem St.length_memstatBytes (st : St) : st.memstatBytes.length = sizeofMemStat := by
  have h := st.p.length_memStat
  have hle : min maxPagesInfo ((st.p.sz + 4095) / 4096) ≤ maxPagesInfo := Nat.min_le_left _ _
  simp only [St.memstatBytes, ProcMemStat.bytes, List.length_append, List.length_map,
    List.length_range]
  unfold sizeofMemStat
  omega

/-! ## What the report depends on -/

/-- **The same paging state**: what `sys_memstat` reads of a process. -/
structure SamePaging (p q : Proc) : Prop where
  pid : p.pid = q.pid
  sz : p.sz = q.sz
  numResident : p.numResident = q.numResident
  numSwapped : p.numSwapped = q.numSwapped
  nextFifoSeq : p.nextFifoSeq = q.nextFifoSeq
  residentPages : p.residentPages = q.residentPages
  swappedPages : p.swappedPages = q.swappedPages

section
variable {p q : Proc}

theorem SamePaging.pageStat (h : SamePaging p q) (va : Nat) : p.pageStat va = q.pageStat va := by
  simp only [Proc.pageStat, Proc.residentIdx, Proc.swappedIdx, h.numResident, h.numSwapped,
    h.residentPages, h.swappedPages]

theorem SamePaging.memStat (h : SamePaging p q) : p.memStat = q.memStat := by
  have hfill : ∀ n va, p.fillPages n va = q.fillPages n va := by
    intro n
    induction n with
    | zero => exact fun _ => rfl
    | succ n ih => exact fun va => by rw [Proc.fillPages, Proc.fillPages, h.sz, h.pageStat, ih]
  simp only [Proc.memStat, h.pid, h.sz, h.numResident, h.numSwapped, h.nextFifoSeq, hfill]

/-- A full report has no bytes of the stack in it. -/
theorem bytes_of_full (h : 127 * 4096 < p.sz) (stack : Nat → UInt8) :
    p.memStat.bytes stack = p.memStat.filled := by
  have hlen := p.length_memStat
  have hfull : sizeofMemStat - p.memStat.filled.length = 0 := by
    unfold sizeofMemStat maxPagesInfo at *
    omega
  rw [ProcMemStat.bytes, hfull, List.range_zero, List.map_nil, List.append_nil]

/-- The last byte of any other report is one of the stack's. -/
theorem bytes_of_short (h : p.sz ≤ 127 * 4096) (stack : Nat → UInt8) :
    (p.memStat.bytes stack)[sizeofMemStat - 1]? = some (stack (sizeofMemStat - 1)) := by
  have hlen := p.length_memStat
  have hshort : p.memStat.filled.length ≤ sizeofMemStat - 1 := by
    unfold sizeofMemStat maxPagesInfo at *
    omega
  rw [ProcMemStat.bytes, List.getElem?_append_right hshort, List.getElem?_map,
    List.getElem?_range (by unfold sizeofMemStat maxPagesInfo at *; omega)]
  rw [Option.map_some, Nat.add_sub_cancel' hshort]

end

/-! ## A call that succeeds -/

section
variable {st : St} {root pa : Frame} {dstva : Nat} {src : List UInt8}

/-- `copyout` within one mapped, writable page. -/
theorem copyout_onePage {A : Event → Prop} (hsrc : src ≠ []) (hva : pgrounddown dstva < maxva)
    (hfit : dstva % 4096 + src.length ≤ 4096)
    (hpa : userPa st.sys.mem root (pgrounddown dstva) = some pa)
    (hw : (leaf st.sys.mem root (pgrounddown dstva)).perm.w = true) :
    wp A (copyout root dstva src) ⟨fun r _ => r = (true, []), fun _ => False, fun _ => False⟩ st := by
  obtain ⟨b, l, rfl⟩ := List.exists_cons_of_ne_nil hsrc
  have hdrop : (b :: l).drop (4096 - dstva % 4096) = [] := List.drop_eq_nil_of_le (by omega)
  unfold copyout
  rw [List.length_cons, copyoutLoop, if_neg (by simp), if_neg (by omega), wp_bind]
  unfold userFrame onSys
  rw [wp_bind, wp_zoom, wp_walkaddr, hpa]
  refine wp_pure.mpr (wp_get_bind.mpr ?_)
  dsimp only
  rw [if_pos hw, hdrop]
  unfold storeBytes
  rw [wp_bind, wp_zoom, wp_modify]
  -- nothing is left for a second round
  cases l.length with
  | zero => exact wp_pure.mpr rfl
  | succ n => exact wp_pure.mpr rfl

end

/-- A machine with one page table, which maps page 0 for reading and
writing; its kernel stack holds `stack`. -/
def reportSys (stack : Nat → UInt8) : Sys where
  kend := 524300
  tramp := 524290
  freelist := []
  held := []
  script := []
  mem f :=
    if f = 524301 then .ptes fun i => if i = 0 then Pte.table 524302 else Pte.zero
    else if f = 524302 then .ptes fun i => if i = 0 then Pte.table 524303 else Pte.zero
    else if f = 524303 then .ptes fun i =>
      if i = 0 then ⟨true, ⟨true, true, false, true⟩, 524304⟩ else Pte.zero
    else Cell.fill 0
  stack := stack
  fs := smallFs

/-- The process `p` on that machine. -/
def reportSt (p : Proc) (stack : Nat → UInt8) : St := ⟨reportSys stack, { p with pagetable := 524301 }⟩

theorem samePaging_reportSt (p : Proc) (stack : Nat → UInt8) : SamePaging (reportSt p stack).p p :=
  ⟨rfl, rfl, rfl, rfl, rfl, rfl, rfl⟩

theorem SamePaging.trans_symm {p q r : Proc} (h : SamePaging p r) (h' : SamePaging q r) :
    SamePaging p q :=
  ⟨h.pid.trans h'.pid.symm, h.sz.trans h'.sz.symm, h.numResident.trans h'.numResident.symm,
    h.numSwapped.trans h'.numSwapped.symm, h.nextFifoSeq.trans h'.nextFifoSeq.symm,
    h.residentPages.trans h'.residentPages.symm, h.swappedPages.trans h'.swappedPages.symm⟩

/-- The last byte of a short report on that machine. -/
theorem memstatBytes_reportSt {p : Proc} (h : p.sz ≤ 127 * 4096) (stack : Nat → UInt8) :
    (reportSt p stack).memstatBytes[sizeofMemStat - 1]? = some (stack (sizeofMemStat - 1)) := by
  unfold St.memstatBytes
  rw [(samePaging_reportSt p stack).memStat, bytes_of_short h]
  rfl

theorem sysMemstat_reportSt (p : Proc) (stack : Nat → UInt8) :
    ∃ st' w, sysMemstat 0 (reportSt p stack) = .ret 0 st' w := by
  have hlen := (reportSt p stack).length_memstatBytes
  have hrun : wp (fun _ => True) (sysMemstat 0) ⟨fun r _ => r = 0, fun _ => False, fun _ => False⟩
      (reportSt p stack) := by
    unfold sysMemstat
    rw [wp_get_bind]
    refine wp.bind (@copyout_onePage _ _ 524304 _ _ _ (fun h0 => ?_) (by decide) ?_ rfl rfl)
      fun r st' hr => ?_
    · rw [h0] at hlen
      exact absurd hlen (by decide)
    · rw [hlen]
      decide
    · subst hr
      exact wp_pure.mpr rfl
  obtain ⟨r, st', w, hx, rfl⟩ := hrun.exists_ret
  exact ⟨st', w, hx⟩

/-! ## Leaks -/

/-- The page has a valid mapping that user code can reach. -/
def St.UserMapped (st : St) (va : Nat) : Prop :=
  (leaf st.sys.mem st.p.pagetable va).v = true ∧ (leaf st.sys.mem st.p.pagetable va).perm.u = true

instance (st : St) (va : Nat) : Decidable (st.UserMapped va) :=
  inferInstanceAs (Decidable (_ ∧ _))

/-- The number of pages that cover `[0, sz)`. -/
def Proc.npages (p : Proc) : Nat := (p.sz + 4095) / 4096

/-- **The entry for the page `va` is true.** That the page's contents are
in a slot of the swap file is what `swapped_pages` records. -/
structure PageTruth (st : St) (e : PageStat) (va : Nat) : Prop where
  va_eq : e.va = va
  resident : e.state = .resident ↔ st.UserMapped va
  swapped : ∀ slot : Nat, e.state = .swapped ∧ e.swapSlot = slot ↔
    ¬ st.UserMapped va ∧ ⟨va, slot⟩ ∈ st.p.swapped
  unmapped : e.state = .unmapped ↔ ¬ st.UserMapped va ∧ ∀ slot, ⟨va, slot⟩ ∉ st.p.swapped

/-- **The report is true.** -/
structure Truthful (st : St) : Prop where
  total : st.p.memStat.numPagesTotal = st.p.npages
  pages : ∀ k, k < min st.p.npages maxPagesInfo →
    ∃ e, st.p.memStat.pages[k]? = some e ∧ PageTruth st e (4096 * k)
  residents : st.p.npages ≤ maxPagesInfo →
    (st.p.memStat.pages.countP (·.state = .resident) : Int) = st.p.memStat.numResidentPages
  swapped : st.p.npages ≤ maxPagesInfo →
    (st.p.memStat.pages.countP (·.state = .swapped) : Int) = st.p.memStat.numSwappedPages

/-- One of the pages that are reported. -/
def Proc.Reported (p : Proc) (va : Nat) : Prop :=
  va % 4096 = 0 ∧ va < p.sz ∧ va < 4096 * maxPagesInfo

/-- **The tables are in step with the page table**: `sz` is a number of
pages, the resident list has the user pages among the first ones, and no
page has two slots; and when the whole process is reported, the lists
have every page at most once and none beyond `sz`. -/
structure InStep (st : St) : Prop where
  aligned : st.p.sz % 4096 = 0
  small : st.p.sz < 2 ^ 43
  resident : ∀ va, st.p.Reported va → (va ∈ st.p.residents.map (·.va) ↔ st.UserMapped va)
  slot : ∀ va, st.p.Reported va → ¬ st.UserMapped va → ∀ i j, ⟨va, i⟩ ∈ st.p.swapped →
    ⟨va, j⟩ ∈ st.p.swapped → i = j
  residents : st.p.npages ≤ maxPagesInfo → 0 ≤ st.p.numResident ∧
    (st.p.residents.map (·.va)).Nodup ∧ ∀ va ∈ st.p.residents.map (·.va), st.p.Reported va
  swapped : st.p.npages ≤ maxPagesInfo → (st.p.swapped.map (·.va)).Nodup ∧
    ∀ va ∈ st.p.swapped.map (·.va), st.p.Reported va ∧ va ∉ st.p.residents.map (·.va)

section
variable {p : Proc} {st : St}

/-- The entries, by page number. -/
theorem Proc.fillPages_eq (p : Proc) (n va : Nat) : p.fillPages n va =
    (List.range (min n ((p.sz - va + 4095) / 4096))).map fun k => p.pageStat (va + 4096 * k) := by
  induction n generalizing va with
  | zero => simp [Proc.fillPages]
  | succ n ih =>
      rw [Proc.fillPages]
      split
      · rw [ih, show min (n + 1) ((p.sz - va + 4095) / 4096)
          = min n ((p.sz - (va + 4096) + 4095) / 4096) + 1 by omega, List.range_succ_eq_map,
          List.map_cons, List.map_map, Nat.mul_zero, Nat.add_zero]
        congr 1
        refine List.map_congr_left fun k _ => ?_
        show p.pageStat _ = p.pageStat (va + 4096 * (k + 1))
        rw [show va + 4096 + 4096 * k = va + 4096 * (k + 1) by omega]
      · rw [show min (n + 1) ((p.sz - va + 4095) / 4096) = 0 by omega, List.range_zero, List.map_nil]

theorem Proc.memStat_pages (p : Proc) : p.memStat.pages =
    (List.range (min maxPagesInfo p.npages)).map fun k => p.pageStat (4096 * k) := by
  show p.fillPages maxPagesInfo 0 = _
  rw [p.fillPages_eq]
  simp only [Nat.sub_zero, Nat.zero_add]
  rfl

theorem pageStat_va (p : Proc) (va : Nat) : (p.pageStat va).va = va := by
  unfold Proc.pageStat
  split
  · rfl
  · split <;> rfl

/-- A page is reported as resident if the resident list has it. -/
theorem pageStat_resident {va : Nat} :
    (p.pageStat va).state = .resident ↔ va ∈ p.residents.map (·.va) := by
  have hnone := @residentIdx_none p va
  unfold Proc.pageStat
  split
  · rename_i i hi
    refine ⟨fun _ => ?_, fun _ => rfl⟩
    obtain ⟨hlt, hva⟩ := residentIdx_some hi
    exact List.mem_map.mpr ⟨_, Table.mem_live.mpr ⟨i, hlt, rfl⟩, hva⟩
  · rename_i hi
    have hno : va ∉ p.residents.map (·.va) := by
      rintro hm
      obtain ⟨e, he, hva⟩ := List.mem_map.mp hm
      exact hnone.mp hi e he hva
    split <;> simp [hno]

/-- As swapped, if only the swapped list has it. -/
theorem pageStat_swapped {va : Nat} : (p.pageStat va).state = .swapped ↔
    va ∉ p.residents.map (·.va) ∧ va ∈ p.swapped.map (·.va) := by
  have hres := @pageStat_resident p va
  by_cases hr : va ∈ p.residents.map (·.va)
  · rw [hres.mpr hr]
    simp [hr]
  · have hi : p.residentIdx va = none := by
      rw [residentIdx_none]
      rintro e he rfl
      exact hr (List.mem_map_of_mem he)
    simp only [Proc.pageStat, hi, hr, not_false_eq_true, true_and]
    split
    · rename_i i hs
      obtain ⟨hm, hva⟩ := swappedIdx_some hs
      exact ⟨fun _ => List.mem_map.mpr ⟨_, hm, hva⟩, fun _ => rfl⟩
    · rename_i hs
      refine ⟨nofun, fun hm => ?_⟩
      obtain ⟨e, he, hva⟩ := List.mem_map.mp hm
      exact absurd hva (swappedIdx_none.mp hs e he)

theorem pageStat_slot {va : Nat} (h : (p.pageStat va).state = .swapped) :
    ∃ slot : Nat, (p.pageStat va).swapSlot = slot ∧ ⟨va, slot⟩ ∈ p.swapped := by
  unfold Proc.pageStat at h ⊢
  split at h
  · cases h
  · split at h
    · rename_i i hs
      obtain ⟨hm, hva⟩ := swappedIdx_some hs
      refine ⟨(p.swappedPages i).slot, rfl, ?_⟩
      rw [← hva]
      exact hm
    · cases h

theorem mem_swapped_va {va : Nat} :
    va ∈ p.swapped.map (·.va) ↔ ∃ slot, ⟨va, slot⟩ ∈ p.swapped := by
  rw [List.mem_map]
  constructor
  · rintro ⟨⟨v, slot⟩, he, rfl⟩
    exact ⟨slot, he⟩
  · rintro ⟨slot, he⟩
    exact ⟨_, he, rfl⟩

/-- **One entry is true** exactly if the resident list is right about the
page and its slot is unique. -/
theorem pageTruth_iff {va : Nat} : PageTruth st (st.p.pageStat va) va ↔
    (va ∈ st.p.residents.map (·.va) ↔ st.UserMapped va) ∧
      (¬ st.UserMapped va → ∀ i j, ⟨va, i⟩ ∈ st.p.swapped → ⟨va, j⟩ ∈ st.p.swapped → i = j) := by
  constructor
  · intro h
    have hres := pageStat_resident.symm.trans h.resident
    refine ⟨hres, fun hn i j hi hj => ?_⟩
    have h₁ := ((h.swapped i).mpr ⟨hn, hi⟩).2
    have h₂ := ((h.swapped j).mpr ⟨hn, hj⟩).2
    exact Int.ofNat_inj.mp (h₁.symm.trans h₂)
  · rintro ⟨hres, huniq⟩
    have hsw := @pageStat_swapped st.p va
    rw [hres, mem_swapped_va] at hsw
    refine ⟨pageStat_va _ _, pageStat_resident.trans hres, fun slot => ⟨?_, ?_⟩, ?_⟩
    · rintro ⟨hst, hslot⟩
      obtain ⟨s, hs, hm⟩ := pageStat_slot hst
      rw [hs, Int.ofNat_inj] at hslot
      exact ⟨(hsw.mp hst).1, hslot ▸ hm⟩
    · rintro ⟨hn, hm⟩
      have hst := hsw.mpr ⟨hn, slot, hm⟩
      obtain ⟨s, hs, hm'⟩ := pageStat_slot hst
      exact ⟨hst, by rw [hs, huniq hn s slot hm' hm]⟩
    · -- the third state is neither of the other two
      have hthree : (st.p.pageStat va).state = .unmapped ↔
          (st.p.pageStat va).state ≠ .resident ∧ (st.p.pageStat va).state ≠ .swapped := by
        cases (st.p.pageStat va).state <;> simp
      rw [hthree, Ne, Ne, pageStat_resident, hres, hsw]
      constructor
      · rintro ⟨hn, hs⟩
        exact ⟨hn, fun slot hm => hs ⟨hn, slot, hm⟩⟩
      · rintro ⟨hn, hs⟩
        exact ⟨hn, fun hc => hc.2.elim fun slot hm => hs slot hm⟩

/-- **Counting**: as many of the first `n` pages are in a list and satisfy
`P` as the list has entries, exactly if the list has no page twice and
only such pages. -/
theorem countP_pages_iff {P : Nat → Prop} [DecidablePred P] {l : List Nat} {n : Nat} :
    (List.range n).countP (fun k => P (4096 * k) ∧ 4096 * k ∈ l) = l.length ↔
      l.Nodup ∧ ∀ va ∈ l, (va % 4096 = 0 ∧ va < 4096 * n) ∧ P va := by
  have hinj : Function.Injective fun k : Nat => 4096 * k := fun a b h => by simpa using h
  -- the pages that are counted
  have hmem : ∀ va, va ∈ ((List.range n).map (4096 * ·)).filter (fun va => P va ∧ va ∈ l) ↔
      (va % 4096 = 0 ∧ va < 4096 * n) ∧ P va ∧ va ∈ l := by
    intro va
    simp only [List.mem_filter, List.mem_map, List.mem_range, decide_eq_true_eq]
    refine and_congr_left fun _ => ⟨?_, fun h => ⟨va / 4096, by omega, by omega⟩⟩
    rintro ⟨k, hk, rfl⟩
    omega
  have hnd : (((List.range n).map (4096 * ·)).filter (fun va => P va ∧ va ∈ l)).Nodup :=
    (List.nodup_range.map hinj).filter _
  have hsub : ((List.range n).map (4096 * ·)).filter (fun va => P va ∧ va ∈ l) ⊆ l :=
    fun va hva => ((hmem va).mp hva).2.2
  have hlen : (List.range n).countP (fun k => P (4096 * k) ∧ 4096 * k ∈ l)
      = (((List.range n).map (4096 * ·)).filter (fun va => P va ∧ va ∈ l)).length := by
    rw [← List.countP_eq_length_filter, List.countP_map]
    rfl
  rw [hlen]
  constructor
  · intro h
    have hperm := (hnd.subperm hsub).perm_of_length_le (Nat.le_of_eq h.symm)
    refine ⟨hperm.nodup_iff.mp hnd, fun va hva => ?_⟩
    obtain ⟨h₁, h₂, -⟩ := (hmem va).mp (hperm.mem_iff.mpr hva)
    exact ⟨h₁, h₂⟩
  · rintro ⟨hnd', h⟩
    exact ((List.perm_ext_iff_of_nodup hnd hnd').mpr fun va =>
      ⟨fun hva => hsub hva, fun hva => (hmem va).mpr ⟨(h va hva).1, (h va hva).2, hva⟩⟩).length_eq

theorem reported_iff {va : Nat} (h : p.npages ≤ maxPagesInfo) :
    p.Reported va ↔ va % 4096 = 0 ∧ va < 4096 * p.npages := by
  unfold Proc.Reported Proc.npages at *
  omega

/-- The counts of the report. -/
theorem countP_memStat {s : PageState} (h : p.npages ≤ maxPagesInfo) :
    p.memStat.pages.countP (·.state = s) =
      (List.range p.npages).countP fun k => (p.pageStat (4096 * k)).state = s := by
  rw [p.memStat_pages, Nat.min_eq_right h, List.countP_map]
  rfl

theorem count_resident_iff (h : p.npages ≤ maxPagesInfo) :
    (p.memStat.pages.countP (·.state = .resident) : Int) = p.memStat.numResidentPages ↔
      0 ≤ p.numResident ∧ (p.residents.map (·.va)).Nodup ∧
        ∀ va ∈ p.residents.map (·.va), p.Reported va := by
  have hlen : (p.residents.map (·.va)).length = p.numResident.toNat := by
    rw [List.length_map, Proc.residents, Table.length_live]
  have hcount := countP_pages_iff (P := fun _ => True) (l := p.residents.map (·.va)) (n := p.npages)
  simp only [true_and, and_true, hlen] at hcount
  simp only [reported_iff h, ← hcount, countP_memStat h, pageStat_resident]
  show (_ : Int) = p.numResident ↔ _
  omega

theorem count_swapped_iff (h : p.npages ≤ maxPagesInfo) :
    (p.memStat.pages.countP (·.state = .swapped) : Int) = p.memStat.numSwappedPages ↔
      (p.swapped.map (·.va)).Nodup ∧
        ∀ va ∈ p.swapped.map (·.va), p.Reported va ∧ va ∉ p.residents.map (·.va) := by
  have hlen : (p.swapped.map (·.va)).length = p.numSwapped := by
    rw [List.length_map, Proc.swapped, Table.length_live]
  have hcount := countP_pages_iff (P := fun va => va ∉ p.residents.map (·.va))
    (l := p.swapped.map (·.va)) (n := p.npages)
  rw [hlen] at hcount
  simp only [reported_iff h, ← hcount, countP_memStat h, pageStat_swapped]
  show (_ : Int) = (p.numSwapped : Int) ↔ _
  omega

theorem total_iff : p.memStat.numPagesTotal = p.npages ↔ p.sz % 4096 = 0 ∧ p.sz < 2 ^ 43 := by
  show wrap32 (p.sz / 4096 : Nat) = _ ↔ _
  unfold wrap32 Proc.npages
  omega

end

end OsSuite.Xv6
