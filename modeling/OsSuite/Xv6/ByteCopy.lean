import OsSuite.Xv6.PageMap
import OsSuite.Xv6.UserCopy

/-!
# ByteCopy — a page at a time is a byte at a time

`copyin` and `copyout` look an address up once per page and move what
lies on the page at once. `pipewrite` and `piperead` call them for one
byte. Where every page of the range is mapped the two come to the same,
for any alignment and length: each byte is where its OWN address
translates to (`copyin_eq`, `copyinEach_eq`), and `copyout` leaves the
memory of one store after the other (`copyout_eq`, `copyoutEach_eq`).

Nothing is assumed about which frames the pages share. All addresses lie
below `MAXVA`, so no sum of the loops wraps.
-/

namespace OsSuite.Xv6

/-! ## One byte at a time -/

/-- The copies of `pipewrite`: `copyin(pr->pagetable, &ch, addr + i, 1)`. -/
def copyinEach (root : Frame) : Nat → Nat → PProg (Bool × List UInt8)
  | _, 0 => pure (true, [])
  | addr, n + 1 => do
      let r ← copyin root addr 1
      if r.1 then do
        let r' ← copyinEach root (addr + 1) n
        pure (r'.1, r.2 ++ r'.2)
      else pure (false, [])

/-- The copies of `piperead`: `copyout(pr->pagetable, addr + i, &ch, 1)`. -/
def copyoutEach (root : Frame) : Nat → List UInt8 → PProg (Bool × List UInt8)
  | _, [] => pure (true, [])
  | addr, ch :: src => do
      let r ← copyout root addr [ch]
      if r.1 then copyoutEach root (addr + 1) src else pure (false, ch :: src)

/-! ## Translation -/

/-- A byte of physical memory. -/
abbrev Place := Frame × Fin 4096

/-- Where the address `va` is. -/
def translate (m : Mem) (root : Frame) (va : Nat) : Place := ((leaf m root va).pa, pgoff va)

def byteAt (m : Mem) (x : Place) : UInt8 := (m x.1).page x.2

/-- The bytes of a range, each one at the place of its own address. -/
def bytesOf (m : Mem) (root : Frame) (va len : Nat) : List UInt8 :=
  (List.range len).map fun i => byteAt m (translate m root (va + i))

/-- A user page is mapped at `va`. -/
structure UserPage (m : Mem) (root : Frame) (va : Nat) : Prop where
  below : va < maxva
  valid : (leaf m root va).v = true
  user : (leaf m root va).perm.u = true
  /-- There is no RAM at 0; `walkaddr` returns 0 for a page that is not
  mapped. -/
  ram : (leaf m root va).pa ≠ 0

/-- The user may write to the page at `va`, and it is none of the tables. -/
structure UserDataPage (m : Mem) (root : Frame) (va : Nat) : Prop extends UserPage m root va where
  writable : (leaf m root va).perm.w = true
  data : Unlinked m root (leaf m root va).pa

section
variable {root : Frame} {m : Mem} {va va' len : Nat} {st : St}

theorem bytesOf_add (n k : Nat) :
    bytesOf m root va (n + k) = bytesOf m root va n ++ bytesOf m root (va + n) k := by
  unfold bytesOf
  rw [List.range_add, List.map_append, List.map_map]
  congr 1
  refine List.map_congr_left fun i _ => ?_
  show byteAt m (translate m root (va + (n + i))) = _
  rw [Nat.add_assoc]

theorem pgrounddown_add {n : Nat} (h : va % 4096 + n < 4096) : pgrounddown (va + n) = pgrounddown va := by
  unfold pgrounddown
  omega

/-- Addresses on one page have one entry. -/
theorem leaf_add {n : Nat} (h : va % 4096 + n < 4096) : leaf m root (va + n) = leaf m root va := by
  rw [← leaf_pgrounddown, pgrounddown_add h, leaf_pgrounddown]

theorem UserPage.userPa (h : UserPage m root va) :
    userPa m root (pgrounddown va) = some (leaf m root va).pa := by
  unfold Xv6.userPa
  rw [leaf_pgrounddown, if_pos ⟨(pgrounddown_le va).trans_lt h.below, h.valid, h.user⟩]

/-- The part of a page that one round copies. -/
theorem bytesOf_page {n : Nat} (h : va % 4096 + n ≤ 4096) :
    bytesOf m root va n = (List.range n).map fun i => (m (leaf m root va).pa).page (pgoff (va + i)) := by
  refine List.map_congr_left fun i hi => ?_
  have hi := List.mem_range.mp hi
  unfold byteAt translate
  rw [leaf_add (by omega)]

/-! ## `copyin` -/

/-- **The loop of `copyin`.** A round ends with its page, or with the
range. -/
theorem copyinLoop_eq {fuel : Nat} (got : List UInt8) (hfuel : len ≤ fuel)
    (h : ∀ i < len, UserPage st.sys.mem root (va + i)) :
    copyinLoop root fuel va len got st =
      .ret (true, (bytesOf st.sys.mem root va len).reverse ++ got) st [] := by
  induction fuel generalizing va len got with
  | zero =>
      obtain rfl : len = 0 := by omega
      rfl
  | succ fuel ih =>
      unfold copyinLoop
      by_cases h0 : len = 0
      · subst h0
        rfl
      · have hpage := h 0 (by omega)
        rw [Nat.add_zero] at hpage
        rw [if_neg h0, Prog.bind_ret (userFrame_run hpage.userPa), Out.after_nil]
        dsimp only
        rw [Prog.get_bind]
        generalize hn : min (4096 - va % 4096) len = n
        have hmod : va % 4096 < 4096 := Nat.mod_lt _ (by decide)
        have hsplit : bytesOf st.sys.mem root va len =
            bytesOf st.sys.mem root va n ++ bytesOf st.sys.mem root (va + n) (len - n) := by
          rw [← bytesOf_add, Nat.add_sub_cancel' (by omega)]
        rw [← bytesOf_page (by omega), hsplit, List.reverse_append, List.append_assoc]
        by_cases hend : len - n = 0
        · rw [hend, ih _ (Nat.zero_le _) fun i hi => absurd hi (Nat.not_lt_zero i)]
          rfl
        · have hnext : pgrounddown va + 4096 = va + n := by
            unfold pgrounddown
            omega
          rw [hnext, ih _ (by omega)]
          intro i hi
          rw [Nat.add_assoc]
          exact h _ (by omega)

theorem copyin_eq (h : ∀ i < len, UserPage st.sys.mem root (va + i)) :
    copyin root va len st = .ret (true, bytesOf st.sys.mem root va len) st [] := by
  unfold copyin
  rw [Prog.bind_ret (copyinLoop_eq [] (Nat.le_refl len) h), List.append_nil]
  show Out.ret (true, (bytesOf st.sys.mem root va len).reverse.reverse) st [] = _
  rw [List.reverse_reverse]

theorem copyinEach_eq (h : ∀ i < len, UserPage st.sys.mem root (va + i)) :
    copyinEach root va len st = .ret (true, bytesOf st.sys.mem root va len) st [] := by
  induction len generalizing va with
  | zero => rfl
  | succ n ih =>
      have hfirst : copyin root va 1 st = .ret (true, bytesOf st.sys.mem root va 1) st [] :=
        copyin_eq fun i hi => h i (by omega)
      have hrest := @ih (va + 1) fun i hi => by
        rw [Nat.add_assoc, Nat.add_comm 1]
        exact h _ (by omega)
      unfold copyinEach
      rw [Prog.bind_ret hfirst, Out.after_nil, if_pos rfl, Prog.bind_ret hrest, Nat.add_comm n,
        bytesOf_add]
      rfl

end

/-! ## Stores, one after the other -/

/-- Store one byte. -/
def Sys.poke (s : Sys) (x : Place) (b : UInt8) : Sys :=
  s.setCell x.1 (.bytes (Function.update (s.mem x.1).page x.2 b))

/-- Store the bytes `src` from `va` on, each one at the place of its own
address. -/
def Sys.pokes (root : Frame) (s : Sys) : Nat → List UInt8 → Sys
  | _, [] => s
  | va, b :: src => (s.poke (translate s.mem root va) b).pokes root (va + 1) src

/-- **What a store to a range does.** `frame`: nothing else changes.
`stored`: a byte is there, unless a later address of the range has the
same place. -/
structure Stored (root : Frame) (s : Sys) (va : Nat) (src : List UInt8) (s' : Sys) : Prop where
  rest : s' = { s with mem := s'.mem }
  leaf : ∀ a, leaf s'.mem root a = leaf s.mem root a
  frame : ∀ x, (∀ i < src.length, x ≠ translate s.mem root (va + i)) → byteAt s'.mem x = byteAt s.mem x
  stored : ∀ i (hi : i < src.length),
    (∀ j, i < j → j < src.length → translate s.mem root (va + i) ≠ translate s.mem root (va + j)) →
    byteAt s'.mem (translate s.mem root (va + i)) = src[i]

section
variable {root : Frame} {s s' : Sys} {va : Nat} {x : Place} {b : UInt8} {src : List UInt8} {st : St}

theorem byteAt_poke_self : byteAt (s.poke x b).mem x = b := by
  simp [byteAt, Sys.poke, Sys.setCell, Cell.page]

theorem byteAt_poke_of_ne {y : Place} (h : y ≠ x) : byteAt (s.poke x b).mem y = byteAt s.mem y := by
  unfold byteAt Sys.poke Sys.setCell
  by_cases hf : y.1 = x.1
  · have ho : y.2 ≠ x.2 := fun ho => h (Prod.ext hf ho)
    simp [hf, Cell.page, ho]
  · simp [hf]

/-- A store that is not to a table changes no table. -/
theorem mem_poke (hx : Unlinked s.mem root x.1) (p : Spot) (t : Frame)
    (ht : tableAt s.mem root p = some t) : (s.poke x b).mem t = s.mem t := by
  refine Function.update_of_ne (fun he => ?_) _ _
  rw [he] at ht
  exact hx p ht

theorem leaf_poke (hx : Unlinked s.mem root x.1) (a : Nat) :
    leaf (s.poke x b).mem root a = leaf s.mem root a := leaf_congr (mem_poke hx) a

theorem translate_poke (hx : Unlinked s.mem root x.1) (a : Nat) :
    translate (s.poke x b).mem root a = translate s.mem root a := by
  unfold translate
  rw [leaf_poke hx]

theorem UserDataPage.poke (h : UserDataPage s.mem root va) (hx : Unlinked s.mem root x.1) :
    UserDataPage (s.poke x b).mem root va := by
  have hl := leaf_poke (b := b) hx va
  refine ⟨⟨h.below, ?_, ?_, ?_⟩, ?_, fun p => ?_⟩
  · rw [hl]; exact h.valid
  · rw [hl]; exact h.user
  · rw [hl]; exact h.ram
  · rw [hl]; exact h.writable
  · rw [hl, tableAt_congr fun p t _ => mem_poke hx p t]
    exact h.data p

/-- The rest of a range, after the first byte. -/
theorem UserDataPage.tail (h : ∀ i < src.length + 1, UserDataPage s.mem root (va + i)) :
    ∀ i < src.length, UserDataPage (s.poke (translate s.mem root va) b).mem root (va + 1 + i) := by
  intro i hi
  have hi' := h (i + 1) (by omega)
  rw [show va + (i + 1) = va + 1 + i by omega] at hi'
  exact hi'.poke (h 0 (Nat.succ_pos _)).data

/-- The stores of a range, by induction over its bytes. -/
theorem stored_pokes (h : ∀ i < src.length, UserDataPage s.mem root (va + i)) :
    Stored root s va src (s.pokes root va src) := by
  induction src generalizing s va with
  | nil => exact ⟨rfl, fun _ => rfl, fun _ _ => rfl, fun i hi => absurd hi (Nat.not_lt_zero i)⟩
  | cons b src ih =>
      have hx : Unlinked s.mem root (translate s.mem root va).1 := (h 0 (Nat.succ_pos _)).data
      have hlater := ih (UserDataPage.tail (b := b) h)
      have htr : ∀ i, translate (s.poke (translate s.mem root va) b).mem root (va + 1 + i) =
          translate s.mem root (va + (i + 1)) := fun i => by
        rw [translate_poke hx, show va + 1 + i = va + (i + 1) by omega]
      refine ⟨?_, fun a => ?_, fun y hy => ?_, fun i hi hlast => ?_⟩
      · exact hlater.rest
      · exact (hlater.leaf a).trans (leaf_poke hx a)
      · refine (hlater.frame y fun i hi => ?_).trans (byteAt_poke_of_ne (hy 0 (Nat.succ_pos _)))
        rw [htr]
        exact hy _ (Nat.succ_lt_succ hi)
      · cases i with
        | zero =>
            refine (hlater.frame _ fun j hj => ?_).trans byteAt_poke_self
            rw [htr]
            exact hlast _ (Nat.succ_pos j) (Nat.succ_lt_succ hj)
        | succ i =>
            have hstored := hlater.stored i (Nat.lt_of_succ_lt_succ hi) fun j hj hj' => by
              rw [htr, htr]
              exact hlast _ (Nat.succ_lt_succ hj) (Nat.succ_lt_succ hj')
            rw [htr] at hstored
            exact hstored

/-- What was a user page before the stores still is one. -/
theorem UserDataPage.pokes (h : ∀ i < src.length, UserDataPage s.mem root (va + i)) {a : Nat}
    (ha : UserDataPage s.mem root a) : UserDataPage (s.pokes root va src).mem root a := by
  induction src generalizing s va with
  | nil => exact ha
  | cons b src ih => exact ih (UserDataPage.tail h) (ha.poke (h 0 (Nat.succ_pos _)).data)

theorem pokes_append (l l' : List UInt8) :
    s.pokes root va (l ++ l') = (s.pokes root va l).pokes root (va + l.length) l' := by
  induction l generalizing s va with
  | nil => rfl
  | cons b l ih =>
      show Sys.pokes root _ (va + 1) (l ++ l') = _
      rw [ih, List.length_cons, Nat.add_assoc, Nat.add_comm 1]
      rfl

/-- Stores to one page are one `memmove`. -/
theorem pokes_page {l : List UInt8} (hl : l ≠ []) (hlen : va % 4096 + l.length ≤ 4096)
    (h : UserDataPage s.mem root va) :
    s.pokes root va l = s.setCell (leaf s.mem root va).pa
      (.bytes ((s.mem (leaf s.mem root va).pa).page.patch (va % 4096) l)) := by
  induction l generalizing s va with
  | nil => exact absurd rfl hl
  | cons b l ih =>
      rw [List.length_cons] at hlen
      rw [← Page.patch_cons]
      by_cases hnil : l = []
      · subst hnil
        rw [Page.patch_nil]
        rfl
      · have hpos : 0 < l.length := List.length_pos_iff.mpr hnil
        have hx : Unlinked s.mem root (translate s.mem root va).1 := h.data
        have hmod : (va + 1) % 4096 = va % 4096 + 1 := by omega
        have hsame : leaf s.mem root (va + 1) = leaf s.mem root va := leaf_add (by omega)
        have hnext : UserDataPage s.mem root (va + 1) := by
          refine ⟨⟨?_, ?_, ?_, ?_⟩, ?_, ?_⟩
          · have := h.below
            unfold maxva at *
            omega
          · rw [hsame]; exact h.valid
          · rw [hsame]; exact h.user
          · rw [hsame]; exact h.ram
          · rw [hsame]; exact h.writable
          · rw [hsame]; exact h.data
        show Sys.pokes root _ (va + 1) l = _
        rw [ih hnil (by omega) (hnext.poke hx), leaf_poke hx, hsame, hmod]
        simp [Sys.poke, Sys.setCell, translate, Cell.page]

/-! ## `copyout` -/

/-- **The loop of `copyout`.** -/
theorem copyoutLoop_eq {fuel : Nat} (hfuel : src.length ≤ fuel)
    (h : ∀ i < src.length, UserDataPage st.sys.mem root (va + i)) :
    copyoutLoop root fuel va src st =
      .ret (true, []) { st with sys := st.sys.pokes root va src } [] := by
  induction fuel generalizing va src st with
  | zero =>
      obtain rfl : src = [] := List.length_eq_zero_iff.mp (by omega)
      rfl
  | succ fuel ih =>
      unfold copyoutLoop
      by_cases h0 : src = []
      · subst h0
        rfl
      · have hpos : 0 < src.length := List.length_pos_iff.mpr h0
        have hpage := h 0 hpos
        rw [Nat.add_zero] at hpage
        have hle := pgrounddown_le va
        have hbelow := hpage.below
        have hw : (leaf st.sys.mem root (pgrounddown va)).perm.w = true := by
          rw [leaf_pgrounddown]
          exact hpage.writable
        rw [if_neg (by rwa [List.isEmpty_iff]), if_neg (by omega),
          Prog.bind_ret (userFrame_run hpage.toUserPage.userPa), Out.after_nil]
        dsimp only
        rw [Prog.get_bind, if_pos hw]
        generalize hn : 4096 - va % 4096 = n
        have hmod : va % 4096 < 4096 := Nat.mod_lt _ (by decide)
        have htake : (src.take n).length ≤ n := List.length_take_le n src
        have hput : st.sys.pokes root va (src.take n) = st.sys.setCell (leaf st.sys.mem root va).pa
            (.bytes ((st.sys.mem (leaf st.sys.mem root va).pa).page.patch (va % 4096) (src.take n))) := by
          refine pokes_page (fun hc => ?_) (by omega) hpage
          have := congrArg List.length hc
          rw [List.length_take, List.length_nil] at this
          omega
        have hstore : onSys (storeBytes (leaf st.sys.mem root va).pa (va % 4096) (src.take n)) st =
            .ret () { st with sys := st.sys.pokes root va (src.take n) } [] := by
          rw [hput]
          rfl
        rw [Prog.bind_ret hstore, Out.after_nil]
        have hall : src.take n ++ src.drop n = src := List.take_append_drop n src
        have hlen : (src.drop n).length = src.length - n := List.length_drop
        -- either the page is used up, or nothing is left to copy
        by_cases hend : src.length ≤ n
        · rw [List.take_of_length_le hend, List.drop_eq_nil_of_le hend, ih (Nat.zero_le _)]
          · rfl
          · intro i hi
            exact absurd hi (Nat.not_lt_zero i)
        · have hlen' : (src.take n).length = n := List.length_take_of_le (by omega)
          have hnext : pgrounddown va + 4096 = va + (src.take n).length := by
            unfold pgrounddown
            omega
          rw [hnext, ih (by omega)]
          · dsimp only
            rw [← pokes_append, hall]
          · intro i hi
            rw [Nat.add_assoc]
            refine UserDataPage.pokes (fun j hj => h j (by omega)) (h _ (by omega))

theorem copyout_eq (h : ∀ i < src.length, UserDataPage st.sys.mem root (va + i)) :
    copyout root va src st = .ret (true, []) { st with sys := st.sys.pokes root va src } [] :=
  copyoutLoop_eq (Nat.le_refl _) h

theorem copyoutEach_eq (h : ∀ i < src.length, UserDataPage st.sys.mem root (va + i)) :
    copyoutEach root va src st = .ret (true, []) { st with sys := st.sys.pokes root va src } [] := by
  induction src generalizing va st with
  | nil => rfl
  | cons b src ih =>
      have hfirst : copyout root va [b] st =
          .ret (true, []) { st with sys := st.sys.poke (translate st.sys.mem root va) b } [] :=
        copyout_eq fun i hi => h i (Nat.lt_of_lt_of_le hi (Nat.succ_le_succ (Nat.zero_le _)))
      unfold copyoutEach
      rw [Prog.bind_ret hfirst, Out.after_nil, if_pos rfl, ih (UserDataPage.tail h)]
      rfl

end

/-! ## Both directions -/

/-- **A PAGE AT A TIME IS A BYTE AT A TIME.** `copyin` of a range of user
pages returns 0 and delivers `len` bytes, each from where its address
translates to, as one call for every byte does. `copyout` to a range of
writable pages returns 0 and changes the bytes of the range and nothing
else, as one call for every byte does. -/
theorem copy_bytewise (root : Frame) (st : St) :
    (∀ srcva len, (∀ i < len, UserPage st.sys.mem root (srcva + i)) →
      copyin root srcva len st = .ret (true, bytesOf st.sys.mem root srcva len) st [] ∧
      copyinEach root srcva len st = copyin root srcva len st) ∧
    ∀ dstva src, (∀ i < src.length, UserDataPage st.sys.mem root (dstva + i)) →
      ∃ s', Stored root st.sys dstva src s' ∧
        copyout root dstva src st = .ret (true, []) { st with sys := s' } [] ∧
        copyoutEach root dstva src st = copyout root dstva src st := by
  constructor
  · intro srcva len h
    rw [copyin_eq h, copyinEach_eq h]
    exact ⟨rfl, rfl⟩
  · intro dstva src h
    refine ⟨_, stored_pokes h, copyout_eq h, ?_⟩
    rw [copyout_eq h, copyoutEach_eq h]

/-- A machine with a process of two pages, at 524304 and 524305. -/
def twoPages : St where
  sys := { bareSys with
    freelist := []
    mem := fun f =>
      if f = 524301 then .ptes fun i => if i = 0 then Pte.table 524302 else Pte.zero
      else if f = 524302 then .ptes fun i => if i = 0 then Pte.table 524303 else Pte.zero
      else if f = 524303 then .ptes fun i =>
        if i < 2 then ⟨true, ⟨true, true, false, true⟩, 524304 + i⟩ else Pte.zero
      else Cell.fill (UInt8.ofNat (f % 16)) }
  p := { Proc.zero with pagetable := 524301, sz := 8192 }

theorem tableAt_twoPages {p : Spot} {t : Frame} (h : tableAt twoPages.sys.mem 524301 p = some t) :
    t < 524304 := by
  have h₁ : ∀ i t, child twoPages.sys.mem 524301 i = some t → t = 524302 := by
    intro i t ht
    obtain ⟨-, hv, rfl⟩ := child_eq_some.mp ht
    simp only [twoPages, if_true, Cell.pte] at hv ⊢
    split at hv
    · rename_i hi
      rw [if_pos hi]
      rfl
    · cases hv
  cases p with
  | top =>
      cases h
      decide
  | mid i =>
      rw [h₁ i t h]
      decide
  | low i j =>
      obtain ⟨u, hu, ht⟩ := Option.bind_eq_some_iff.mp h
      obtain rfl := h₁ i u hu
      obtain ⟨-, hv, rfl⟩ := child_eq_some.mp ht
      simp only [twoPages, Nat.reduceEqDiff, if_false, if_true, Cell.pte] at hv ⊢
      split at hv
      · rename_i hi
        rw [if_pos hi]
        decide
      · cases hv

theorem userDataPage_twoPages {va : Nat} (h : va < 8192) :
    UserDataPage twoPages.sys.mem 524301 va := by
  have hpx : px 2 va = 0 ∧ px 1 va = 0 ∧ px 0 va < 2 := by
    unfold px
    simp only [Nat.reduceMul, Nat.reduceAdd, Nat.reducePow]
    omega
  have hlow : ¬ 1 < px 0 va := by omega
  have hleaf : leaf twoPages.sys.mem 524301 va = ⟨true, ⟨true, true, false, true⟩, 524304 + px 0 va⟩ := by
    simp [leaf, leafAddr, twoPages, hpx, hlow, Cell.pte, Pte.table]
  refine ⟨⟨?_, ?_, ?_, ?_⟩, ?_, fun p hp => ?_⟩
  · unfold maxva
    omega
  · rw [hleaf]
  · rw [hleaf]
  · rw [hleaf]
    exact Nat.add_eq_zero_iff.not.mpr fun hc => absurd hc.1 (by decide)
  · rw [hleaf]
  · rw [hleaf] at hp
    exact absurd (tableAt_twoPages hp) (Nat.not_lt.mpr (Nat.le_add_right _ _))

/-- Twelve bytes across the boundary of the two pages. -/
theorem copy_bytewise_boundary :
    copyinEach 524301 4090 12 twoPages = copyin 524301 4090 12 twoPages ∧
    ∃ s', copyout 524301 4090 (List.replicate 12 9) twoPages =
        .ret (true, []) { twoPages with sys := s' } [] ∧
      byteAt s'.mem (524305, 5) = 9 ∧ byteAt s'.mem (524305, 6) = 1 := by
  obtain ⟨hin, hout⟩ := copy_bytewise 524301 twoPages
  obtain ⟨s', hs, hrun, -⟩ := hout 4090 (List.replicate 12 9) fun i hi =>
    userDataPage_twoPages (by rw [List.length_replicate] at hi; omega)
  refine ⟨(hin 4090 12 fun i hi => (userDataPage_twoPages (by omega)).toUserPage).2, s', hrun, ?_, ?_⟩
  · exact hs.stored 11 (by decide) fun j hj hj' => by
      rw [List.length_replicate] at hj'
      omega
  · exact hs.frame _ (by decide)

end OsSuite.Xv6
