import OsSuite.Xv6.Image

/-!
# Args — the stack of a new image

`kexec` maps six pages behind the last segment, takes `PTE_U` from the
lowest and copies the arguments to the others. `NewImage root role s sz`
is the table while this goes on; `sz` is the end of the stack. Its pages
are mapped and writable, so `copyout` never faults: nothing of the
process that calls `kexec` is touched. `loadAt` is what the new program
will read, and `StringsAt` says that it will find the strings there, one
below the other.
-/

namespace OsSuite.Xv6

/-- Read and write, for the user. -/
def Perm.urw : Perm := ⟨true, true, false, true⟩

/-- **A table with a stack and nothing else**, which ends at `sz`. -/
structure NewImage (root : Frame) (role : Frame → Role) (s : Sys) (sz : Nat) : Prop where
  inv : SysInv role s
  wf : PtWf role s.mem root
  top : ∀ b, b % 4096 = 0 → trapframeVa ≤ b → b < maxva →
    (leaf s.mem root b).v = true ∧ (leaf s.mem root b).perm.u = false
  aligned : sz % 4096 = 0
  ge : 24576 ≤ sz
  le : sz ≤ trapframeVa
  user : ∀ b, b % 4096 = 0 → b < trapframeVa →
    ((leaf s.mem root b).v = true ↔ sz - 24576 ≤ b ∧ b < sz)
  guard : (leaf s.mem root (sz - 24576)).perm = { Perm.urw with u := false }
  stack : ∀ b, b % 4096 = 0 → sz - 20480 ≤ b → b < sz → (leaf s.mem root b).perm = Perm.urw

section
variable {A : Event → Prop} {root : Frame} {role : Frame → Role} {s : Sys} {st : St} {sz : Nat}

/-- What is written to a page of the table. -/
theorem PtWf.storePage (hw : PtWf role s.mem root) (h : SysInv role s) {f : Frame} {va : Nat}
    (hf : role f = .owned root (.page va)) (c : Cell) :
    PtStep root role role s (s.setCell f c) ∧
      ∀ a, leaf (s.setCell f c).mem root a = leaf s.mem root a := by
  have htab : ∀ g u, role g = .owned root u → (∀ b, u ≠ .page b) →
      (s.setCell f c).mem g = s.mem g := by
    rintro g u hg hu
    refine Function.update_of_ne ?_ _ _
    rintro rfl
    rw [hf] at hg
    cases hg
    exact hu va rfl
  refine ⟨⟨h.setCell f c, hw.agree (fun _ _ hg => hg) htab, ⟨fun _ _ => rfl, fun g hg => ?_⟩,
    .setCell s f c⟩, hw.leaf_agree htab⟩
  refine Function.update_of_ne ?_ _ _
  rintro rfl
  rw [hf] at hg
  simp [Role.foreign] at hg

/-- A byte of the stack is stored. -/
theorem NewImage.store (h : NewImage root role s sz) {b : Nat} (hal : b % 4096 = 0)
    (hlo : sz - 24576 ≤ b) (hhi : b < sz) (c : Cell) :
    NewImage root role (s.setCell (leaf s.mem root b).pa c) sz ∧
      PtStep root role role s (s.setCell (leaf s.mem root b).pa c) ∧
      ∀ a, leaf (s.setCell (leaf s.mem root b).pa c).mem root a = leaf s.mem root a := by
  have hb : b < trapframeVa := Nat.lt_of_lt_of_le hhi h.le
  have hpage := h.wf.page b hal hb ((h.user b hal hb).mpr ⟨hlo, hhi⟩)
  obtain ⟨hstep, hleaf⟩ := h.wf.storePage h.inv hpage c
  refine ⟨⟨hstep.inv, hstep.wf, ?_, h.aligned, h.ge, h.le, ?_, ?_, ?_⟩, hstep, hleaf⟩
  · simp only [hleaf]
    exact h.top
  · simp only [hleaf]
    exact h.user
  · rw [hleaf]
    exact h.guard
  · simp only [hleaf]
    exact h.stack

/-- A table page above the guard page is the user's. -/
theorem NewImage.userPa_eq (h : NewImage root role s sz) {b : Nat} (hal : b % 4096 = 0)
    (hlo : sz - 20480 ≤ b) (hhi : b < sz) :
    userPa s.mem root b = some (leaf s.mem root b).pa := by
  have hb : b < trapframeVa := Nat.lt_of_lt_of_le hhi h.le
  have hv := (h.user b hal hb).mpr ⟨(Nat.sub_le_sub_left (by decide) sz).trans hlo, hhi⟩
  have hmax : b < maxva := Nat.lt_trans hb (by decide)
  have hu : (leaf s.mem root b).perm.u = true := by
    rw [h.stack b hal hlo hhi]
    rfl
  unfold userPa
  rw [if_pos ⟨hmax, hv, hu⟩]

/-- No user page lies at or above the end of the stack. -/
theorem NewImage.inRange (h : NewImage root role s sz) : InRange s.mem root sz := by
  intro b hal hb hv
  have hlt := ((h.user b hal hb).mp hv).2
  exact Nat.lt_of_lt_of_le hlt (le_pgroundup h.le)

/-! ## What the program reads -/

/-- What a load at `a` finds if it does not fault. -/
def loadAt (m : Mem) (root : Frame) (a : Nat) : Option UInt8 :=
  if (leaf m root a).permits .load then some ((m (leaf m root a).pa).page (pgoff a)) else none

/-- The bytes `l` at `a`. -/
def BytesAt (m : Mem) (root : Frame) (a : Nat) (l : List UInt8) : Prop :=
  ∀ i, i < l.length → loadAt m root (a + i) = l[i]?

theorem BytesAt.congr {m m' : Mem} {a : Nat} {l : List UInt8} (h : BytesAt m root a l)
    (hm : ∀ i, i < l.length → loadAt m' root (a + i) = loadAt m root (a + i)) :
    BytesAt m' root a l := fun i hi => (hm i hi).trans (h i hi)

/-- An address of the stack lies in a page of it. -/
theorem stack_page {sz a : Nat} (hal : sz % 4096 = 0) (hlo : sz - 20480 ≤ a) (hhi : a < sz) :
    sz - 20480 ≤ pgrounddown a ∧ pgrounddown a < sz := by
  unfold pgrounddown
  omega

/-- The stack can be read. -/
theorem NewImage.loadAt_eq (h : NewImage root role s sz) {a : Nat} (hlo : sz - 20480 ≤ a)
    (hhi : a < sz) : loadAt s.mem root a = some ((s.mem (leaf s.mem root a).pa).page (pgoff a)) := by
  obtain ⟨hblo, hb⟩ := stack_page h.aligned hlo hhi
  have hal := pgrounddown_aligned a
  have hv := (h.user _ hal (hb.trans_le h.le)).mpr
    ⟨(Nat.sub_le_sub_left (by decide) sz).trans hblo, hb⟩
  have hp := h.stack _ hal hblo hb
  rw [leaf_pgrounddown] at hv hp
  have hload : (leaf s.mem root a).permits .load = true := by
    show ((leaf s.mem root a).v && (leaf s.mem root a).perm.u && (leaf s.mem root a).perm.r) = true
    rw [hv, hp]
    rfl
  rw [loadAt, if_pos hload]

/-- **A page of the stack is written**: its bytes are the new ones, the
others stay. -/
theorem NewImage.loadAt_store (h : NewImage root role s sz) {b a : Nat} (hal : b % 4096 = 0)
    (hblo : sz - 20480 ≤ b) (hb : b < sz) (pg : Page) (hlo : sz - 20480 ≤ a) (hhi : a < sz) :
    loadAt (s.setCell (leaf s.mem root b).pa (.bytes pg)).mem root a =
      if pgrounddown a = b then some (pg (pgoff a)) else loadAt s.mem root a := by
  have hpage : ∀ c, c % 4096 = 0 → sz - 20480 ≤ c → c < sz →
      role (leaf s.mem root c).pa = .owned root (.page c) := fun c hc h1 h2 =>
    h.wf.page c hc (h2.trans_le h.le) ((h.user c hc (h2.trans_le h.le)).mpr
      ⟨(Nat.sub_le_sub_left (by decide) sz).trans h1, h2⟩)
  obtain ⟨himg, -, hleaf⟩ := h.store hal ((Nat.sub_le_sub_left (by decide) sz).trans hblo) hb
    (.bytes pg)
  obtain ⟨halo, hab⟩ := stack_page h.aligned hlo hhi
  rw [himg.loadAt_eq hlo hhi, hleaf, h.loadAt_eq hlo hhi]
  show some ((Function.update s.mem _ _ _).page _) = _
  by_cases he : pgrounddown a = b
  · rw [if_pos he, ← he, leaf_pgrounddown, Function.update_self]
    rfl
  · rw [if_neg he, Function.update_of_ne]
    intro hc
    have h1 := hpage _ (pgrounddown_aligned a) halo hab
    rw [leaf_pgrounddown, hc, hpage b hal hblo hb] at h1
    cases h1
    exact he rfl

/-! ## `copyout` to the stack -/

/-- One round of `copyout` stays within the stack. -/
theorem copyout_round {sz dst len : Nat} (hal : sz % 4096 = 0) (hlo : sz - 20480 ≤ dst)
    (hhi : dst + len ≤ sz) (hlen : 0 < len) :
    sz - 20480 ≤ pgrounddown dst ∧ pgrounddown dst < sz ∧ sz - 20480 ≤ pgrounddown dst + 4096 ∧
      pgrounddown dst + 4096 + (len - (4096 - dst % 4096)) ≤ sz := by
  unfold pgrounddown
  omega

/-- The stack after `src` was copied to `dst`. -/
structure StackPatched (root : Frame) (sz dst : Nat) (src : List UInt8) (m m' : Mem) : Prop where
  leaf_eq : ∀ a, leaf m' root a = leaf m root a
  load : ∀ a, sz - 20480 ≤ a → a < sz →
    loadAt m' root a = if dst ≤ a ∧ a < dst + src.length then src[a - dst]? else loadAt m root a

theorem stackPatched_nil (sz dst : Nat) (m : Mem) : StackPatched root sz dst [] m m :=
  ⟨fun _ => rfl, fun _ _ _ => (if_neg fun hc => Nat.not_lt.mpr hc.1 hc.2).symm⟩

/-- The bytes that `memmove` leaves in a page. -/
def patched (pg : Page) (off : Nat) (src : List UInt8) : Page := fun i =>
  if off ≤ i.val then (src[i.val - off]?).getD (pg i) else pg i

/-- One page, and the pages behind it. -/
theorem StackPatched.round {dst : Nat} {src : List UInt8} {m m₁ m' : Mem} {pg : Page}
    (h : StackPatched root sz (pgrounddown dst + 4096) (src.drop (4096 - dst % 4096)) m₁ m')
    (hleaf : ∀ a, leaf m₁ root a = leaf m root a)
    (hold : ∀ a, sz - 20480 ≤ a → a < sz → pgrounddown a = pgrounddown dst →
      loadAt m root a = some (pg (pgoff a)))
    (hnew : ∀ a, sz - 20480 ≤ a → a < sz → loadAt m₁ root a =
      if pgrounddown a = pgrounddown dst
      then some (patched pg (dst % 4096) (src.take (4096 - dst % 4096)) (pgoff a))
      else loadAt m root a) : StackPatched root sz dst src m m' := by
  refine ⟨fun a => (h.leaf_eq a).trans (hleaf a), fun a h1 h2 => ?_⟩
  have hlen : (src.drop (4096 - dst % 4096)).length = src.length - (4096 - dst % 4096) :=
    List.length_drop
  rw [h.load a h1 h2, hnew a h1 h2, hlen]
  by_cases hpage : pgrounddown a = pgrounddown dst
  · have hoff : (pgoff a).val = a % 4096 := rfl
    have hdst : pgrounddown dst + dst % 4096 = dst := pgrounddown_add_pgoff dst
    have ha : pgrounddown a + a % 4096 = a := pgrounddown_add_pgoff a
    rw [if_neg (by omega), if_pos hpage, patched, hoff]
    by_cases hge : dst ≤ a
    · rw [if_pos (by omega), List.getElem?_take, if_pos (by omega),
        show a % 4096 - dst % 4096 = a - dst by omega]
      by_cases hlt : a < dst + src.length
      · rw [if_pos ⟨hge, hlt⟩, List.getElem?_eq_getElem (by omega), Option.getD_some]
      · rw [if_neg fun hc => hlt hc.2, List.getElem?_eq_none (by omega), Option.getD_none,
          hold a h1 h2 hpage]
    · rw [if_neg (by omega), if_neg fun hc => hge hc.1, hold a h1 h2 hpage]
  · rw [if_neg hpage]
    have hdst : pgrounddown dst + dst % 4096 = dst := pgrounddown_add_pgoff dst
    have ha : pgrounddown a + a % 4096 = a := pgrounddown_add_pgoff a
    by_cases hin : pgrounddown dst + 4096 ≤ a ∧
        a < pgrounddown dst + 4096 + (src.length - (4096 - dst % 4096))
    · rw [if_pos hin, if_pos (by omega), List.getElem?_drop,
        show 4096 - dst % 4096 + (a - (pgrounddown dst + 4096)) = a - dst by omega]
    · rw [if_neg hin, if_neg (by omega)]

/-- **`copyout`** to the stack goes through, and leaves the process alone. -/
theorem copyoutLoop_stack {fuel dst : Nat} {src : List UInt8} (h : NewImage root role st.sys sz)
    (hlo : sz - 20480 ≤ dst) (hhi : dst + src.length ≤ sz) (hfuel : src.length ≤ fuel) :
    wp A (copyoutLoop root fuel dst src) ⟨fun r st' => r = (true, []) ∧ st'.p = st.p ∧
        NewImage root role st'.sys sz ∧ PtStep root role role st.sys st'.sys ∧
        StackPatched root sz dst src st.sys.mem st'.sys.mem,
      fun _ => False, fun _ => False⟩ st := by
  induction fuel generalizing dst src st with
  | zero =>
      obtain rfl : src = [] := List.eq_nil_of_length_eq_zero (by omega)
      exact wp_pure.mpr ⟨rfl, rfl, h, .refl h.inv h.wf, stackPatched_nil _ _ _⟩
  | succ fuel ih =>
      rw [copyoutLoop]
      by_cases hempty : src.isEmpty = true
      · rw [if_pos hempty]
        obtain rfl := List.isEmpty_iff.mp hempty
        exact wp_pure.mpr ⟨rfl, rfl, h, .refl h.inv h.wf, stackPatched_nil _ _ _⟩
      · rw [if_neg hempty]
        have hlen : 0 < src.length := by
          rw [List.isEmpty_iff] at hempty
          exact List.length_pos_iff.mpr hempty
        have hbal := pgrounddown_aligned dst
        obtain ⟨hblo, hb, hnext, hend⟩ := copyout_round h.aligned hlo hhi hlen
        have hbmax : ¬ maxva ≤ pgrounddown dst :=
          not_le.mpr ((hb.trans_le h.le).trans (by decide))
        rw [if_neg hbmax]
        simp only [userFrame, wp_bind, onSys, wp_zoom, wp_walkaddr, h.userPa_eq hbal hblo hb, wp_pure,
          wp_get]
        rw [h.stack _ hbal hblo hb, if_pos (show Perm.urw.w = true from rfl)]
        simp only [wp_bind, wp_zoom, storeBytes, wp_modify]
        have hold : ∀ a, sz - 20480 ≤ a → a < sz → pgrounddown a = pgrounddown dst →
            loadAt st.sys.mem root a =
              some ((st.sys.mem (leaf st.sys.mem root (pgrounddown dst)).pa).page (pgoff a)) := by
          intro a h1 h2 he
          rw [h.loadAt_eq h1 h2, ← he, leaf_pgrounddown]
        have hnew := fun a => @NewImage.loadAt_store root role st.sys sz h _ a hbal hblo hb
          (patched (st.sys.mem (leaf st.sys.mem root (pgrounddown dst)).pa).page (dst % 4096)
            (src.take (4096 - dst % 4096)))
        obtain ⟨himg, hstep, hleaf⟩ := h.store hbal ((Nat.sub_le_sub_left (by decide) sz).trans hblo)
          hb (.bytes (patched (st.sys.mem (leaf st.sys.mem root (pgrounddown dst)).pa).page
            (dst % 4096) (src.take (4096 - dst % 4096))))
        have himg₁ : NewImage root role (St.sys ⟨_, st.p⟩) sz := himg
        refine (ih himg₁ hnext ?_ ?_).weaken ?_
        · rw [List.length_drop]
          exact hend
        · rw [List.length_drop]
          omega
        · rintro r st' ⟨rfl, hp, himg', hstep', hpatch⟩
          exact ⟨rfl, hp, himg', hstep.trans hstep', hpatch.round hleaf hold hnew⟩

theorem copyout_stack {dst : Nat} {src : List UInt8} (h : NewImage root role st.sys sz)
    (hlo : sz - 20480 ≤ dst) (hhi : dst + src.length ≤ sz) :
    wp A (copyout root dst src) ⟨fun r st' => r = (true, []) ∧ st'.p = st.p ∧
        NewImage root role st'.sys sz ∧ PtStep root role role st.sys st'.sys ∧
        StackPatched root sz dst src st.sys.mem st'.sys.mem,
      fun _ => False, fun _ => False⟩ st :=
  copyoutLoop_stack h hlo hhi (Nat.le_refl _)

/-- Beyond `MAXVA` nothing is copied. -/
theorem copyout_beyond {dst : Nat} {src : List UInt8} (hne : src ≠ [])
    (hmax : maxva ≤ pgrounddown dst) :
    wp A (copyout root dst src) ⟨fun r st' => r.1 = false ∧ st' = st,
      fun _ => False, fun _ => False⟩ st := by
  obtain ⟨n, hn⟩ : ∃ n, src.length = n + 1 :=
    ⟨src.length - 1, by have := List.length_pos_iff.mpr hne; omega⟩
  rw [copyout, hn, copyoutLoop, if_neg (by simpa using hne), if_pos hmax]
  exact wp_pure.mpr ⟨rfl, rfl⟩

/-! ## The arguments -/

/-- A string that the machine can hold. -/
def ArgOk (arg : List UInt8) : Prop := arg.length < 9223372036854775808

theorem pushDown_le {sp n : Nat} (h : n ≤ sp) (hsp : sp ≤ trapframeVa) :
    pushDown sp n + n ≤ sp := by
  unfold pushDown u64
  unfold trapframeVa at hsp
  dsimp only
  omega

/-- The stack pointer below the strings `args`. -/
def argSp (sp : Nat) (args : List (List UInt8)) : Nat :=
  args.foldl (fun sp arg => pushDown sp (arg.length + 1)) sp

/-- **The strings on the stack**, each below the one before, from `sp`
downwards. -/
def StringsAt (m : Mem) (root : Frame) : Nat → List (List UInt8) → List Nat → Prop
  | _, [], ptrs => ptrs = []
  | sp, arg :: args, ptrs => ∃ rest, ptrs = pushDown sp (arg.length + 1) :: rest ∧
      pushDown sp (arg.length + 1) + (arg.length + 1) ≤ sp ∧
      BytesAt m root (pushDown sp (arg.length + 1)) (arg ++ [0]) ∧
      StringsAt m root (pushDown sp (arg.length + 1)) args rest

/-- Two memories that agree on the stack at and above `lo`. -/
def StackSame (root : Frame) (sz lo : Nat) (m m' : Mem) : Prop :=
  ∀ a, sz - 20480 ≤ a → lo ≤ a → a < sz → loadAt m' root a = loadAt m root a

theorem StackPatched.same {dst lo : Nat} {src : List UInt8} {m m' : Mem}
    (h : StackPatched root sz dst src m m') (hlo : dst + src.length ≤ lo) :
    StackSame root sz lo m m' := fun a h1 h2 h3 => by
  rw [h.load a h1 h3, if_neg (by omega)]

theorem StackPatched.bytesAt {dst : Nat} {src : List UInt8} {m m' : Mem}
    (h : StackPatched root sz dst src m m') (hlo : sz - 20480 ≤ dst) (hhi : dst + src.length ≤ sz) :
    BytesAt m' root dst src := fun i hi => by
  rw [h.load (dst + i) (by omega) (by omega), if_pos ⟨by omega, by omega⟩, Nat.add_sub_cancel_left]

theorem StringsAt.argSp_le {m : Mem} {args : List (List UInt8)} {sp : Nat} {ptrs : List Nat}
    (h : StringsAt m root sp args ptrs) : argSp sp args ≤ sp := by
  induction args generalizing sp ptrs with
  | nil => exact Nat.le_refl sp
  | cons arg args ih =>
      obtain ⟨rest, -, hle, -, hrest⟩ := h
      have hih := ih hrest
      rw [argSp, List.foldl_cons]
      unfold argSp at hih
      omega

/-- The strings stay where memory does not change. -/
theorem StringsAt.congr {m m' : Mem} {args : List (List UInt8)} {sp : Nat} {ptrs : List Nat}
    (h : StringsAt m root sp args ptrs)
    (hm : ∀ a, argSp sp args ≤ a → a < sp → loadAt m' root a = loadAt m root a) :
    StringsAt m' root sp args ptrs := by
  induction args generalizing sp ptrs with
  | nil => exact h
  | cons arg args ih =>
      obtain ⟨rest, hptrs, hle, hbytes, hrest⟩ := h
      have hbelow := hrest.argSp_le
      refine ⟨rest, hptrs, hle, hbytes.congr fun i hi => ?_, ih hrest fun a h1 h2 => ?_⟩
      · rw [List.length_append, List.length_singleton] at hi
        exact hm _ (hbelow.trans (Nat.le_add_right _ _)) (by omega)
      · exact hm a h1 (by omega)

/-- What is known when the argument loop ends. -/
structure PushedArgs (root : Frame) (role : Frame → Role) (sz sp : Nat) (args : List (List UInt8))
    (ustack : List Nat) (st : St) (r : Bool × Nat × List Nat) (st' : St) : Prop where
  p : st'.p = st.p
  img : NewImage root role st'.sys sz
  step : PtStep root role role st.sys st'.sys
  same : StackSame root sz sp st.sys.mem st'.sys.mem
  leaf_eq : ∀ a, leaf st'.sys.mem root a = leaf st.sys.mem root a
  sp_eq : r.1 = true → r.2.1 = argSp sp args ∧ r.2.1 ≤ sp ∧ sz - 20480 ≤ r.2.1
  ptrs : r.1 = true → r.2.2.length ≤ 32 ∧ ∃ ptrs, r.2.2 = ustack ++ ptrs ∧
    StringsAt st'.sys.mem root sp args ptrs

/-- **The argument loop.** -/
theorem pushArgs_stack {args : List (List UInt8)} {sp : Nat} {ustack : List Nat}
    (h : NewImage root role st.sys sz) (hargs : ∀ a ∈ args, ArgOk a) (hsp : sp ≤ sz)
    (hlo : sz - 20480 ≤ sp) (hu : ustack.length ≤ 32) :
    wp A (pushArgs root (sz - 20480) args sp ustack)
      ⟨PushedArgs root role sz sp args ustack st, fun _ => False, fun _ => False⟩ st := by
  have hle := h.le
  induction args generalizing sp ustack st with
  | nil =>
      exact wp_pure.mpr ⟨rfl, h, .refl h.inv h.wf, fun _ _ _ _ => rfl, fun _ => rfl,
        fun _ => ⟨rfl, Nat.le_refl sp, hlo⟩, fun _ => ⟨hu, [], (List.append_nil _).symm, rfl⟩⟩
  | cons arg rest ih =>
      have hfail : ∀ sp', wp A (pure (false, sp', ustack))
          ⟨PushedArgs root role sz sp (arg :: rest) ustack st, fun _ => False, fun _ => False⟩ st :=
        fun sp' => wp_pure.mpr ⟨rfl, h, .refl h.inv h.wf, fun _ _ _ _ => rfl, fun _ => rfl, nofun,
          nofun⟩
      rw [pushArgs]
      split
      · exact hfail _
      split
      · exact hfail _
      rename_i hroom hbase
      have harg : ArgOk arg := hargs arg List.mem_cons_self
      rw [wp_bind]
      by_cases hlen : arg.length + 1 ≤ sp
      · have hdown := pushDown_le hlen (hsp.trans hle)
        have hin : pushDown sp (arg.length + 1) + (arg ++ [0]).length ≤ sp := by
          rw [List.length_append, List.length_singleton]
          exact hdown
        refine (copyout_stack h (not_lt.mp hbase) (hin.trans hsp)).weaken ?_
        rintro r st₁ ⟨rfl, hp, himg, hstep, hpatch⟩
        rw [if_pos rfl]
        refine (ih himg (fun a ha => hargs a (List.mem_cons_of_mem _ ha)) (by omega)
          (not_lt.mp hbase) ?_).weaken ?_
        · rw [List.length_append, List.length_singleton]
          omega
        · rintro r st₂ ⟨hp₂, himg₂, hstep₂, hsame₂, hleaf₂, hsp₂, hu₂⟩
          refine ⟨hp₂.trans hp, himg₂, hstep.trans hstep₂, fun a h1 h2 h3 => ?_,
            fun a => (hleaf₂ a).trans (hpatch.leaf_eq a), fun hr => ?_, fun hr => ?_⟩
          · rw [hsame₂ a h1 (by omega) h3, hpatch.same hin a h1 h2 h3]
          · obtain ⟨he, hle₂, hge⟩ := hsp₂ hr
            exact ⟨he, by omega, hge⟩
          · obtain ⟨hcount, ptrs, he, hplaced⟩ := hu₂ hr
            refine ⟨hcount, _ :: ptrs, ?_, ptrs, rfl, hdown, ?_, hplaced⟩
            · rw [he, List.append_assoc, List.singleton_append]
            · -- the strings below do not touch this one
              refine (hpatch.bytesAt (not_lt.mp hbase) (hin.trans hsp)).congr fun i hi => ?_
              exact hsame₂ _ (by omega) (by omega) (by omega)
      · -- the stack pointer wraps around
        have hwrap : maxva ≤ pgrounddown (pushDown sp (arg.length + 1)) := by
          unfold ArgOk at harg
          unfold trapframeVa at hle
          unfold pgrounddown pushDown u64 maxva
          dsimp only
          omega
        refine (copyout_beyond (by simp) hwrap).weaken ?_
        rintro ⟨ok, left⟩ st₁ ⟨hok, rfl⟩
        obtain rfl : ok = false := hok
        exact hfail _

end

end OsSuite.Xv6
