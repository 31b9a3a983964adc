import OsSuite.Xv6.Lazy

/-!
# Started — a program that `kexec` has just started

`kexec` builds the new table while the old one is still in place, and
frees the old one last. `Started argv r root role st` is the process
after that: it owns the new table, which holds a guard page, the stack
with the arguments and the two top pages, and nothing else. Two results
about the call as a whole follow. `exec_survives_iff` says with which
files it returns at all, and `exec_passes_arguments` what the new program
finds on its stack.
-/

namespace OsSuite.Xv6

section
variable {root old : Frame} {role role' : Frame → Role} {s s' : Sys} {st st' : St} {sz sp : Nat}
  {argv : List (List UInt8)} {ptrs : List Nat} {m m' : Mem}

/-! ## Nobody else's table -/

/-- The new image while others' frames are freed. -/
theorem NewImage.agree (h : NewImage root role s sz) (hs : SysInv role' s')
    (hr : ∀ f u, role f = .owned root u → role' f = .owned root u ∧ s'.mem f = s.mem f) :
    NewImage root role' s' sz ∧ SameView root s.mem s'.mem := by
  have hview : SameView root s.mem s'.mem := h.wf.sameView fun f u hf => (hr f u hf).2
  have hwf : PtWf role' s'.mem root :=
    h.wf.agree (fun f u hf => (hr f u hf).1) fun f u hf _ => (hr f u hf).2
  refine ⟨⟨hs, hwf, ?_, h.aligned, h.ge, h.le, ?_, ?_, ?_⟩, hview⟩
  · simp only [hview.leaf]
    exact h.top
  · simp only [hview.leaf]
    exact h.user
  · rw [hview.leaf]
    exact h.guard
  · simp only [hview.leaf]
    exact h.stack

/-- The program reads the same. -/
theorem NewImage.loadAt_view (h : NewImage root role s sz) (hview : SameView root s.mem m')
    {a : Nat} (hlo : sz - 20480 ≤ a) (hhi : a < sz) :
    loadAt m' root a = loadAt s.mem root a := by
  obtain ⟨hblo, hb⟩ := stack_page h.aligned hlo hhi
  have hal := pgrounddown_aligned a
  have htf := hb.trans_le h.le
  have hv := (h.user _ hal htf).mpr ⟨(Nat.sub_le_sub_left (by decide) sz).trans hblo, hb⟩
  have hpage := hview.page _ hal htf
  unfold pageAt at hpage
  rw [hview.leaf, if_pos hv, if_pos hv, Option.some.injEq, Prod.mk.injEq] at hpage
  have hbytes := congrFun hpage.2 (pgoff a)
  rw [leaf_pgrounddown] at hbytes
  unfold loadAt
  rw [hview.leaf, hbytes]

theorem Pushed.congr (h : Pushed m root sz argv ptrs sp)
    (hm : ∀ a, sz - 20480 ≤ a → a < sz → loadAt m' root a = loadAt m root a) :
    Pushed m' root sz argv ptrs sp := by
  have hbase := h.base
  have hroom := h.room
  have hle := h.le
  refine ⟨h.strings.congr fun a h1 h2 => hm a (by omega) h2, hle, h.sp_eq, hroom, hbase,
    h.vector.congr fun i hi => ?_⟩
  rw [length_flatMap_bytes64, List.length_append, List.length_singleton] at hi
  exact hm _ (by omega) (by omega)

/-! ## The commit -/

/-- **A process that has just executed a file**, with the value of the
call and the two top pages of the process before. -/
structure Started (argv : List (List UInt8)) (tf tramp : Frame) (r : Int) (root : Frame)
    (role : Frame → Role) (st : St) : Prop where
  own : Own root role st
  img : NewImage root role st.sys st.p.sz
  resident : st.p.numResident = 0
  a1 : st.p.regs.a1 = st.p.regs.sp
  pushed : ∃ ptrs, r = ptrs.length ∧ Pushed st.sys.mem root st.p.sz argv ptrs st.p.regs.sp
  top : ∀ b, b % 4096 = 0 → trapframeVa ≤ b → b < maxva → leaf st.sys.mem root b = topPte tf tramp b

/-- **Freeing the old table** goes through, and leaves the new one alone. -/
theorem Own.frees (h : Own old role st) (hr : InRange st.sys.mem old st.p.sz)
    (hidle : (role root).idle = true) (hstep : PtStep root role role' st.sys s) :
    wp (fun _ => True) (procFreepagetable old st.p.sz) ⟨fun _ s' => ∃ role'', SysInv role'' s' ∧
        ∀ f u, role' f = .owned root u → role'' f = .owned root u ∧ s'.mem f = s.mem f,
      fun _ => False, fun _ => False⟩ s := by
  have hne : old ≠ root := by
    rintro rfl
    rw [h.wf.top] at hidle
    cases hidle
  obtain ⟨hwf, hview⟩ := hstep.other hne h.wf
  have hr' : InRange s.mem old st.p.sz := by
    intro b h1 h2 h3
    rw [hview.leaf] at h3
    exact hr b h1 h2 h3
  have hsz := (pgroundup_le_trapframe h.lists.sz_le).trans (show trapframeVa ≤ maxva by decide)
  refine (procFreepagetable_spec hstep.inv hwf hsz hr').mono ?_ (fun _ h => h) (fun _ h => h)
  rintro _ s' ⟨role'', hinv, -, hf⟩
  have hkept := hf.kept fun f hf => hwf.pages_owned hf
  refine ⟨role'', hinv, fun f u hfu => ?_⟩
  have hfor : (role' f).foreign old = true := by
    rw [hfu]
    simpa [Role.foreign] using hne.symm
  exact ⟨(hkept.role_eq f hfor).trans hfu, hkept.mem_eq f hfor⟩

/-- The record after the swap file and the executable were opened. -/
theorem Own.opened (h : Own root role st) (ino exe : Nat) (fs : Fs) :
    Own root role ⟨(st.opensSwap ino fs).sys,
      (st.opensSwap ino fs).p.opened exe (fs.inode exe)⟩ :=
  ⟨h.root_eq, ⟨h.inv.free_nodup, h.inv.mem_free, h.inv.held_nodup, h.inv.mem_held, h.inv.valid,
    h.inv.kend_le⟩, h.wf, h.top, h.lists.sz_le, h.lists.nonneg, h.lists.resident, h.lists.swapped⟩

theorem Own.commit_returns (h : Own root role st) (hr : InRange st.sys.mem root st.p.sz) :
    ¬ CommitPanics role st.sys st.p := by
  rintro ⟨new, role₁, s₁, sz, m, w, hidle, -, hstep, hx⟩
  rw [h.root_eq] at hx
  have hrun := h.frees hr hidle hstep
  unfold wp at hrun
  rw [hx] at hrun
  exact hrun fun _ _ => trivial

/-- **After the commit** the process owns the new table. -/
theorem Own.started {r : Int} (h : Own root role st) (hr : InRange st.sys.mem root st.p.sz)
    (hc : CommitsArgs argv role st.sys st.p r st') :
    ∃ new role', Started argv st.p.trapframe st.sys.tramp r new role' st' := by
  obtain ⟨new, role₁, s₁, sz, entry, sp, w, ptrs, hidle, himg, hstep, hret, hp, hfree, hpush, htop⟩ := hc
  rw [h.root_eq] at hfree
  obtain ⟨role₂, hinv, hkeep⟩ := (h.frees hr hidle hstep).of_ret hfree fun _ _ => trivial
  obtain ⟨himg₂, hview⟩ := himg.agree hinv hkeep
  refine ⟨new, role₂, ?_⟩
  have hsz : st'.p.sz = sz := by rw [hp]; rfl
  refine ⟨⟨by rw [hp]; rfl, hinv, himg₂.wf, himg₂.top, ?_⟩, hsz ▸ himg₂, by rw [hp]; rfl,
    by rw [hp]; rfl, ⟨ptrs, hret, ?_⟩, fun b h1 h2 h3 => ?_⟩
  · rw [hp]
    exact ⟨himg.le, Int.le_refl 0, nofun, h.lists.swapped⟩
  · rw [hsz, show st'.p.regs.sp = sp by rw [hp]; rfl]
    exact hpush.congr fun a h1 h2 => himg.loadAt_view hview h1 h2
  · rw [hview.leaf, htop b h1 h2 h3]

theorem StringsAt.length {args : List (List UInt8)} (h : StringsAt m root sp args ptrs) :
    ptrs.length = args.length := by
  induction args generalizing sp ptrs with
  | nil => exact congrArg List.length (show ptrs = [] from h)
  | cons arg args ih =>
      obtain ⟨rest, rfl, -, -, hrest⟩ := h
      rw [List.length_cons, List.length_cons, ih hrest]

/-! ## Any file -/

/-- `kexec` only asks the allocator. -/
theorem Fatal.congr {ip : Inode} (h : Fatal s ip) (hg : ∀ n, s'.grants n = s.grants n) :
    Fatal s' ip := by
  cases h with
  | beyond j elf magic lt hdr seg far frames =>
      exact .beyond j elf magic lt hdr seg far ((hg _).trans frames)
  | many opens num => exact .many ⟨opens.1, (hg _).trans opens.2⟩ num
  | last load far frames => exact .last load far ((hg _).trans frames)

theorem fatal_opensSwap {ino : Nat} {fs : Fs} {ip : Inode} :
    Fatal (st.opensSwap ino fs).sys ip ↔ Fatal st.sys ip := by
  have hsame : SameAlloc st.sys (st.opensSwap ino fs).sys := ⟨rfl, rfl, rfl⟩
  exact ⟨fun h => h.congr fun n => (hsame.grants n).symm, fun h => h.congr hsame.grants⟩

/-- **`kexec`, from a process that owns its table**: it fails, or the
process is started, and it returns except with a fatal file or without a
`struct file`. -/
theorem kexec_started {path : List Char} {dirlinkOk fileallocOk : Bool} (h : Own root role st)
    (hr : InRange st.sys.mem root st.p.sz) (hargs : ∀ a ∈ argv, ArgOk a) :
    wp (fun _ => True) (kexec path argv dirlinkOk fileallocOk)
      ⟨fun r st' => (r = -1 ∨ ∃ new role',
            Started argv st.p.trapframe st.sys.tramp r new role' st') ∧
          ∀ ino fs exe, Finds st path dirlinkOk ino fs exe → ¬ Fatal st.sys (fs.inode exe),
        fun _ => False, fun _ => fileallocOk = false ∨
          ∃ ino fs exe, Finds st path dirlinkOk ino fs exe ∧ Fatal st.sys (fs.inode exe)⟩ st := by
  refine (kexec_spec h.inv hargs).mono (fun r st' hd => ⟨hd.2.1.imp id ?_, ?_⟩) (fun _ hf => hf)
    fun _ hpanic => hpanic.imp id ?_
  · rintro ⟨ino, fs, exe, -, hc⟩
    exact (h.opened ino exe fs).started hr hc
  · exact fun ino fs exe hfind hfatal => hd.2.2 ino fs exe hfind (fatal_opensSwap.mpr hfatal)
  · rintro ⟨ino, fs, exe, hfind, hfatal | hc⟩
    · exact ⟨ino, fs, exe, hfind, fatal_opensSwap.mp hfatal⟩
    · exact absurd hc ((h.opened ino exe fs).commit_returns hr)

/-- **The call has survived**: it returned, and if it started the program
then below an intact trampoline and trapframe. -/
structure Survived (argv : List (List UInt8)) (st : St) (r : Int) (st' : St) : Prop where
  value : r = -1 ∨ r = argv.length
  sz_le : r ≠ -1 → st'.p.sz ≤ trapframeVa
  trampoline : r ≠ -1 → leaf st'.sys.mem st'.p.pagetable trampolineVa = trampPte st.sys.tramp
  trapframe : r ≠ -1 → leaf st'.sys.mem st'.p.pagetable trapframeVa = trapframePte st.p.trapframe

theorem Started.survived {r : Int} (h : Started argv st.p.trapframe st.sys.tramp r root role st') :
    Survived argv st r st' := by
  obtain ⟨ptrs, hr, hpush⟩ := h.pushed
  refine ⟨.inr (by rw [hr, hpush.strings.length]), fun _ => h.img.le, fun _ => ?_, fun _ => ?_⟩
  · rw [h.own.root_eq, h.top trampolineVa (by decide) (by decide) (by decide)]
    rfl
  · rw [h.own.root_eq, h.top trapframeVa (by decide) (by decide) (by decide)]
    rfl

end

theorem startedSt_fresh : NoUser startedSt.sys.mem 524300 ∧ startedSt.sys.fs = smallFs := by
  have hpool : PoolOk smallKern.sys := ⟨by decide, by decide, by decide⟩
  obtain ⟨s, w, hx⟩ := procPagetable_smallKern
  obtain ⟨role, hstep, -, hleaf⟩ :=
    (procPagetable_spec (A := fun _ => True) hpool.inv).of_ret hx fun _ _ => trivial
  unfold startedSt
  rw [hx]
  exact ⟨.of_top hleaf, hstep.conf.fs⟩

/-- An executable with one segment, of `memsz` bytes at `vaddr`. -/
def oneSegment (vaddr memsz : Nat) : List UInt8 :=
  -- struct elfhdr: magic, entry, phoff, phnum
  bytesLe 4 elfMagic ++ List.replicate 20 0 ++ bytesLe 8 0 ++ bytesLe 8 64 ++
  List.replicate 16 0 ++ bytesLe 2 1 ++ List.replicate 6 0 ++
  -- struct proghdr: type, flags, off, vaddr, paddr, filesz, memsz, align
  bytesLe 4 1 ++ bytesLe 4 6 ++ bytesLe 8 120 ++ bytesLe 8 vaddr ++ bytesLe 8 0 ++ bytesLe 8 0 ++
  bytesLe 8 memsz ++ bytesLe 8 4096

/-- A file system with the file `a` and the swap file of process 0. -/
def oneFile (a : List UInt8) : Fs where
  inode ino := if ino = 2 then ⟨true, a.length, fun k => a.getD k 0, fun bn => bn == 0, false⟩
    else Inode.empty
  nfree := 1000
  names name := if name = ['a'] then some 2 else if name = swapName 0 then some 3 else none
  freeInodes := [4, 5, 6]

theorem NoUser.withFs {root : Frame} {st : St} (h : NoUser st.sys.mem root) (fs : Fs) :
    NoUser (st.withFs fs).sys.mem root := h

/-- Rounding up to the alignment of the stack pointer. -/
def up16 (n : Nat) : Nat := (n + 15) / 16 * 16

/-- The stack below its end that the strings take, on top of `d` bytes. -/
def argNeed (d : Nat) (args : List (List UInt8)) : Nat :=
  args.foldl (fun d arg => up16 (d + (arg.length + 1))) d

/-- **The stack that the arguments take**: the strings, and the vector. -/
def stackNeed (argv : List (List UInt8)) : Nat := up16 (argNeed 0 argv + (argv.length + 1) * 8)

/-- The blocks of the stack: address and length of the vector and of each
string. -/
def argBlocks (argv : List (List UInt8)) (ptrs : List Nat) (sp : Nat) : List (Nat × Nat) :=
  (sp, (argv.length + 1) * 8) :: List.zipWith (fun ptr arg => (ptr, arg.length + 1)) ptrs argv

/-- **What the new program finds**: `ptrs` are the pointers in its
argument vector. -/
structure Passed (argv : List (List UInt8)) (ptrs : List Nat) (st : St) : Prop where
  argc : ptrs.length = argv.length
  a1 : st.p.regs.a1 = st.p.regs.sp
  aligned : st.p.regs.sp % 16 = 0
  base : st.p.sz - 20480 ≤ st.p.regs.sp
  vector : BytesAt st.sys.mem st.p.pagetable st.p.regs.sp ((ptrs ++ [0]).flatMap bytes64)
  string : ∀ (i : Nat) ptr arg, ptrs[i]? = some ptr → argv[i]? = some arg →
    BytesAt st.sys.mem st.p.pagetable ptr (arg ++ [0])
  inside : ∀ b ∈ argBlocks argv ptrs st.p.regs.sp, st.p.sz - 20480 ≤ b.1 ∧ b.1 + b.2 ≤ st.p.sz
  disjoint : (argBlocks argv ptrs st.p.regs.sp).Pairwise fun b c => b.1 + b.2 ≤ c.1 ∨ c.1 + c.2 ≤ b.1

section
variable {root : Frame} {role : Frame → Role} {st st' : St} {sz sp d n : Nat}
  {argv args : List (List UInt8)} {ptrs : List Nat} {m : Mem}

/-- A push that does not wrap around, counted from the end of the stack. -/
theorem pushDown_eq (hal : sz % 16 = 0) (hsz : sz ≤ trapframeVa) (hn : n ≤ sz - d) (hd : d ≤ sz) :
    pushDown (sz - d) n = sz - up16 (d + n) ∧ up16 (d + n) ≤ sz := by
  unfold trapframeVa at hsz
  unfold pushDown up16 u64
  dsimp only
  omega

theorem StringsAt.argSp_eq (h : StringsAt m root (sz - d) args ptrs) (hal : sz % 16 = 0)
    (hsz : sz ≤ trapframeVa) (hd : d ≤ sz) :
    argSp (sz - d) args = sz - argNeed d args ∧ argNeed d args ≤ sz := by
  induction args generalizing d ptrs with
  | nil => exact ⟨rfl, hd⟩
  | cons arg args ih =>
      obtain ⟨rest, -, hle, -, hrest⟩ := h
      obtain ⟨heq, hup⟩ := pushDown_eq hal hsz (show arg.length + 1 ≤ sz - d by omega) hd
      rw [heq] at hrest
      have hih := ih hrest hup
      unfold argSp argNeed at hih ⊢
      rw [List.foldl_cons, List.foldl_cons, heq]
      exact hih

theorem StringsAt.bytesAt (h : StringsAt m root sp args ptrs) {i ptr : Nat} {arg : List UInt8}
    (hp : ptrs[i]? = some ptr) (ha : args[i]? = some arg) : BytesAt m root ptr (arg ++ [0]) := by
  induction args generalizing sp ptrs i with
  | nil => cases ha
  | cons a args ih =>
      obtain ⟨rest, rfl, -, hbytes, hrest⟩ := h
      cases i with
      | zero =>
          cases hp
          cases ha
          exact hbytes
      | succ i => exact ih hrest hp ha

/-- The strings lie one below the other, down to `argSp`. -/
theorem StringsAt.blocks (h : StringsAt m root sp args ptrs) :
    (∀ b ∈ List.zipWith (fun ptr (arg : List UInt8) => (ptr, arg.length + 1)) ptrs args,
        argSp sp args ≤ b.1 ∧ b.1 + b.2 ≤ sp) ∧
      (List.zipWith (fun ptr (arg : List UInt8) => (ptr, arg.length + 1)) ptrs args).Pairwise
        fun b c => c.1 + c.2 ≤ b.1 := by
  induction args generalizing sp ptrs with
  | nil =>
      rw [List.zipWith_nil_right]
      exact ⟨fun _ hb => absurd hb List.not_mem_nil, .nil⟩
  | cons arg args ih =>
      obtain ⟨rest, rfl, hle, -, hrest⟩ := h
      obtain ⟨hin, hpair⟩ := ih hrest
      have hbelow := hrest.argSp_le
      rw [List.zipWith_cons_cons]
      refine ⟨fun b hb => ?_, .cons (fun b hb => (hin b hb).2) hpair⟩
      rw [argSp, List.foldl_cons]
      unfold argSp at hin hbelow
      rcases List.mem_cons.mp hb with rfl | hb
      · exact ⟨hbelow, hle⟩
      · obtain ⟨h1, h2⟩ := hin b hb
        exact ⟨h1, by omega⟩

/-- A started program has been passed its arguments. -/
theorem Started.passed {tf tramp : Frame} {r : Int} (h : Started argv tf tramp r root role st) :
    r = argv.length ∧ stackNeed argv ≤ 20480 ∧ ∃ ptrs, Passed argv ptrs st := by
  obtain ⟨ptrs, hr, hpush⟩ := h.pushed
  have hlen := hpush.strings.length
  have hal : st.p.sz % 16 = 0 := by
    have := h.img.aligned
    omega
  have hbase := hpush.base
  have hroom := hpush.room
  have hge := h.img.ge
  have hsp := hpush.sp_eq
  obtain ⟨hin, hpair⟩ := hpush.strings.blocks
  have hstrings : StringsAt st.sys.mem root (st.p.sz - 0) argv ptrs := hpush.strings
  obtain ⟨hneed, hneed_le⟩ := hstrings.argSp_eq hal h.img.le (Nat.zero_le _)
  rw [Nat.sub_zero] at hneed
  have hle := hpush.le
  rw [hlen] at hroom hsp
  obtain ⟨hdown, hdown_le⟩ := pushDown_eq hal h.img.le
    (show (argv.length + 1) * 8 ≤ st.p.sz - argNeed 0 argv by rw [← hneed]; omega) hneed_le
  rw [← hneed, ← hsp] at hdown
  refine ⟨by rw [hr, hlen], ?_, ptrs, hlen, h.a1, ?_, hbase, ?_, fun i ptr arg hp ha => ?_, ?_, ?_⟩
  · unfold stackNeed
    omega
  · rw [hsp]
    unfold pushDown
    dsimp only
    omega
  · rw [h.own.root_eq]
    exact hpush.vector
  · rw [h.own.root_eq]
    exact hpush.strings.bytesAt hp ha
  · intro b hb
    rcases List.mem_cons.mp hb with rfl | hb
    · exact ⟨hbase, hroom.trans hle⟩
    · obtain ⟨h1, h2⟩ := hin b hb
      omega
  · refine .cons (fun b hb => .inl ?_) (hpair.imp fun hbc => .inr hbc)
    exact hroom.trans (hin b hb).1

/-- **The arguments arrive.** For every vector that `sys_exec` can build:
a `kexec` that succeeds leaves the strings and the vector on the new
stack, and one whose arguments need more than the stack fails. Wherever
the loop gets to, the index into `ustack` is in bounds and `sp` is large
enough for what is subtracted next. -/
theorem exec_passes_arguments {path : List Char} {dirlinkOk fileallocOk : Bool}
    (h : Own root role st) (hr : InRange st.sys.mem root st.p.sz) (hcount : argv.length < 32)
    (hlen : ∀ a ∈ argv, a.length < 4096) :
    wp (fun _ => True) (kexec path argv dirlinkOk fileallocOk)
        ⟨fun r st' => r = -1 ∨ (r = argv.length ∧ stackNeed argv ≤ 20480 ∧
            ∃ ptrs, Passed argv ptrs st'),
          fun _ => False, fun _ => fileallocOk = false ∨
            ∃ ino fs exe, Finds st path dirlinkOk ino fs exe ∧ Fatal st.sys (fs.inode exe)⟩ st ∧
      ∀ new role₁ sz st₁, NewImage new role₁ (St.sys st₁) sz →
        ∀ pre post sp ustack st₂ w, argv = pre ++ post →
          pushArgs new (sz - 20480) pre sz [] st₁ = .ret (true, sp, ustack) st₂ w →
          ustack.length < 32 ∧ (∀ arg ∈ post.head?, arg.length + 1 ≤ sp) ∧
            (post = [] → (ustack.length + 1) * 8 ≤ sp) := by
  have hok : ∀ a ∈ argv, ArgOk a := fun a ha => (hlen a ha).trans (by decide)
  constructor
  · exact (kexec_started h hr hok).mono
      (fun r st' hd => hd.1.imp id fun ⟨_, _, hs⟩ => hs.passed) (fun _ hf => hf) fun _ hp => hp
  · rintro new role₁ sz st₁ himg pre post sp ustack st₂ w rfl hrun
    have hpre : ∀ a ∈ pre, ArgOk a := fun a ha => hok a (List.mem_append_left _ ha)
    have hpost := (pushArgs_stack himg hpre (Nat.le_refl sz) (Nat.sub_le _ _) (by decide)).of_ret
      hrun fun _ _ => trivial
    obtain ⟨-, -, hbase⟩ := hpost.sp_eq rfl
    obtain ⟨-, ptrs, hptrs, hplaced⟩ := hpost.ptrs rfl
    have hu : ustack.length = pre.length := by
      rw [show ustack = ptrs from hptrs, hplaced.length]
    have hge := himg.ge
    dsimp only at hbase
    rw [List.length_append] at hcount
    refine ⟨by omega, fun arg harg => ?_, fun _ => by omega⟩
    have hmem : arg ∈ post := List.mem_of_mem_head? harg
    have := hlen arg (List.mem_append_right _ hmem)
    omega

end

/-- The argument `hi` on the stack of a new program. -/
theorem exec_passes_arguments_hi :
    ∃ st' w ptrs, kexec ['a'] [[104, 105]] true true
      (startedSt.withFs (oneFile (oneSegment 0 4096))) = .ret 1 st' w ∧
      Passed [[104, 105]] ptrs st' := by
  obtain ⟨role, hown⟩ := own_startedSt.1
  have heval : Out.returns 1 (kexec ['a'] [[104, 105]] true true
      (startedSt.withFs (oneFile (oneSegment 0 4096)))) = true := by decide +kernel
  obtain ⟨st', w, hrun⟩ := Out.of_returns heval
  have hspec := (exec_passes_arguments (hown.withFs _) (startedSt_fresh.1.withFs _).inRange
    (by decide) (by decide)).1.of_ret hrun fun _ _ => trivial
  rcases hspec with hc | ⟨-, -, ptrs, hpassed⟩
  · cases hc
  · exact ⟨st', w, ptrs, hrun, hpassed⟩

end OsSuite.Xv6
