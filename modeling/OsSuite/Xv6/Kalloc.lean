import OsSuite.Lib.Prog
import OsSuite.Xv6.Elf

/-!
# Kalloc — physical memory and its owners

The machine state below a process: physical memory, the allocator's free
list (`kalloc.c`) and the file system.

Other CPUs allocate and free at any moment. What they hold is `held`;
`script` says what they do to the free list just before each of the
coming `kalloc` calls (nothing, when it is empty). So a `kalloc` can fail
at any call, and a frame freed a moment ago can be gone.

Who owns a frame is not recorded anywhere in the kernel. `Role` is the
owner a frame SHOULD have, and `SysInv role s` says that the free list
agrees with such an assignment. A role is one value per frame, so no
frame has two owners; this is the only aliasing argument the page-table
proofs need.
-/

namespace OsSuite.Xv6

/-- What another CPU does to the free list. -/
inductive Intf where
  | take
  | give (i : Nat)

structure Sys where
  /-- `end`, as a page number: the first allocatable frame. -/
  kend : Nat
  /-- The kernel text page that holds `trampoline.S`. -/
  tramp : Frame
  freelist : List Frame
  held : List Frame
  script : List (List Intf)
  mem : Frame → Cell
  /-- Uninitialised bytes of a kernel stack. -/
  stack : Nat → UInt8
  fs : Fs

/-- What a run is observed to do. -/
inductive Event where
  /-- `evict_page` was entered with this `num_resident`. -/
  | evict (numResident : Int)
  /-- `handle_pgfault` has a frame for page `va` and looks the page up,
  with this `sz` and `heap_start`; `swapped` is whether the page is
  recorded as swapped out. -/
  | fault (va sz heapStart : Nat) (swapped : Bool)
  /-- The resident list gained this entry. -/
  | inserted (va : Nat) (seq : Int) (dirty : Bool)
  /-- The resident list lost this entry. -/
  | removed (va : Nat) (seq : Int) (dirty : Bool)
  /-- The resident entry with this number was marked dirty. -/
  | marked (seq : Int)
  /-- A page is about to be written to this swap slot. `used` are the slots
  recorded for other pages; `size` is the size of the swap file, `none`
  when `swap_file` is null. -/
  | swapOut (slot : Nat) (used : List Nat) (size : Option Nat)
  /-- No slot was found for a page; `used` as before. -/
  | swapFull (used : List Nat)
  /-- That write did not go through; so many disk blocks are free. -/
  | swapFail (nfree : Nat)
  /-- `kexec` gave the process a swap file. -/
  | swapFile
  /-- The resident list was emptied. -/
  | reset
  /-- `allocproc` took this slot and emptied its lists. -/
  | alloc (slot : Nat)
  /-- `kfork` copied the caller's lists to this slot. -/
  | forked (slot : Nat)
  /-- `evict_page` returned 0: it was called for the table `root` in the
  state `s` with `n` resident pages, took the page `va` away, and left
  `s'` and `n'`. -/
  | evicted (root : Frame) (va : Nat) (n n' : Int) (s s' : Sys)

/-- `PHYSTOP`, as a page number. -/
def phystop : Nat := 557056

namespace Sys

def setCell (s : Sys) (f : Frame) (c : Cell) : Sys :=
  { s with mem := Function.update s.mem f c }

def intf (s : Sys) : Intf → Sys
  | .take =>
    match s.freelist with
    | [] => s
    | f :: rest => { s with freelist := rest, held := f :: s.held }.setCell f (Cell.fill 5)
  | .give i =>
    match s.held[i]? with
    | none => s
    | some f =>
      { s with freelist := f :: s.freelist, held := s.held.eraseIdx i }.setCell f (Cell.fill 1)

/-- The other CPUs' turn before a `kalloc`. -/
def others (s : Sys) : Sys :=
  match s.script with
  | [] => s
  | g :: rest => g.foldl intf { s with script := rest }

end Sys

/-- `kalloc()` -/
def kalloc : Prog Sys Event (Option Frame) := fun s =>
  let s := s.others
  match s.freelist with
  | [] => .ret none s []
  | f :: rest => .ret (some f) ({ s with freelist := rest }.setCell f (Cell.fill 5)) []

/-- `kfree(pa)` -/
def kfree (f : Frame) : Prog Sys Event Unit := fun s =>
  if f < s.kend || phystop ≤ f then .panic "kfree" []
  else .ret () ({ s with freelist := f :: s.freelist }.setCell f (Cell.fill 1)) []

/-- `memset(pa, 0, PGSIZE)` -/
def zeroFrame (f : Frame) : Prog Sys Event Unit :=
  Prog.modify fun s => s.setCell f (Cell.fill 0)

/-! ## Ownership -/

/-- What a page table uses a frame for: the root, the table below root
entry `i`, the table below entry `j` of that, or the page at `va`. -/
inductive Use where
  | top
  | mid (i : Nat)
  | low (i j : Nat)
  | page (va : Nat)
  deriving DecidableEq

inductive Role where
  /-- Not managed by the allocator. -/
  | kernel
  | free
  /-- In the hands of other CPUs. -/
  | held
  /-- Allocated, and in no table: on its way to one, or leaked. -/
  | lost
  /-- The trapframe page of process slot `i`. -/
  | trapframe (i : Nat)
  | owned (root : Frame) (use : Use)
  deriving DecidableEq

/-- The allocator may hand the frame out. -/
def Role.idle : Role → Bool
  | .free | .held => true
  | _ => false

/-- Neither idle nor part of the page table at `root`. -/
def Role.foreign (root : Frame) : Role → Bool
  | .free | .held => false
  | .owned r _ => r != root
  | _ => true

theorem Role.not_idle_of_foreign {root : Frame} {r : Role} (h : r.foreign root = true) :
    r.idle = false := by
  cases r <;> simp_all [Role.foreign, Role.idle]

/-- **The free list agrees with the owners.** -/
structure SysInv (role : Frame → Role) (s : Sys) : Prop where
  free_nodup : s.freelist.Nodup
  mem_free : ∀ f, f ∈ s.freelist ↔ role f = .free
  held_nodup : s.held.Nodup
  mem_held : ∀ f, f ∈ s.held ↔ role f = .held
  valid : ∀ f, role f ≠ .kernel → s.kend ≤ f ∧ f < phystop
  kend_le : 524288 ≤ s.kend

/-- Frames whose role satisfies `P` keep it, and their contents. -/
structure Kept (P : Role → Bool) (role role' : Frame → Role) (m m' : Frame → Cell) : Prop where
  role_eq : ∀ f, P (role f) = true → role' f = role f
  mem_eq : ∀ f, P (role f) = true → m' f = m f

theorem Kept.refl (P : Role → Bool) (role : Frame → Role) (m : Frame → Cell) :
    Kept P role role m m := ⟨fun _ _ => rfl, fun _ _ => rfl⟩

theorem Kept.trans {P : Role → Bool} {r₁ r₂ r₃ : Frame → Role} {m₁ m₂ m₃ : Frame → Cell}
    (h : Kept P r₁ r₂ m₁ m₂) (h' : Kept P r₂ r₃ m₂ m₃) : Kept P r₁ r₃ m₁ m₃ where
  role_eq f hf := by
    have hr := h.role_eq f hf
    rw [h'.role_eq f (by rw [hr]; exact hf), hr]
  mem_eq f hf := by
    have hr := h.role_eq f hf
    rw [h'.mem_eq f (by rw [hr]; exact hf), h.mem_eq f hf]

theorem Kept.mono {P Q : Role → Bool} {r₁ r₂ : Frame → Role} {m₁ m₂ : Frame → Cell}
    (h : Kept Q r₁ r₂ m₁ m₂) (hPQ : ∀ r, P r = true → Q r = true) : Kept P r₁ r₂ m₁ m₂ :=
  ⟨fun f hf => h.role_eq f (hPQ _ hf), fun f hf => h.mem_eq f (hPQ _ hf)⟩

/-- Everything but the allocator's lists and the memory is as before. -/
structure SameConf (s s' : Sys) : Prop where
  kend : s'.kend = s.kend
  tramp : s'.tramp = s.tramp
  stack : s'.stack = s.stack
  fs : s'.fs = s.fs

theorem SameConf.refl (s : Sys) : SameConf s s := ⟨rfl, rfl, rfl, rfl⟩

theorem SameConf.trans {s₁ s₂ s₃ : Sys} (h : SameConf s₁ s₂) (h' : SameConf s₂ s₃) :
    SameConf s₁ s₃ :=
  ⟨h'.kend.trans h.kend, h'.tramp.trans h.tramp, h'.stack.trans h.stack, h'.fs.trans h.fs⟩

theorem SameConf.setCell (s : Sys) (f : Frame) (c : Cell) : SameConf s (s.setCell f c) :=
  ⟨rfl, rfl, rfl, rfl⟩

/-- The role of a busy frame may change to another busy role. -/
theorem SysInv.update {role : Frame → Role} {s : Sys} (h : SysInv role s) {f : Frame} {r : Role}
    (hf : (role f).idle = false) (hk : role f ≠ .kernel) (hr : r.idle = false) (c : Cell) :
    SysInv (Function.update role f r) (s.setCell f c) where
  free_nodup := h.free_nodup
  mem_free g := by
    rw [show (s.setCell f c).freelist = s.freelist from rfl, h.mem_free, Function.update_apply]
    split
    · rename_i he
      subst he
      constructor
      · intro hg; rw [hg] at hf; simp [Role.idle] at hf
      · intro hg; rw [hg] at hr; simp [Role.idle] at hr
    · rfl
  held_nodup := h.held_nodup
  mem_held g := by
    rw [show (s.setCell f c).held = s.held from rfl, h.mem_held, Function.update_apply]
    split
    · rename_i he
      subst he
      constructor
      · intro hg; rw [hg] at hf; simp [Role.idle] at hf
      · intro hg; rw [hg] at hr; simp [Role.idle] at hr
    · rfl
  valid g hg := by
    rw [Function.update_apply] at hg
    split at hg
    · rename_i he
      subst he
      exact h.valid _ hk
    · exact h.valid _ hg
  kend_le := h.kend_le

theorem SysInv.setCell {role : Frame → Role} {s : Sys} (h : SysInv role s) (f : Frame)
    (c : Cell) : SysInv role (s.setCell f c) :=
  ⟨h.free_nodup, h.mem_free, h.held_nodup, h.mem_held, h.valid, h.kend_le⟩

theorem SysInv.role_head {role : Frame → Role} {s : Sys} (h : SysInv role s) {f : Frame}
    {rest : List Frame} (hl : s.freelist = f :: rest) : role f = .free :=
  (h.mem_free f).mp (by rw [hl]; exact List.mem_cons_self)

/-- A frame leaves the free list. -/
theorem SysInv.pop {role : Frame → Role} {s : Sys} (h : SysInv role s) {f : Frame}
    {rest : List Frame} (hl : s.freelist = f :: rest) (c : Cell) :
    SysInv (Function.update role f .lost) ({ s with freelist := rest }.setCell f c) where
  free_nodup := by
    have := h.free_nodup
    rw [hl] at this
    exact (List.nodup_cons.mp this).2
  mem_free g := by
    have hnd := h.free_nodup
    have hm := h.mem_free g
    rw [hl] at hnd hm
    have hnot := (List.nodup_cons.mp hnd).1
    show g ∈ rest ↔ _
    rw [Function.update_apply]
    split
    · rename_i he
      subst he
      exact ⟨fun hg => absurd hg hnot, fun hg => by simp at hg⟩
    · rename_i he
      rw [← hm, List.mem_cons]
      exact ⟨.inr, fun hg => hg.resolve_left he⟩
  held_nodup := h.held_nodup
  mem_held g := by
    show g ∈ s.held ↔ _
    rw [h.mem_held, Function.update_apply]
    split
    · rename_i he
      subst he
      simp [h.role_head hl]
    · rfl
  valid g hg := by
    rw [Function.update_apply] at hg
    split at hg
    · rename_i he
      subst he
      exact h.valid _ (by rw [h.role_head hl]; simp)
    · exact h.valid _ hg
  kend_le := h.kend_le

/-- A busy frame joins the free list. -/
theorem SysInv.push {role : Frame → Role} {s : Sys} (h : SysInv role s) {f : Frame}
    (hf : (role f).idle = false) (hk : role f ≠ .kernel) (c : Cell) :
    SysInv (Function.update role f .free)
      ({ s with freelist := f :: s.freelist }.setCell f c) where
  free_nodup := by
    refine List.nodup_cons.mpr ⟨fun hm => ?_, h.free_nodup⟩
    rw [(h.mem_free f).mp hm] at hf
    simp [Role.idle] at hf
  mem_free g := by
    show g ∈ f :: s.freelist ↔ _
    rw [List.mem_cons, Function.update_apply]
    split
    · rename_i he; simp [he]
    · rename_i he
      rw [← h.mem_free]
      exact ⟨fun hg => hg.resolve_left he, .inr⟩
  held_nodup := h.held_nodup
  mem_held g := by
    show g ∈ s.held ↔ _
    rw [h.mem_held, Function.update_apply]
    split
    · rename_i he
      subst he
      constructor
      · intro hg; rw [hg] at hf; simp [Role.idle] at hf
      · intro hg; simp at hg
    · rfl
  valid g hg := by
    rw [Function.update_apply] at hg
    split at hg
    · rename_i he
      subst he
      exact h.valid _ hk
    · exact h.valid _ hg
  kend_le := h.kend_le

/-- A frame in flight goes to another CPU. -/
theorem SysInv.hold {role : Frame → Role} {s : Sys} (h : SysInv role s) {f : Frame}
    (hf : role f = .lost) : SysInv (Function.update role f .held) { s with held := f :: s.held } where
  free_nodup := h.free_nodup
  mem_free g := by
    show g ∈ s.freelist ↔ _
    rw [h.mem_free, Function.update_apply]
    split
    · rename_i he; subst he; simp [hf]
    · rfl
  held_nodup := by
    refine List.nodup_cons.mpr ⟨fun hm => ?_, h.held_nodup⟩
    rw [(h.mem_held f).mp hm] at hf
    cases hf
  mem_held g := by
    show g ∈ f :: s.held ↔ _
    rw [List.mem_cons, Function.update_apply]
    split
    · rename_i he; simp [he]
    · rename_i he
      rw [← h.mem_held]
      exact ⟨fun hg => hg.resolve_left he, .inr⟩
  valid g hg := by
    rw [Function.update_apply] at hg
    split at hg
    · rename_i he; subst he; exact h.valid _ (by rw [hf]; simp)
    · exact h.valid _ hg
  kend_le := h.kend_le

/-- Another CPU gives a frame up. -/
theorem SysInv.unhold {role : Frame → Role} {s : Sys} (h : SysInv role s) {f : Frame} {i : Nat}
    (hi : s.held[i]? = some f) :
    SysInv (Function.update role f .lost) { s with held := s.held.eraseIdx i } := by
  obtain ⟨hilt, hif⟩ := List.getElem?_eq_some_iff.mp hi
  have hheld : role f = .held := (h.mem_held f).mp (List.mem_of_getElem? hi)
  have hperm : (f :: s.held.eraseIdx i).Perm s.held := by
    rw [← hif]; exact List.getElem_cons_eraseIdx_perm hilt
  have hnd := List.nodup_cons.mp (hperm.nodup_iff.mpr h.held_nodup)
  refine ⟨h.free_nodup, fun g => ?_, hnd.2, fun g => ?_, fun g hg => ?_, h.kend_le⟩
  · show g ∈ s.freelist ↔ _
    rw [h.mem_free, Function.update_apply]
    split
    · rename_i he; subst he; simp [hheld]
    · rfl
  · show g ∈ s.held.eraseIdx i ↔ _
    rw [Function.update_apply]
    split
    · rename_i he
      subst he
      exact ⟨fun hg => absurd hg hnd.1, fun hg => by cases hg⟩
    · rename_i he
      rw [← h.mem_held, ← hperm.mem_iff, List.mem_cons]
      exact ⟨.inr, fun hg => hg.resolve_left he⟩
  · rw [Function.update_apply] at hg
    split at hg
    · rename_i he; subst he; exact h.valid _ (by rw [hheld]; simp)
    · exact h.valid _ hg

/-! ## Interference and the allocator -/

/-- A change of one frame from an idle role to an idle role. -/
theorem Kept.idle_move {role : Frame → Role} {m : Frame → Cell} {f : Frame} {r : Role}
    (hf : (role f).idle = true) (c : Cell) :
    Kept (fun r => !r.idle) role (Function.update role f r) m (Function.update m f c) := by
  have hne : ∀ g, (!(role g).idle) = true → g ≠ f := by
    rintro g hg rfl
    simp [hf] at hg
  exact ⟨fun g hg => Function.update_of_ne (hne g hg) _ _,
    fun g hg => Function.update_of_ne (hne g hg) _ _⟩

theorem idle_update {role : Frame → Role} {f : Frame} {r : Role} (hf : (role f).idle = true)
    (hr : r.idle = true) (g : Frame) :
    (role g).idle = (Function.update role f r g).idle := by
  rw [Function.update_apply]
  split
  · rename_i he; rw [he, hf, hr]
  · rfl

/-- One action of another CPU only moves idle frames. -/
theorem SysInv.intf {role : Frame → Role} {s : Sys} (h : SysInv role s) (a : Intf) :
    ∃ role', SysInv role' (s.intf a) ∧ SameConf s (s.intf a) ∧
      (∀ f, (role f).idle = (role' f).idle) ∧
      Kept (fun r => !r.idle) role role' s.mem (s.intf a).mem := by
  unfold Sys.intf
  cases a with
  | take =>
      dsimp only
      cases hl : s.freelist with
      | nil => exact ⟨role, h, .refl s, fun _ => rfl, .refl _ _ _⟩
      | cons f rest =>
          have hfree := h.role_head hl
          have hidle : (role f).idle = true := by rw [hfree]; rfl
          have h' := (h.pop hl (Cell.fill 5)).hold (f := f) (by simp)
          rw [Function.update_idem] at h'
          exact ⟨_, h', ⟨rfl, rfl, rfl, rfl⟩, idle_update hidle rfl, .idle_move hidle _⟩
  | give i =>
      dsimp only
      cases hi : s.held[i]? with
      | none => exact ⟨role, h, .refl s, fun _ => rfl, .refl _ _ _⟩
      | some f =>
          have hheld : role f = .held :=
            (h.mem_held f).mp (List.mem_of_getElem? hi)
          have hidle : (role f).idle = true := by rw [hheld]; rfl
          have h' := (h.unhold hi).push (f := f) (by simp [Role.idle]) (by simp) (Cell.fill 1)
          rw [Function.update_idem] at h'
          exact ⟨_, h', ⟨rfl, rfl, rfl, rfl⟩, idle_update hidle rfl, .idle_move hidle _⟩

theorem SysInv.intfs {role : Frame → Role} {s : Sys} (h : SysInv role s) (g : List Intf) :
    ∃ role', SysInv role' (g.foldl Sys.intf s) ∧ SameConf s (g.foldl Sys.intf s) ∧
      (∀ f, (role f).idle = (role' f).idle) ∧
      Kept (fun r => !r.idle) role role' s.mem (g.foldl Sys.intf s).mem := by
  induction g generalizing role s with
  | nil => exact ⟨role, h, .refl s, fun _ => rfl, .refl _ _ _⟩
  | cons a g ih =>
      obtain ⟨r₁, h₁, c₁, i₁, k₁⟩ := h.intf a
      obtain ⟨r₂, h₂, c₂, i₂, k₂⟩ := ih h₁
      exact ⟨r₂, h₂, c₁.trans c₂, fun f => (i₁ f).trans (i₂ f), k₁.trans k₂⟩

theorem SysInv.others {role : Frame → Role} {s : Sys} (h : SysInv role s) :
    ∃ role', SysInv role' s.others ∧ SameConf s s.others ∧
      (∀ f, (role f).idle = (role' f).idle) ∧
      Kept (fun r => !r.idle) role role' s.mem s.others.mem := by
  unfold Sys.others
  cases s.script with
  | nil => exact ⟨role, h, .refl s, fun _ => rfl, .refl _ _ _⟩
  | cons g rest =>
      have h₀ : SysInv role { s with script := rest } :=
        ⟨h.free_nodup, h.mem_free, h.held_nodup, h.mem_held, h.valid, h.kend_le⟩
      obtain ⟨r, hr, hc, hi, hk⟩ := h₀.intfs g
      exact ⟨r, hr, ⟨hc.kend, hc.tramp, hc.stack, hc.fs⟩, hi, hk⟩

/-- **`kalloc`**: either the other CPUs left nothing, or an idle frame is
now in flight. No busy frame is touched. -/
theorem kalloc_spec {A : Event → Prop} {role : Frame → Role} {s : Sys} (h : SysInv role s) :
    wp A kalloc ⟨fun r s' => ∃ role', SysInv role' s' ∧ SameConf s s' ∧
        Kept (fun r => !r.idle) role role' s.mem s'.mem ∧
        (match r with
          | none => s.others.freelist = []
          | some f => (role f).idle = true ∧ role' f = .lost),
      fun _ => False, fun _ => False⟩ s := by
  obtain ⟨r₁, h₁, c₁, i₁, k₁⟩ := h.others
  unfold wp kalloc
  cases hl : s.others.freelist with
  | nil =>
      simp only [hl]
      exact fun _ => ⟨r₁, h₁, c₁, k₁, trivial⟩
  | cons f rest =>
      simp only [hl]
      intro _
      have hidle : (r₁ f).idle = true := by rw [h₁.role_head hl]; rfl
      exact ⟨_, h₁.pop hl _, c₁.trans ⟨rfl, rfl, rfl, rfl⟩, k₁.trans (.idle_move hidle _),
        (i₁ f).trans hidle, Function.update_self ..⟩

/-- **`kfree`** of a busy frame: it becomes free, nothing else moves. -/
theorem kfree_spec {A : Event → Prop} {role : Frame → Role} {s : Sys} (h : SysInv role s)
    {f : Frame} (hf : (role f).idle = false) (hk : role f ≠ .kernel) {Q : Post Sys Unit}
    (hQ : SysInv (Function.update role f .free)
        ({ s with freelist := f :: s.freelist }.setCell f (Cell.fill 1)) →
      Q.ret () ({ s with freelist := f :: s.freelist }.setCell f (Cell.fill 1))) :
    wp A (kfree f) Q s := by
  obtain ⟨h1, h2⟩ := h.valid f hk
  have hc : (f < s.kend || phystop ≤ f) = false := by
    simp only [Bool.or_eq_false_iff, decide_eq_false_iff_not]
    exact ⟨Nat.not_lt.mpr h1, Nat.not_le.mpr h2⟩
  unfold wp kfree
  simp only [hc]
  exact fun _ => hQ (h.push hf hk _)

/-- `kfree` of anything at all. -/
theorem kfree_any {A : Event → Prop} {s : Sys} {f : Frame} {Q : Post Sys Unit}
    (hr : ∀ s', Q.ret () s') (hp : ∀ m, Q.panic m) : wp A (kfree f) Q s := by
  unfold wp kfree
  split
  · exact fun _ => hp _
  · exact fun _ => hr _

end OsSuite.Xv6
