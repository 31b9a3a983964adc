import OsSuite.Xv6.SelfWait
import OsSuite.Xv6.SpinRules

/-!
# Kill — what a process holds when a page fault gives it up

`evict_page` and `add_to_resident_set` call `kexit` when there is no swap
space, when the swap file cannot be written and when the resident set is
full. They run inside `copyin` or `copyout`, in the middle of a system
call. `kexit` closes the files of the process and never returns: what the
system call holds at that moment, a buffer, an inode, a spinlock or an
open transaction, is never given back.

The system calls that copy fall into three groups: `read` and `write` of a
file copy with a buffer and the inode locked, the pipe, console and wait
calls with spinlocks; and those collected here as `BareCall` copy with
nothing in their hands.
-/

namespace OsSuite.Xv6

namespace Reentry

open Held

variable {e : Entry} {p : Proc} {v v' v₂ : Vol} {w w₂ : List LockEv} {h : Held}

/-! ## The kill -/

/-- **A page fault calls `kexit`**, as the process `p` in the volume `v'`,
after the observations `w`. -/
inductive Kills (e : Entry) (v : Vol) : Proc → Vol → List LockEv → Prop where
  | swapFull (hva : e.va < maxva) (hfree : e.free = false)
      (hdirty : (e.p.residentPages e.p.victim).dirty = true) (hslot : e.p.freeSlot = none) :
      Kills e v e.p v []
  | refused {slot : Nat} {v' : Vol} {w : List LockEv} (hva : e.va < maxva) (hfree : e.free = false)
      (hdirty : (e.p.residentPages e.p.victim).dirty = true) (hslot : e.p.freeSlot = some slot)
      (hwrite : transact e.out (io (swapWritePage slot e.p.swapFile e.page)) v = .ret false v' w) :
      Kills e v (e.p.takeSlot slot) v' w
  | residentFull {p : Proc} {v₁ v₂ : Vol} {w₁ w₂ : List LockEv} (hva : e.va < maxva)
      (halloc : allocOrEvict e v = .ret p v₁ w₁)
      (hfetch : fetchPage e p (pgrounddown e.va) v₁ = .ret true v₂ w₂)
      (hfull : maxResidentPages ≤ p.numResident) : Kills e v p v₂ (w₁ ++ w₂)

/-- Runs of `kexit` do not depend on what the caller waits for. -/
theorem kexit_exit {α β : Type} {X : Exiting} (hx : (kexit X p : FaultProg α) v = .exit v₂ w) :
    (kexit X p : FaultProg β) v = .exit v₂ w := by
  unfold kexit at hx ⊢
  by_cases hinit : p.isInit = true
  · rw [if_pos hinit] at hx
    cases hx
  · rw [if_neg hinit] at hx ⊢
    refine Prog.bind_exit_congr hx fun _ _ _ hx => Prog.bind_exit_congr hx fun _ _ _ hx =>
      Prog.bind_exit_congr hx fun _ _ _ hx => ?_
    cases hx
    rfl

/-- What the handler does when it has called `kexit`. -/
theorem Kills.exits {α : Type} (hk : Kills e v p v' w)
    (hx : (kexit e.exiting p : FaultProg α) v' = .exit v₂ w₂) :
    handlePgfault e v = .exit v₂ (w ++ w₂) := by
  have hfault : ∀ {o}, (e.va < maxva) → allocOrEvict e v = .exit v₂ o →
      handlePgfault e v = .exit v₂ o := fun hva h => by
    rw [handlePgfault, if_neg (by omega), Prog.bind_exit h]
  have hevict : ∀ {o}, e.free = false → saveVictim e v = .exit v₂ o →
      allocOrEvict e v = .exit v₂ o := fun hfree h => by
    have hevict : evictPage e v = .exit v₂ _ := Prog.bind_exit h
    rw [allocOrEvict, if_neg (by rw [hfree]; exact Bool.false_ne_true), Prog.bind_exit hevict]
  cases hk with
  | swapFull hva hfree hdirty hslot =>
      refine hfault hva (hevict hfree ?_)
      rw [saveVictim, if_pos hdirty, swapOut, hslot]
      exact kexit_exit hx
  | refused hva hfree hdirty hslot hwrite =>
      refine hfault hva (hevict hfree ?_)
      rw [saveVictim, if_pos hdirty, swapOut, hslot]
      dsimp only
      rw [Prog.bind_ret hwrite, if_neg Bool.false_ne_true, kexit_exit hx]
      rfl
  | @residentFull p v₁ _ w₁ w₃ hva halloc hfetch hfull =>
      rw [handlePgfault, if_neg (by omega), Prog.bind_ret halloc, Prog.bind_ret hfetch, if_pos rfl,
        addToResidentSet, if_pos hfull, Prog.bind_exit (kexit_exit hx)]
      simp [Out.after]

/-- `kexit` is called, and the process is gone. -/
def KilledBy (e : Entry) (v v₂ : Vol) (w₂ : List LockEv) : Prop :=
  ∃ p v' w w', Kills e v p v' w ∧ (kexit e.exiting p : FaultProg Unit) v' = .exit v₂ w' ∧
    w₂ = w ++ w'

/-- In the allocation: the victim cannot be saved. -/
theorem killedBy_of_alloc (he : e.Sane) (hv : v.Wf) (hva : e.va < maxva)
    (hx : allocOrEvict e v = .exit v₂ w₂) : KilledBy e v v₂ w₂ := by
  have hdrop : ∀ {i p v v₂ w}, (dropVictim i p : FaultProg Proc) v ≠ .exit v₂ w :=
    fun {i p v v₂ w} hx => by
      unfold dropVictim at hx
      cases hlast : p.residentAt (p.numResident - 1) <;> rw [hlast] at hx <;> cases hx
  have hfree : e.free = false := Bool.eq_false_iff.mpr fun hfree => by
    rw [allocOrEvict, if_pos hfree] at hx
    cases hx
  rw [allocOrEvict, if_neg (by rw [hfree]; exact Bool.false_ne_true)] at hx
  rcases Prog.bind_eq_exit hx with hevict | ⟨p, v₁, w₁, w', -, hrest, -⟩
  · rcases Prog.bind_eq_exit hevict with hsave | ⟨p, v₁, w₁, w', -, hrest, -⟩
    · by_cases hdirty : (e.p.residentPages e.p.victim).dirty = true
      · rw [saveVictim, if_pos hdirty, swapOut] at hsave
        cases hslot : e.p.freeSlot with
        | none =>
            rw [hslot] at hsave
            exact ⟨_, _, _, w₂, .swapFull hva hfree hdirty hslot, kexit_exit hsave, rfl⟩
        | some slot =>
            rw [hslot] at hsave
            rcases Prog.bind_eq_exit hsave with hwrite | ⟨ok, v₁, w₁, w', hwrite, hexit, rfl⟩
            · exact ((stays_transact he.out (stays_swapWritePage _ _ _) nothing v hv).of_exit
                hwrite).elim
            · cases ok with
              | true => cases hexit
              | false =>
                  exact ⟨_, _, _, w', .refused hva hfree hdirty hslot hwrite, kexit_exit hexit, rfl⟩
      · rw [saveVictim, if_neg hdirty] at hsave
        cases hsave
    · exact absurd hrest hdrop
  · cases hfreed : e.freed <;> rw [hfreed] at hrest <;> cases hrest

/-- **The process is killed in no other way.** -/
theorem killedBy_of_exit (he : e.Sane) (hv : v.Wf) (hx : handlePgfault e v = .exit v₂ w₂) :
    KilledBy e v v₂ w₂ := by
  have hva : e.va < maxva := Nat.lt_of_not_le fun hva => by
    rw [handlePgfault, if_pos hva] at hx
    cases hx
  rw [handlePgfault, if_neg (by omega)] at hx
  rcases Prog.bind_eq_exit hx with halloc | ⟨p, v₁, w₁, w', halloc, hrest, rfl⟩
  · exact killedBy_of_alloc he hv hva halloc
  obtain ⟨-, hv₁, -⟩ := (neutral_allocOrEvict he nothing v hv).of_ret halloc
  rcases Prog.bind_eq_exit hrest with hfetch | ⟨ok, v₃, w₃, w', hfetch, hadd, rfl⟩
  · exact ((stays_fetchPage he nothing v₁ hv₁).of_exit hfetch).elim
  cases ok with
  | false => cases hadd
  | true =>
      rw [if_pos rfl] at hadd
      rcases Prog.bind_eq_exit hadd with hexit | ⟨_, v₄, w₄, w'', -, hpure, -⟩
      · by_cases hfull : maxResidentPages ≤ p.numResident
        · rw [addToResidentSet, if_pos hfull] at hexit
          exact ⟨_, _, _, w', .residentFull hva halloc hfetch hfull, kexit_exit hexit,
            (List.append_assoc _ _ _).symm⟩
        · rw [addToResidentSet, if_neg hfull] at hexit
          cases hexit
      · cases hpure

/-! ### What the handler holds at the kill -/

theorem after_eq_heldAfter (h : Held) (w : List LockEv) :
    (watchOps False).after h w = Locks.heldAfter h w := by
  induction w generalizing h with
  | nil => rfl
  | cons e w ih => cases e <;> exact ih _

/-- **The handler itself holds nothing when it calls `kexit`.** -/
theorem Kills.held (hk : Kills e v p v' w) (he : e.Sane) (hv : v.Wf) :
    Locks.heldAfter h w = h ∧ ∀ s ∈ p.swapFile, s < ninodes := by
  rw [← after_eq_heldAfter]
  cases hk with
  | swapFull => exact ⟨rfl, he.swap⟩
  | refused hva hfree hdirty hslot hwrite =>
      exact ⟨((stays_transact he.out (stays_swapWritePage _ _ _) h v hv).of_ret hwrite).1, he.swap⟩
  | residentFull hva halloc hfetch hfull =>
      obtain ⟨hheld, hv₁, hswap⟩ := (neutral_allocOrEvict he h v hv).of_ret halloc
      refine ⟨?_, hswap ▸ he.swap⟩
      rw [Watcher.after_append, hheld]
      exact ((stays_fetchPage he h _ hv₁).of_ret hfetch).1

/-- **`kexit` gives back what it takes**, and no more. -/
theorem heldAfter_kexit {α : Type} {X : Exiting} (hX : X.Sane) (hp : ∀ s ∈ p.swapFile, s < ninodes)
    (hx : (kexit X p : FaultProg α) v' = .exit v₂ w₂) : Locks.heldAfter h w₂ = h := by
  rw [← after_eq_heldAfter]
  exact (neutral_kexit (J := fun _ => True) hX hp h v' trivial).of_exit hx

end Reentry

/-- What the process has after some observations. -/
def Cpu.after (x : Cpu) (w : List LockEv) : Cpu := { x with ops := Locks.heldAfter x.ops w }

/-- It holds no buffer, no inode and no spinlock, and has no transaction
open. -/
def Cpu.Free (x : Cpu) : Prop := x.spins = [] ∧ x.ops = .nothing

namespace Locks

open Reentry

/-! ## System calls that copy with nothing in their hands -/

/-- The loop of `uartwrite` from byte `i` on, with `n` bytes to go; it
waits for the device before a byte. -/
def uartLoop (f : Nat → Round) : Nat → Nat → KProg Unit
  | _, 0 => pure ()
  | i, n + 1 => do
      times (f i).waits (sleep .uart)
      uartLoop f (i + 1) n

/-- `uartwrite(buf, n)` -/
def uartwrite (f : Nat → Round) (i n : Nat) : KProg Unit := do
  acquire .uart
  uartLoop f i n
  release .uart

/-- The loop of `consolewrite`: 32 bytes at a time. -/
def consolewriteLoop (f : Nat → Round) (copy : Nat → KProg Bool) (n : Nat) : Nat → Nat → KProg Int
  | 0, i => pure i
  | fuel + 1, i =>
      if i < n then do
        if ← copy i then
          uartwrite f i (min 32 (n - i))
          consolewriteLoop f copy n fuel (i + min 32 (n - i))
        else pure i
      else pure i

/-- `consolewrite(1, src, n)` -/
def consolewrite (f : Nat → Round) (copy : Nat → KProg Bool) (n : Int) : KProg Int :=
  consolewriteLoop f copy n.toNat (n.toNat + 1) 0

/-- The result of a single copy. -/
def copyOnce (copy : Nat → KProg Bool) : KProg Int := do
  if ← copy 0 then pure 0 else pure (-1)

/-- `filestat(f, addr)` for an inode: it copies after `iunlock`. -/
def filestat (reply : Nat → Reply) (copy : Nat → KProg Bool) (i : Nat) : KProg Int := do
  perform (reply 0) (.io (.ilock i))
  perform (reply 1) (.io (.iunlock i))
  copyOnce copy

/-- `pipeclose(pi, writable)` -/
def pipeclose : KProg Unit := do
  acquire .pipe
  wakeup
  release .pipe

/-- The end of `sys_pipe` if a descriptor cannot be copied: both files are
closed. -/
def pipeFailed : KProg Int := do
  pipeclose
  pipeclose
  pure (-1)

/-- `sys_pipe()`, after the two files are there. -/
def sysPipe (copy : Nat → KProg Bool) : KProg Int := do
  if ← copy 0 then
    if ← copy 1 then pure 0 else pipeFailed
  else pipeFailed

/-- `sys_memstat()` -/
def sysMemstat (copy : Nat → KProg Bool) : KProg Int := copyOnce copy

/-- `fetchaddr(addr, ip)`, for the arguments of `exec`; `inside` is
whether the address is below `p->sz`. -/
def fetchaddr (inside : Bool) (copy : Nat → KProg Bool) : KProg Int :=
  if inside then copyOnce copy else pure (-1)

inductive BareCall where
  | consolewrite (n : Int)
  | filestat (i : Nat)
  | sysPipe
  | sysMemstat
  | fetchaddr (inside : Bool)

def BareCall.run (c : BareCall) (s : Scene) (copy : Nat → KProg Bool) : KProg Int :=
  match c with
  | .consolewrite n => Locks.consolewrite s.round copy n
  | .filestat i => Locks.filestat s.reply copy i
  | .sysPipe => Locks.sysPipe copy
  | .sysMemstat => Locks.sysMemstat copy
  | .fetchaddr inside => Locks.fetchaddr inside copy

/-- A system call that copies to or from user memory. -/
inductive Call where
  | transfer (T : Transfer)
  | spin (c : SpinCall)
  | bare (c : BareCall)

namespace Call

/-- The call copies with nothing in its hands. -/
def Bare : Call → Prop
  | .transfer _ => False
  | .spin _ => False
  | .bare _ => True

/-- Fault `k` of byte `q`, as the call finds it. -/
def entry (c : Call) (s : Scene) (q k : Nat) (e : Entry) : Entry :=
  match c with
  | .transfer _ => e
  | .spin _ => (s.around q k).entry e
  | .bare _ => (s.around q k).entry e

end Call

/-- The copies of a call up to the moment when fault `k` of byte `q` is
entered; there the run stops. -/
def Scene.copyTo (s : Scene) (faults : Nat → List Entry) (q k i : Nat) : KProg Bool :=
  if i = q then do
    if ← copyUser (s.around q) ((faults q).take k) then Prog.exit id else pure false
  else s.copy faults i

/-- **The call enters fault `k` of byte `q`** in the state `x`. -/
def Call.Enters (c : Call) (s : Scene) (faults : Nat → List Entry) (v : Vol) (q k : Nat)
    (x : Cpu) : Prop :=
  match c with
  | .transfer T => ∃ w, T.Enters faults v q k x.vol w ∧ x = ⟨[], w.foldl Held.after .nothing, x.vol⟩
  | .spin c => ∃ w, c.run s (s.copyTo faults q k) ⟨[], .nothing, v⟩ = .exit x w
  | .bare c => ∃ w, c.run s (s.copyTo faults q k) ⟨[], .nothing, v⟩ = .exit x w

/-! ## The calls on their way to a fault -/

section
variable {l : List Spin} {h : Held} {v : Vol} {s : Scene} {faults : Nat → List Entry} {q k : Nat}
  {E : Cpu → Prop}

/-- The faults of a copy give back what they take. -/
theorem sure_copyUser {es : List Entry} {x : Nat → Around}
    (hes : ∀ n e, es[n]? = some e → ((x n).entry e).Sane) (hv : v.Wf) :
    sure (fun _ => True) (copyUser x es)
      ⟨fun _ k => ∃ v', k = ⟨l, h, v'⟩ ∧ v'.Wf, E, fun _ => True⟩ ⟨l, h, v⟩ := by
  induction es generalizing x v with
  | nil => exact sure_pure.mpr ⟨v, rfl, hv⟩
  | cons e es ih =>
      refine sure.bind (sure_carry fun _ _ => sure_leave _) fun r k hk => ?_
      obtain ⟨v', w, hrun, rfl⟩ := hk
      obtain ⟨hheld, hv', -⟩ := (neutral_handlePgfault (I := Vol.Wf) (hes 0 e rfl) h v hv).of_ret hrun
      rw [after_eq_heldAfter] at hheld
      rw [hheld]
      split
      · exact sure_pure.mpr ⟨v', rfl, hv'⟩
      · exact ih (fun n e' he' => hes (n + 1) e' he') hv'

/-- Nothing but the spinlocks `l` is held. -/
def Holding (l : List Spin) (x : Cpu) : Prop := x.spins = l ∧ x.ops = .nothing ∧ x.vol.Wf

/-- Between the copies no sleep-lock is held, and no transaction open. -/
abbrev idle (_ : Nat) (h : Held) (v : Vol) : Prop := h = .nothing ∧ v.Wf

theorem copying_copyTo (hs : ∀ i n e, (faults i)[n]? = some e → ((s.around i n).entry e).Sane)
    (i : Nat) : Copying (fun _ => True) (Holding l) (fun _ => True) l idle i
      (s.copyTo faults q k i) := by
  rintro h v ⟨rfl, hv⟩
  unfold Scene.copyTo
  split
  · rename_i hi
    subst hi
    refine (sure_copyUser (l := l) (h := .nothing) (fun n e he => hs i n e ?_) hv).bind
      fun ok x hx => ?_
    · rw [List.getElem?_take] at he
      split at he
      · exact he
      · cases he
    · obtain ⟨v', rfl, hv'⟩ := hx
      split
      · exact sure_exit.mpr ⟨rfl, rfl, hv'⟩
      · exact sure_pure.mpr ⟨.nothing, v', rfl, fun hf => nomatch hf⟩
  · refine (sure_copyUser (l := l) (h := .nothing) (hs i) hv).mono (fun ok x hx => ?_)
      (fun _ h => h) fun _ h => h
    obtain ⟨v', rfl, hv'⟩ := hx
    exact ⟨.nothing, v', rfl, fun _ => ⟨rfl, hv'⟩⟩

theorem freeing_freeproc {reply : Nat → Reply} {exec : Option Exec} :
    Freeing (fun _ => True) E (fun _ => True) l (freeproc reply exec) h v := by
  cases exec with
  | none => exact sure_pure.mpr ⟨h, v, rfl⟩
  | some x =>
      refine (sure_carry fun _ _ => sure_panic.mpr trivial).mono (fun _ k hk => ?_)
        (fun _ h => h) fun _ h => h
      obtain ⟨v', w, -, rfl⟩ := hk
      exact ⟨_, v', rfl⟩

/-- **The pipe, console and wait calls enter a fault with their
spinlocks.** -/
theorem SpinCall.entered {c : SpinCall} {x : Cpu} {w : List Slept} (hv : v.Wf)
    (hs : ∀ i n e, (faults i)[n]? = some e → ((s.around i n).entry e).Sane)
    (hx : c.run s (s.copyTo faults q k) ⟨[], .nothing, v⟩ = .exit x w) : Holding (c.grip s) x :=
  (SpinCall.sure_run allows_any (fun i _ => copying_copyTo hs i)
    (fun _ _ _ _ _ _ => freeing_freeproc) ⟨rfl, hv⟩).of_exit hx

section
variable {copy : Nat → KProg Bool}
  (hcopy : ∀ i, Copying (fun _ => True) E (fun _ => True) [] idle i (copy i)) (hv : v.Wf)
include hcopy hv

theorem sure_copyOnce : sure (fun _ => True) (copyOnce copy) ⟨anyEnd Int, E, fun _ => True⟩
    ⟨[], .nothing, v⟩ :=
  (hcopy 0).bind ⟨rfl, hv⟩ (fun _ _ _ => sure_pure.mpr trivial) fun _ _ => sure_pure.mpr trivial

theorem sure_filestat {reply : Nat → Reply} (i : Nat) : sure (fun _ => True)
    (filestat reply copy i) ⟨anyEnd Int, E, fun _ => True⟩ ⟨[], .nothing, v⟩ := by
  refine (sure_perform _).bind fun _ x hx => ?_
  subst hx
  refine (sure_perform _).bind fun _ x hx => ?_
  subst hx
  have hdone : (Held.nothing.after (.ilock i)).after (.iunlock i) = .nothing := by
    simp [Held.after, Held.nothing]
  rw [forget, forget, hdone]
  exact sure_copyOnce hcopy hv

theorem sure_sysPipe : sure (fun _ => True) (sysPipe copy) ⟨anyEnd Int, E, fun _ => True⟩
    ⟨[], .nothing, v⟩ := by
  have hclose : Keeps E pipeclose := keeps_releasesleep
  have hfailed : ∀ h v, sure (fun _ => True) pipeFailed ⟨anyEnd Int, E, fun _ => True⟩
      ⟨[], h, v⟩ := fun h v =>
    (hclose _ h v).bind fun _ => (hclose _ h v).bind fun _ => sure_pure.mpr trivial
  refine (hcopy 0).bind ⟨rfl, hv⟩ (fun h' v' hJ => ?_) hfailed
  exact (hcopy 1).bind hJ (fun _ _ _ => sure_pure.mpr trivial) hfailed

end

theorem keeps_uartwrite (f : Nat → Round) (i n : Nat) : Keeps E (uartwrite f i n) := by
  have hloop : ∀ n i, KeepsIn E .uart (uartLoop f i n) := fun n => by
    induction n with
    | zero => exact fun i l h v => sure_pure.mpr rfl
    | succ n ih => exact fun i l h v => (keepsIn_times keepsIn_sleep _).bind fun _ => ih (i + 1) l h v
  exact keeps_acquire_bind fun _ _ _ => (hloop n i).bind fun _ => sure_release

theorem sure_consolewriteLoop {copy : Nat → KProg Bool} {f : Nat → Round}
    (hcopy : ∀ i, Copying (fun _ => True) E (fun _ => True) [] idle i (copy i)) (n fuel i : Nat)
    (hv : v.Wf) : sure (fun _ => True) (consolewriteLoop f copy n fuel i)
      ⟨anyEnd Int, E, fun _ => True⟩ ⟨[], .nothing, v⟩ := by
  induction fuel generalizing i v with
  | zero => exact sure_pure.mpr trivial
  | succ fuel ih =>
      unfold consolewriteLoop
      split
      · refine (hcopy i).bind ⟨rfl, hv⟩ (fun h' v' hJ => ?_) fun _ _ => sure_pure.mpr trivial
        obtain ⟨rfl, hv'⟩ := hJ
        exact (keeps_uartwrite f i _ _ _ _).bind fun _ => ih _ hv'
      · exact sure_pure.mpr trivial

/-- **The other calls enter a fault with nothing.** -/
theorem BareCall.entered {c : BareCall} {x : Cpu} {w : List Slept} (hv : v.Wf)
    (hs : ∀ i n e, (faults i)[n]? = some e → ((s.around i n).entry e).Sane)
    (hx : c.run s (s.copyTo faults q k) ⟨[], .nothing, v⟩ = .exit x w) : Holding [] x := by
  have hcopy := fun i => copying_copyTo (l := []) (q := q) (k := k) hs i
  refine sure.of_exit (G := fun _ => True)
    (R := ⟨anyEnd Int, Holding [], fun _ => True⟩) ?_ hx
  cases c with
  | consolewrite n => exact sure_consolewriteLoop hcopy _ _ _ hv
  | filestat i => exact sure_filestat hcopy hv i
  | sysPipe => exact sure_sysPipe hcopy hv
  | sysMemstat => exact sure_copyOnce hcopy hv
  | fetchaddr inside =>
      cases inside with
      | true => exact sure_copyOnce hcopy hv
      | false => exact sure_pure.mpr trivial

/-- **What a call holds** when it enters a fault. -/
theorem Call.free_iff_bare {c : Call} {x : Cpu} (hv : v.Wf)
    (hs : ∀ i n e, (faults i)[n]? = some e → (c.entry s i n e).Sane)
    (hx : c.Enters s faults v q k x) : x.vol.Wf ∧ (x.Free ↔ c.Bare) := by
  cases c with
  | transfer T =>
      obtain ⟨w, henter, hheld⟩ := hx
      obtain ⟨hspot, hops⟩ := henter.entered hv fun i e he => by
        obtain ⟨n, hn⟩ := List.mem_iff_getElem?.mp he
        exact hs i n e hn
      refine ⟨hspot.wf, iff_of_false (fun hfree => ?_) id⟩
      have hops : x.ops = (T.point q x.vol).held 0 := by
        rw [hheld]
        exact hops
      rw [hfree.2] at hops
      cases hops
  | spin c =>
      obtain ⟨w, hrun⟩ := hx
      obtain ⟨hspins, -, hwf⟩ := SpinCall.entered hv hs hrun
      refine ⟨hwf, iff_of_false (fun hfree => ?_) id⟩
      rw [hfree.1] at hspins
      cases c <;> simp [SpinCall.grip] at hspins
  | bare c =>
      obtain ⟨w, hrun⟩ := hx
      obtain ⟨hspins, hops, hwf⟩ := BareCall.entered hv hs hrun
      exact ⟨hwf, iff_of_true ⟨hspins, hops⟩ trivial⟩

end

/-- The process holds nothing when the fault calls `kexit`, and nothing is
left of its locks when it is gone. -/
def LeavesNothing (e : Entry) (x : Cpu) (p : Proc) (v' : Vol) (w : List LockEv) : Prop :=
  (x.after w).Free ∧ ∀ v₂ w₂, (Reentry.kexit e.exiting p : FaultProg Unit) v' = .exit v₂ w₂ →
    (x.after (w ++ w₂)).Free

/-- The swap space is used up, and the only resident page is dirty. -/
def fullFault : Entry :=
  { textFault with
    p := { textFault.p with
      swapSlots := fun _ => 1, residentPages := fun _ => ⟨8192, 0, true⟩, numResident := 1 }
    free := false }

theorem fullFault_kills : Kills fullFault smallVol fullFault.p smallVol [] :=
  .swapFull (by decide) rfl rfl (by decide +kernel)

/-- A machine that is otherwise idle, with every block in the cache. -/
def idleScene : Scene where
  round _ := ⟨0, false, false, false, false, false⟩
  family := ⟨[], [], some 0, 0⟩
  reply _ := ⟨0, 0, true, false, true, false, [], 0, .init, 0⟩
  around _ _ := ⟨idleWindow, idleWindow, textFault.exiting,
    fun _ => ⟨0, 0, true, false, true, false, [], 0, .init, 0⟩, 0⟩

theorem fullFault_sane : fullFault.Sane :=
  ⟨idleWindow_sane, idleWindow_sane, textFault_sane.swap, textFault_sane.exiting⟩

end Locks

end OsSuite.Xv6
