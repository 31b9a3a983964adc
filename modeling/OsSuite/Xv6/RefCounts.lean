import OsSuite.Xv6.RefSteps

/-!
# RefCounts — the counts over whole runs

Any processes make any calls, which succeed or fail at any point. As long
as every call is a careful one, the counts are right between any two of
them.
-/

namespace OsSuite.Xv6.Life

open Finset

/-! ## Runs -/

inductive Call where
  | fork (a : ForkAnswers)
  | exec (path : Path) (a : ExecAnswers)
  | exit
  | wait (addr : Option CopyAnswers)

/-- An operation of slot `i`. -/
def call (i : Nat) : Call → WProg Bool
  | .fork a => kfork i a
  | .exec path a => kexec i path a
  | .exit => kexit i
  | .wait addr => kwait i addr

/-- A live process makes a call, and returns from it or exits in it. -/
inductive Step (s : World) (i : Nat) (c : Call) : World → Prop where
  | ret {r : Bool} {s' : World} {w : List Event} : i < nproc → (s.proc i).state = .runnable →
      call i c s = .ret r s' w → Step s i c s'
  | exit {s' : World} {w : List Event} : i < nproc → (s.proc i).state = .runnable →
      call i c s = .exit s' w → Step s i c s'

/-- Runs whose calls all meet `C`. -/
inductive Run (C : World → Nat → Call → Prop) (s₀ : World) : World → Prop where
  | start : Run C s₀ s₀
  | step {s s' : World} {i : Nat} {c : Call} : Run C s₀ s → C s i c → Step s i c s' → Run C s₀ s'

/-- The condition: `exec` finds no pointer to overwrite, and `fork` no
stale `exec_ip` in the slot it takes, unless it succeeds and overwrites
it. -/
def Careful (s : World) (i : Nat) : Call → Prop
  | .exec _ _ => (s.proc i).execIp = none ∧ (s.proc i).swapFile = none
  | .fork a => ∀ j, s.freeSlot = some j → (s.proc j).execIp = none ∨
      (a.trapframe = true ∧ a.pagetable = true ∧ a.uvmcopy = true) ∧ (s.proc i).execIp ≠ none
  | .exit | .wait _ => True

/-- **One operation.** -/
theorem Sound.step {s s' : World} {i : Nat} {c : Call} (h : Sound s) (hc : Careful s i c)
    (hs : Step s i c s') : Sound s' := by
  obtain ⟨hi, hrun⟩ : i < nproc ∧ (s.proc i).state = .runnable := by
    cases hs <;> exact ⟨‹_›, ‹_›⟩
  have hlive : (s.proc i).state ≠ .unused := by rw [hrun]; exact fun hc => by cases hc
  have hwp : wp (fun _ => True) (call i c) ⟨fun _ s' => Sound s', Sound, fun _ => True⟩ s := by
    cases c with
    | fork a => exact sound_kfork h a hc hlive
    | exec path a => exact sound_kexec h hi hrun hc.1 hc.2 path a
    | exit => exact sound_kexit h hi hlive
    | wait addr => exact sound_kwait h hi hlive addr
  cases hs with
  | ret _ _ hx => exact hwp.of_ret hx fun _ _ => trivial
  | exit _ _ hx => exact hwp.of_exit hx fun _ _ => trivial

theorem Run.sound {s₀ s : World} (h : Run Careful s₀ s) (h₀ : Sound s₀) : Sound s := by
  induction h with
  | start => exact h₀
  | step _ hc hs ih => exact ih.step hc hs

/-! ## Executing a run -/

instance (s : World) (i : Nat) (c : Call) : Decidable (Careful s i c) :=
  match c with
  | .exec _ _ => inferInstanceAs (Decidable (_ ∧ _))
  | .fork a =>
      match h : s.freeSlot with
      | none => isTrue fun j hj => by rw [h] at hj; cases hj
      | some j =>
          decidable_of_iff ((s.proc j).execIp = none ∨
              (a.trapframe = true ∧ a.pagetable = true ∧ a.uvmcopy = true) ∧ (s.proc i).execIp ≠ none)
            ⟨fun hc j' hj' => by rw [h] at hj'; cases hj'; exact hc, fun hc => hc j h⟩
  | .exit | .wait _ => isTrue trivial

/-- Make the calls one by one, as long as each is possible and `C` allows
it. -/
def runCalls (C : World → Nat → Call → Prop) [∀ s i c, Decidable (C s i c)] :
    List (Nat × Call) → World → Option World
  | [], s => some s
  | (i, c) :: rest, s =>
      if (i < nproc ∧ (s.proc i).state = .runnable) ∧ C s i c then
        match call i c s with
        | .ret _ s' _ => runCalls C rest s'
        | .exit s' _ => runCalls C rest s'
        | .panic _ _ => none
      else none

theorem Run.runCalls {C : World → Nat → Call → Prop} [∀ s i c, Decidable (C s i c)]
    {calls : List (Nat × Call)} {s₀ s s' : World} (hrun : Run C s₀ s)
    (h : Life.runCalls C calls s = some s') : Run C s₀ s' := by
  induction calls generalizing s with
  | nil =>
      cases h
      exact hrun
  | cons ic rest ih =>
      obtain ⟨i, c⟩ := ic
      simp only [Life.runCalls] at h
      split at h
      · rename_i hok
        split at h
        · rename_i hx
          exact ih (hrun.step hok.2 (.ret hok.1.1 hok.1.2 hx)) h
        · rename_i hx
          exact ih (hrun.step hok.2 (.exit hok.1.1 hok.1.2 hx)) h
        · cases h
      · cases h

/-- A run that executes, with a test of where it ends. -/
theorem Run.of_check (C : World → Nat → Call → Prop) [∀ s i c, Decidable (C s i c)] (s₀ : World)
    (calls : List (Nat × Call)) (p : World → Bool)
    (h : (Life.runCalls C calls s₀).any p = true) : ∃ s, Run C s₀ s ∧ p s = true := by
  cases hr : Life.runCalls C calls s₀ with
  | none => rw [hr] at h; cases h
  | some s =>
      rw [hr] at h
      exact ⟨s, Run.start.runCalls hr, h⟩

/-! ## The counts over whole runs -/

/-- **Reference counts of executables and swap files**: from a state in
which the counts are right and dead slots hold nothing, they are right
after every run of careful calls. -/
theorem ref_counts_exact {s₀ s : World} (hc : Counted s₀) (hk : Kept s₀)
    (hg : ∀ j, (s₀.proc j).state = .unused ∨ (s₀.proc j).state = .zombie → (s₀.proc j).Idle)
    (h : Run Careful s₀ s) : Counted s :=
  counted_iff.mpr (by
    obtain ⟨hslack, hfiles⟩ := counted_iff.mp hc
    have hs := h.sound ⟨hslack, hfiles, hk, hg⟩
    exact ⟨hs.slack, hs.fileSlack⟩)

theorem counted_smallWorld : Counted smallWorld := by
  have hinodes : ∀ i ∈ range nproc, i ≠ 0 → (smallWorld.proc i).inodes = 0 := fun i _ hi => by
    simp [smallWorld, hi, Task.zero, Task.inodes]
  have hfiles : ∀ i ∈ range nproc, (smallWorld.proc i).files = 0 := fun i _ => by
    by_cases hi : i = 0 <;> simp [smallWorld, hi, Task.zero, Task.files]
  have hfile : ∀ f ∈ range nfile, (smallWorld.file f).inodes = 0 := fun f _ => by
    simp [smallWorld, File.inodes]
  constructor
  · intro ip
    have hsum : smallWorld.inodeHolders = point (some 0) := by
      rw [World.inodeHolders, sum_eq_zero hfile, add_zero, sum_eq_single 0 hinodes
        fun h => absurd (mem_range.mpr (by decide)) h]
      simp [smallWorld, Task.zero, Task.inodes]
    rw [hsum]
    show (if ip = 0 then (⟨rootino, 1, false, .free, 0, false⟩ : Node) else _).ref = _
    by_cases hip : ip = 0
    · simp [hip, point]
    · simp [hip, point, Ne.symm hip]
  · intro f
    rw [World.fileHolders, sum_eq_zero hfiles]
    rfl

/-- The first process starts the executable, forks, waits for the child
and forks again, into the slot with the stale pointer. -/
theorem ref_counts_exact_small : ∃ s, Run Careful smallWorld s ∧ Counted s ∧
    (s.proc 1).state = .runnable ∧ (s.proc 1).execIp = some 2 := by
  obtain ⟨s, hrun, hs⟩ := Run.of_check Careful smallWorld
    [(0, .exec pathA .ok), (0, .fork .ok), (1, .exit), (0, .wait none), (0, .fork .ok)]
    (fun s => decide ((s.proc 1).state = .runnable ∧ (s.proc 1).execIp = some 2)) (by decide +kernel)
  have hs := of_decide_eq_true hs
  refine ⟨s, hrun, ref_counts_exact counted_smallWorld ⟨fun _ _ => rfl, fun _ _ => rfl⟩
    (fun j hj => ?_) hrun, hs⟩
  by_cases h0 : j = 0
  · subst h0
    rcases hj with hj | hj <;> cases hj
  · simp only [smallWorld, if_neg h0]
    exact ⟨rfl, rfl, fun _ _ => rfl⟩

/-- Any call. -/
def AnyCall (_ : World) (_ : Nat) (_ : Call) : Prop := True

instance (s : World) (i : Nat) (c : Call) : Decidable (AnyCall s i c) := isTrue trivial

/-- **Counts that are not right**: after `fork` and `exec` in the child,
the executable has three references and two holders; after a child is
waited for and the next `fork` fails, it has one holder and none. -/
theorem ref_counts_wrong :
    (∃ s, Run AnyCall smallWorld s ∧ (s.fs.inode 2).ref = 3 ∧ s.inodeHolders 2 = 2) ∧
    ∃ s, Run AnyCall smallWorld s ∧ (s.fs.inode 2).ref = 0 ∧ s.inodeHolders 2 = 1 := by
  constructor
  · obtain ⟨s, hrun, hs⟩ := Run.of_check AnyCall smallWorld
      [(0, .exec pathA .ok), (0, .fork .ok), (1, .exec pathA .ok)]
      (fun s => decide ((s.fs.inode 2).ref = 3 ∧ s.inodeHolders 2 = 2)) (by decide +kernel)
    exact ⟨s, hrun, of_decide_eq_true hs⟩
  · obtain ⟨s, hrun, hs⟩ := Run.of_check AnyCall smallWorld
      [(0, .exec pathA .ok), (0, .fork .ok), (1, .exit), (0, .wait none),
        (0, .fork ⟨true, true, false⟩)]
      (fun s => decide ((s.fs.inode 2).ref = 0 ∧ s.inodeHolders 2 = 1)) (by decide +kernel)
    exact ⟨s, hrun, of_decide_eq_true hs⟩

end OsSuite.Xv6.Life
