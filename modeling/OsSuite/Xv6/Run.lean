import OsSuite.Lib.Trace
import OsSuite.Xv6.Files
import OsSuite.Xv6.Kernel

/-!
# Run — the states a system can reach

`userinit` on a fresh machine, then steps of any live process in any
order. `Run C k tr` are the runs whose steps all meet `C`, a condition on
the state before the step, the acting slot, the operation and what the
step is observed to do; `Reach C k` forgets what was observed.
`Reach.inv` is the induction over runs.
-/

namespace OsSuite.Xv6

/-- A slot of the zeroed process table. -/
def Proc.zero : Proc where
  state := .unused
  killed := false
  xstate := 0
  pid := 0
  parent := none
  isInit := false
  sz := 0
  pagetable := 0
  trapframe := 0
  regs := ⟨0, 0, 0, 0⟩
  heapStart := 0
  execIp := none
  swapFile := none
  swapSlots := fun _ => 0
  residentPages := fun _ => ⟨0, 0, false⟩
  swappedPages := fun _ => ⟨0, 0⟩
  numResident := 0
  nextFifoSeq := 0
  numSwapped := 0
  numPhdrs := 0
  phdrs := fun _ => 0

/-- A process that has neither exited nor been freed. -/
def Proc.Live (p : Proc) : Prop := p.state ≠ .unused ∧ p.state ≠ .zombie

instance (p : Proc) : Decidable p.Live := inferInstanceAs (Decidable (_ ∧ _))

/-- A machine on which `userinit` has not run: `kinit` has filled the free
list, and `mkfs` has laid out the disk. -/
structure Fresh (k : Kern) : Prop where
  proc : ∀ i, k.proc i = Proc.zero
  nextpid : k.nextpid = 1
  kend : 524288 ≤ k.sys.kend
  free_nodup : k.sys.freelist.Nodup
  free_range : ∀ f ∈ k.sys.freelist, k.sys.kend ≤ f ∧ f < phystop
  held : k.sys.held = []
  fs : k.sys.fs.Wf

/-- The state `userinit` leaves behind. -/
def Booted (k : Kern) : Prop := ∃ k₀ w, Fresh k₀ ∧ userinit k₀ = .ret () k w

/-- A step of slot `i`, with what is observed of it. -/
inductive KStep (k : Kern) (i : Nat) (op : Op) : List Event → Kern → Prop where
  | ret {r : Res} {w : List Event} {k' : Kern} : (k.proc i).state = .runnable →
      kstep i op k = .ret r k' w → KStep k i op w k'
  | exit {w : List Event} {k' : Kern} : (k.proc i).state = .runnable →
      kstep i op k = .exit k' w → KStep k i op w (reparent i k')

/-- The states of runs whose steps all meet `C`, with everything that was
observed on the way and the slot it was observed of. -/
inductive Run (C : Kern → Nat → Op → List Event → Prop) : Kern → List (Nat × Event) → Prop where
  | boot {k₀ k : Kern} {w : List Event} : Fresh k₀ → userinit k₀ = .ret () k w →
      Run C k (w.map (Prod.mk 0))
  | step {k k' : Kern} {i : Nat} {op : Op} {w : List Event} {tr : List (Nat × Event)} :
      Run C k tr → KStep k i op w k' → C k i op w → Run C k' (tr ++ w.map (Prod.mk i))

/-- The states alone. -/
def Reach (C : Kern → Nat → Op → List Event → Prop) (k : Kern) : Prop := ∃ tr, Run C k tr

/-- **Induction over runs.** -/
theorem Reach.inv {C : Kern → Nat → Op → List Event → Prop} {I : Kern → Prop}
    (hboot : ∀ k, Booted k → I k)
    (hstep : ∀ k i op w k', I k → KStep k i op w k' → C k i op w → I k') {k : Kern}
    (h : Reach C k) : I k := by
  obtain ⟨tr, h⟩ := h
  induction h with
  | boot hf hx => exact hboot _ ⟨_, _, hf, hx⟩
  | step _ hs hc ih => exact hstep _ _ _ _ _ ih hs hc

/-- `evict_page` was entered with a non-empty list. -/
def Event.Nonempty : Event → Prop
  | .evict n => 0 < n
  | _ => True

instance : DecidablePred Event.Nonempty := fun e => by
  cases e <;> unfold Event.Nonempty <;> infer_instance

/-- What is observed of a swap-out. -/
def Event.asSwapOut : Event → Option (Nat × List Nat × Option Nat)
  | .swapOut slot used size => some (slot, used, size)
  | _ => none

/-- Every eviction of the step starts from a non-empty list. -/
def EvictsNonempty (_ : Kern) (_ : Nat) (_ : Op) (w : List Event) : Prop := ∀ e ∈ w, e.Nonempty

instance (k : Kern) (i : Nat) (op : Op) (w : List Event) : Decidable (EvictsNonempty k i op w) :=
  inferInstanceAs (Decidable (∀ e ∈ w, e.Nonempty))

/-- Every step is allowed. -/
def AnyStep (_ : Kern) (_ : Nat) (_ : Op) (_ : List Event) : Prop := True

instance (k : Kern) (i : Nat) (op : Op) (w : List Event) : Decidable (AnyStep k i op w) :=
  inferInstanceAs (Decidable True)

/-! ## Executing a run -/

/-- Take the steps one by one, as long as each is possible and `c` allows
it; what is observed is collected. -/
def runSteps (c : Kern → Nat → Op → List Event → Bool) :
    List (Nat × Op) → Kern → Option (Kern × List (Nat × Event))
  | [], k => some (k, [])
  | (i, op) :: rest, k =>
      if (k.proc i).state = .runnable then
        match kstep i op k with
        | .panic _ _ => none
        | .ret _ k' w =>
            if c k i op w then
              (runSteps c rest k').map fun r => (r.1, w.map (Prod.mk i) ++ r.2)
            else none
        | .exit k' w =>
            if c k i op w then
              (runSteps c rest (reparent i k')).map fun r => (r.1, w.map (Prod.mk i) ++ r.2)
            else none
      else none

/-- The same from power-on. -/
def bootSteps (c : Kern → Nat → Op → List Event → Bool) (k₀ : Kern) (steps : List (Nat × Op)) :
    Option (Kern × List (Nat × Event)) :=
  match userinit k₀ with
  | .ret _ k w => (runSteps c steps k).map fun r => (r.1, w.map (Prod.mk 0) ++ r.2)
  | _ => none

section
variable {C : Kern → Nat → Op → List Event → Prop} {c : Kern → Nat → Op → List Event → Bool}

theorem Run.runSteps (hc : ∀ k i op w, c k i op w = true → C k i op w)
    {steps : List (Nat × Op)} {k : Kern} {tr : List (Nat × Event)}
    {r : Kern × List (Nat × Event)} (hk : Run C k tr) (h : Xv6.runSteps c steps k = some r) :
    Run C r.1 (tr ++ r.2) := by
  induction steps generalizing k tr r with
  | nil =>
      cases h
      rwa [List.append_nil]
  | cons st rest ih =>
      obtain ⟨i, op⟩ := st
      simp only [Xv6.runSteps] at h
      split at h
      · rename_i hrun
        split at h
        · cases h
        · rename_i hx
          split at h
          · rename_i hcond
            obtain ⟨r', hr', rfl⟩ := Option.map_eq_some_iff.mp h
            have hend := ih (hk.step (.ret hrun hx) (hc _ _ _ _ hcond)) hr'
            rwa [List.append_assoc] at hend
          · cases h
        · rename_i hx
          split at h
          · rename_i hcond
            obtain ⟨r', hr', rfl⟩ := Option.map_eq_some_iff.mp h
            have hend := ih (hk.step (.exit hrun hx) (hc _ _ _ _ hcond)) hr'
            rwa [List.append_assoc] at hend
          · cases h
      · cases h

theorem Run.bootSteps (hc : ∀ k i op w, c k i op w = true → C k i op w)
    {steps : List (Nat × Op)} {k₀ : Kern} {r : Kern × List (Nat × Event)} (hf : Fresh k₀)
    (h : Xv6.bootSteps c k₀ steps = some r) : Run C r.1 r.2 := by
  unfold Xv6.bootSteps at h
  split at h
  · rename_i hx
    obtain ⟨r', hr', rfl⟩ := Option.map_eq_some_iff.mp h
    exact (Run.boot hf hx).runSteps hc hr'
  · cases h

end

/-- A run that executes, with a test of where it ends. -/
theorem Run.of_check (C : Kern → Nat → Op → List Event → Prop)
    [∀ k i op w, Decidable (C k i op w)] {k₀ : Kern} (hf : Fresh k₀) (steps : List (Nat × Op))
    (p : Kern → List (Nat × Event) → Bool)
    (h : ((Xv6.bootSteps (fun k i op w => decide (C k i op w)) k₀ steps).any
      fun r => p r.1 r.2) = true) :
    ∃ k tr, Run C k tr ∧ p k tr = true := by
  cases hb : Xv6.bootSteps (fun k i op w => decide (C k i op w)) k₀ steps with
  | none => rw [hb] at h; cases h
  | some r =>
      rw [hb] at h
      exact ⟨r.1, r.2, Run.bootSteps (fun _ _ _ _ hc => of_decide_eq_true hc) hf hb, h⟩

/-! ## A small machine

40 free frames, and one executable `a` with a single segment: 8 bytes of
the file and zeroes up to the end of the page, writable. -/

/-- `n` bytes, least significant first. -/
def bytesLe (n x : Nat) : List UInt8 := (List.range n).map fun i => UInt8.ofNat (x / 256 ^ i)

def smallElf : List UInt8 :=
  -- struct elfhdr: magic, entry, phoff, phnum
  bytesLe 4 elfMagic ++ List.replicate 20 0 ++ bytesLe 8 0 ++ bytesLe 8 64 ++
  List.replicate 16 0 ++ bytesLe 2 1 ++ List.replicate 6 0 ++
  -- struct proghdr: type, flags, off, vaddr, paddr, filesz, memsz, align
  bytesLe 4 1 ++ bytesLe 4 6 ++ bytesLe 8 120 ++ bytesLe 8 0 ++ bytesLe 8 0 ++ bytesLe 8 8 ++
  bytesLe 8 4096 ++ bytesLe 8 4096 ++
  [1, 2, 3, 4, 5, 6, 7, 8]

def smallFs : Fs where
  inode ino := if ino = 2 then
      ⟨true, smallElf.length, fun k => smallElf.getD k 0, fun bn => bn == 0, false⟩
    else Inode.empty
  nfree := 1000
  names name := if name = ['a'] then some 2 else none
  freeInodes := [3, 4, 5, 6]

def smallKern : Kern where
  sys :=
    { kend := 524300, tramp := 524289, freelist := (List.range 40).map (· + 524300), held := [],
      script := [], mem := fun _ => .bytes fun _ => 0, stack := fun _ => 0, fs := smallFs }
  proc _ := Proc.zero
  nextpid := 1

theorem smallFs_names_swap (pid : Nat) : smallFs.names (swapName pid) = none := by
  show (if swapName pid = ['a'] then some 2 else none) = none
  rw [if_neg]
  intro h
  have hhead : (swapName pid).head? = some 'p' := rfl
  rw [h] at hhead
  exact absurd hhead (by decide)

theorem smallKern_fresh : Fresh smallKern where
  proc _ := rfl
  nextpid := rfl
  kend := by decide
  free_nodup := by decide
  free_range := by decide
  held := rfl
  fs :=
    { free := by decide
      named := fun name ino h => by
        have hino : (if name = ['a'] then some 2 else none) = some ino := h
        split at hino
        · cases hino
          decide
        · cases hino
      swap := fun a _ ino ha _ => by
        rw [show smallKern.sys.fs.names = smallFs.names from rfl, smallFs_names_swap] at ha
        cases ha }

/-- Start the executable. -/
def execA : Op := .exec ['a'] [] true true

/-- The next allocation finds the free list empty. -/
def drained : Op := .env [List.replicate 40 .take] 1000 fun _ => 0

/-- The executable runs and has stored to a heap page, which is then
swapped out to make room for the next one. -/
def swapRun : List (Nat × Op) :=
  [(0, execA), (0, .sbrk 8192), (0, .access .store 28672 7), (0, drained),
    (0, .access .load 32768 0)]

/-- A clean and a dirty heap page, a fork, and an eviction in the child. -/
def forkRun : List (Nat × Op) :=
  [(0, execA), (0, .sbrk 12288), (0, .access .load 28672 0), (0, .access .store 32768 7),
    (0, .fork), (1, drained), (1, .access .load 36864 0)]

end OsSuite.Xv6
