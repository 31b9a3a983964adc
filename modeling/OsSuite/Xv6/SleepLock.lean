import OsSuite.Lib.Turns

/-!
# SleepLock — sleeping locks, `sleep` and `wakeup`

`sleeplock.c` over `sleep`, `wakeup`, `kkill`, `scheduler` and `sched` of
`proc.c`, for `N` process slots in any interleaving. A turn is one piece of
code between two operations on a spinlock, so the two locks of `sleep` —
`lk->lk` and `p->lock` — are taken and given up one at a time, and a
`wakeup` visits one slot a turn. The body of a loop that takes one
`p->lock` and gives it back is one turn, and waits while the slot's own
process holds that lock.

Three results hold in every state reached: the lock excludes
(`sleeplock_excludes`), no sleeper of a free lock is missed
(`no_lost_wakeup`), and the code never panics and never stands still
(`sleeplock_never_stuck`).
-/

namespace OsSuite.Xv6

/-- What the slot's process does next. -/
inductive SleepPc where
  /-- Not in the code of the lock, and not holding it. -/
  | out
  /-- `acquire(&lk->lk)`, of `acquiresleep` or at the end of `sleep` -/
  | entering
  /-- `while (lk->locked)` -/
  | testing
  /-- `sleep`: `acquire(&p->lock)` -/
  | falling
  /-- `sleep`: `release(lk)` -/
  | letting
  /-- `sleep`: `p->chan = chan; p->state = SLEEPING; sched();` -/
  | dozing
  /-- Switched out. -/
  | away
  /-- `sleep`: `p->chan = 0; release(&p->lock);` -/
  | rising
  /-- `acquiresleep`: `release(&lk->lk)` -/
  | entered
  /-- Between `acquiresleep` and `releasesleep`. -/
  | inside
  /-- `releasesleep`: `acquire(&lk->lk)` -/
  | leaving
  /-- `lk->locked = 0; lk->pid = 0;` -/
  | clearing
  /-- `wakeup(lk)`, about to look at slot `n` -/
  | waking (n : Nat)
  /-- `releasesleep`: `release(&lk->lk)` -/
  | left
  deriving DecidableEq, Repr

namespace SleepPc

/-- The places where `lk->lk` is held. -/
def spins : SleepPc → Bool
  | testing | falling | letting | entered | clearing | waking _ | left => true
  | _ => false

/-- The places where the process holds its own `p->lock`. -/
def bolts : SleepPc → Bool
  | letting | dozing | rising => true
  | _ => false

/-- The places where the sleep lock is held. -/
def owns : SleepPc → Bool
  | entered | inside | leaving | clearing => true
  | _ => false

end SleepPc

/-- `RUNNING`, `RUNNABLE`, `SLEEPING`; a process that was preempted counts as
running. -/
inductive RunState where
  | running | runnable | sleeping
  deriving DecidableEq, Repr

/-- `struct sleeplock`, and of every slot what `sleep` and `wakeup` use. -/
structure SleepSys (N : Nat) where
  /-- The holder of `lk->lk`. -/
  lk : Option (Fin N)
  locked : Bool
  pid : Nat
  pc : Fin N → SleepPc
  /-- `p->lock` is held. -/
  plock : Fin N → Bool
  state : Fin N → RunState
  /-- `p->chan == lk` -/
  chan : Fin N → Bool

/-- Who takes a turn. -/
inductive SleepTurn (N : Nat) where
  /-- The process calls `acquiresleep`, or `releasesleep` if it has the lock. -/
  | call (p : Fin N)
  /-- The process runs on. -/
  | run (p : Fin N)
  /-- The round of `scheduler` for the slot. -/
  | schedule (p : Fin N)
  /-- The round of `kkill` that finds the slot. -/
  | kkill (p : Fin N)

namespace SleepSys
open SleepPc RunState

variable {N : Nat}

/-- `initsleeplock`, and every process elsewhere. -/
def boot : SleepSys N := ⟨none, false, 0, fun _ => out, fun _ => false, fun _ => running, fun _ => false⟩

def goto (s : SleepSys N) (p : Fin N) (c : SleepPc) : SleepSys N :=
  { s with pc := Function.update s.pc p c }

/-- `acquire(&lk->lk)` -/
def acquire (s : SleepSys N) (p : Fin N) (c : SleepPc) : Turn (SleepSys N) :=
  if s.lk = some p then .halt "acquire"
  else if s.lk.isSome then .wait
  else .go { s.goto p c with lk := some p }

/-- `release(&lk->lk)` -/
def release (s : SleepSys N) (p : Fin N) (c : SleepPc) : Turn (SleepSys N) :=
  if s.lk = some p then .go { s.goto p c with lk := none } else .halt "release"

/-- The round of `wakeup` for slot `q`. -/
def poke (s : SleepSys N) (q : Fin N) : SleepSys N :=
  if s.state q = sleeping ∧ s.chan q then
    { s with state := Function.update s.state q runnable }
  else s

/-- `p->chan = chan; p->state = SLEEPING; sched();`, up to where the
scheduler has released `p->lock` -/
def doze (s : SleepSys N) (p : Fin N) : Turn (SleepSys N) :=
  if s.plock p = false then .halt "sched p->lock"
  else if s.lk = some p then .halt "sched locks"
  else .go { s.goto p away with
    chan := Function.update s.chan p true
    state := Function.update s.state p sleeping
    plock := Function.update s.plock p false }

/-- `wakeup(lk)` by `p`, at slot `n` -/
def wakeup (s : SleepSys N) (p : Fin N) (n : Nat) : Turn (SleepSys N) :=
  if h : n < N then
    if (⟨n, h⟩ : Fin N) = p then .go (s.goto p (waking (n + 1)))
    else if s.plock ⟨n, h⟩ then .wait
    else .go ((s.poke ⟨n, h⟩).goto p (waking (n + 1)))
  else .go (s.goto p left)

/-- The process runs on from where it stands. -/
def runOn (pidOf : Fin N → Nat) (s : SleepSys N) (p : Fin N) : Turn (SleepSys N) :=
  match s.pc p with
  | entering => s.acquire p testing
  | testing =>
      if s.locked then .go (s.goto p falling)
      else .go { s.goto p entered with locked := true, pid := pidOf p }
  | falling =>
      if s.plock p then .wait
      else .go { s.goto p letting with plock := Function.update s.plock p true }
  | letting => s.release p dozing
  | dozing => s.doze p
  | rising => .go { s.goto p entering with
      chan := Function.update s.chan p false, plock := Function.update s.plock p false }
  | entered => s.release p inside
  | leaving => s.acquire p clearing
  | clearing => .go { s.goto p (waking 0) with locked := false, pid := 0 }
  | waking n => s.wakeup p n
  | left => s.release p out
  | out | inside | away => .wait

def step (pidOf : Fin N → Nat) (s : SleepSys N) : SleepTurn N → Turn (SleepSys N)
  | .call p =>
      if s.pc p = out then .go (s.goto p entering)
      else if s.pc p = inside then .go (s.goto p leaving)
      else .wait
  | .run p => s.runOn pidOf p
  | .schedule p =>
      -- the process comes back from `swtch` with its `p->lock` held
      if s.plock p = false ∧ s.state p = runnable then
        .go { s.goto p rising with
          state := Function.update s.state p running
          plock := Function.update s.plock p true }
      else .wait
  | .kkill p =>
      if s.plock p then .wait
      else if s.state p = sleeping then
        .go { s with state := Function.update s.state p runnable }
      else .go s

/-- `holdingsleep(lk)`, asked by `p` -/
def holdingsleep (pidOf : Fin N → Nat) (s : SleepSys N) (p : Fin N) : Bool :=
  s.locked && s.pid == pidOf p

/-! ## The invariant -/

/-- Some process has the sleep lock. -/
def Owned (pc : Fin N → SleepPc) : Prop := ∃ p, (pc p).owns

/-- Some `wakeup` has slot `q` before it. -/
def Awaited (pc : Fin N → SleepPc) (q : Fin N) : Prop := ∃ p n, pc p = waking n ∧ n ≤ q

variable {pc : Fin N → SleepPc} {p q : Fin N} {c : SleepPc} {n : Nat}

theorem Owned.update (h : Owned pc) (hc : (pc p).owns → c.owns) :
    Owned (Function.update pc p c) := by
  obtain ⟨q, hq⟩ := h
  by_cases hqp : q = p
  · subst hqp
    exact ⟨q, by simpa using hc hq⟩
  · exact ⟨q, by simpa [hqp] using hq⟩

theorem Awaited.update (h : Awaited pc q)
    (hc : ∀ n, pc p = waking n → n ≤ q → Awaited (Function.update pc p c) q) :
    Awaited (Function.update pc p c) q := by
  obtain ⟨r, n, hr, hn⟩ := h
  by_cases hrp : r = p
  · subst hrp
    exact hc n hr hn
  · exact ⟨r, n, by simpa [hrp] using hr, hn⟩

theorem awaited_waking (hn : n ≤ q) : Awaited (Function.update pc p (waking n)) q :=
  ⟨p, n, by simp, hn⟩

/-- What every turn keeps. -/
structure Sound (pidOf : Fin N → Nat) (s : SleepSys N) : Prop where
  spin : ∀ p, s.lk = some p ↔ (s.pc p).spins
  bolt : ∀ p, s.plock p = (s.pc p).bolts
  away : ∀ p, s.pc p = away ↔ s.state p ≠ running
  chan : ∀ p, s.pc p = .away → s.chan p
  falls : ∀ p, s.pc p = falling ∨ s.pc p = letting → s.locked
  owner : ∀ p, (s.pc p).owns → s.locked ∧ s.pid = pidOf p ∧ ∀ q, (s.pc q).owns → q = p
  owned : s.locked → Owned s.pc
  /-- A process that has let `lk->lk` go still holds its `p->lock`, so a
  `wakeup` that starts now gets to it only once it sleeps. -/
  awaited : s.locked = false → ∀ q, s.state q = sleeping ∨ s.pc q = dozing → Awaited s.pc q

variable {pidOf : Fin N → Nat} {s s' : SleepSys N}

theorem sound_boot : Sound pidOf (boot : SleepSys N) := by
  constructor <;> simp [boot, spins, bolts, owns]

attribute [local grind] spins bolts owns
attribute [local grind cases] Sound
attribute [local grind ←] Owned.update Awaited.update awaited_waking

theorem Sound.acquire (h : Sound pidOf s)
    (hc : s.pc p = entering ∧ c = testing ∨ s.pc p = leaving ∧ c = clearing)
    (hs : s.acquire p c = .go s') : Sound pidOf s' := by
  unfold SleepSys.acquire at hs
  split_ifs at hs with hself hheld
  cases hs
  constructor <;> simp only [goto] <;> grind

theorem Sound.release (h : Sound pidOf s)
    (hc : s.pc p = letting ∧ c = dozing ∨ s.pc p = entered ∧ c = inside ∨ s.pc p = left ∧ c = out)
    (hs : s.release p c = .go s') : Sound pidOf s' := by
  unfold SleepSys.release at hs
  split_ifs at hs with hself
  cases hs
  constructor <;> simp only [goto] <;> grind

theorem Sound.doze (h : Sound pidOf s) (hpc : s.pc p = dozing)
    (hs : s.doze p = .go s') : Sound pidOf s' := by
  unfold SleepSys.doze at hs
  split_ifs at hs with hbolt hself
  cases hs
  constructor <;> simp only [goto] <;> grind

theorem Sound.wakeup (h : Sound pidOf s) (hpc : s.pc p = waking n)
    (hs : s.wakeup p n = .go s') : Sound pidOf s' := by
  unfold SleepSys.wakeup at hs
  split_ifs at hs with hn hself hbolt
  · cases hs
    constructor <;> simp only [goto] <;> grind
  · -- slot `n` is not dozing, since its lock is free, and sleeps no more
    unfold poke at hs
    split_ifs at hs with hsleep
    · cases hs
      constructor <;> simp only [goto] <;> grind
    · cases hs
      constructor <;> simp only [goto] <;> grind
  · cases hs
    constructor <;> simp only [goto] <;> grind

theorem Sound.test (h : Sound pidOf s) (hpc : s.pc p = testing)
    (hs : s.runOn pidOf p = .go s') : Sound pidOf s' := by
  simp only [runOn, hpc] at hs
  split_ifs at hs with hlocked
  · cases hs
    constructor <;> simp only [goto] <;> grind
  · cases hs
    have hentered : Owned (Function.update s.pc p entered) := ⟨p, by simp [owns]⟩
    constructor <;> simp only [goto] <;> grind

/-- The turns between the others; only `clearing` gives the lock back, and
its `wakeup` has every slot before it. -/
theorem Sound.between (h : Sound pidOf s)
    (hpc : s.pc p = falling ∨ s.pc p = rising ∨ s.pc p = clearing)
    (hs : s.runOn pidOf p = .go s') : Sound pidOf s' := by
  rcases hpc with hpc | hpc | hpc
  · simp only [runOn, hpc] at hs
    split_ifs at hs with hbolt
    cases hs
    constructor <;> simp only [goto] <;> grind
  · simp only [runOn, hpc] at hs
    cases hs
    constructor <;> simp only [goto] <;> grind
  · simp only [runOn, hpc] at hs
    cases hs
    constructor <;> simp only [goto] <;> grind

theorem Sound.run (h : Sound pidOf s) (hs : s.runOn pidOf p = .go s') :
    Sound pidOf s' := by
  have hrun := hs
  unfold runOn at hs
  cases hpc : s.pc p <;> simp only [hpc] at hs
  case entering => exact h.acquire (.inl ⟨hpc, rfl⟩) hs
  case leaving => exact h.acquire (.inr ⟨hpc, rfl⟩) hs
  case letting => exact h.release (.inl ⟨hpc, rfl⟩) hs
  case entered => exact h.release (.inr (.inl ⟨hpc, rfl⟩)) hs
  case left => exact h.release (.inr (.inr ⟨hpc, rfl⟩)) hs
  case dozing => exact h.doze hpc hs
  case waking n => exact h.wakeup hpc hs
  case testing => exact h.test hpc hrun
  case falling => exact h.between (.inl hpc) hrun
  case rising => exact h.between (.inr (.inl hpc)) hrun
  case clearing => exact h.between (.inr (.inr hpc)) hrun
  all_goals cases hs

theorem Sound.step (h : Sound pidOf s) {t : SleepTurn N} (hs : s.step pidOf t = .go s') :
    Sound pidOf s' := by
  cases t with
  | run p => exact h.run hs
  | call p =>
      simp only [SleepSys.step] at hs
      split_ifs at hs with hout hin
      · cases hs
        constructor <;> simp only [goto] <;> grind
      · cases hs
        constructor <;> simp only [goto] <;> grind
  | schedule p =>
      simp only [SleepSys.step] at hs
      split_ifs at hs with hrun
      cases hs
      constructor <;> simp only [goto] <;> grind
  | kkill p =>
      simp only [SleepSys.step] at hs
      split_ifs at hs with hbolt hsleep
      · cases hs
        constructor <;> grind
      · cases hs
        exact h

theorem Sound.of_reaches (h : Reaches (SleepSys.step pidOf) AnyTurn boot s) : Sound pidOf s :=
  h.invariant sound_boot fun _ _ _ hs _ hgo => hs.step hgo

/-! ## The results -/

/-- Process 0 takes the lock, and process 1 goes to sleep on it. -/
def takeSlots : List (SleepTurn 2) :=
  [.call 0, .run 0, .run 0, .run 0, .call 1, .run 1, .run 1, .run 1, .run 1, .run 1]

/-- **Mutual exclusion.** In every state reached at most one process has
the lock, from the test that let it in to the `lk->locked = 0` of its
`releasesleep`; and if pids differ, `holdingsleep` answers yes to this
process and to no other. -/
theorem sleeplock_excludes (hpid : Function.Injective pidOf)
    (h : Reaches (SleepSys.step pidOf) AnyTurn boot s) (p : Fin N) :
    (∀ q, (s.pc p).owns → (s.pc q).owns → p = q) ∧
      s.holdingsleep pidOf p = (s.pc p).owns := by
  have hs := Sound.of_reaches h
  refine ⟨fun q hp hq => (hs.owner q hq).2.2 p hp, ?_⟩
  unfold holdingsleep
  by_cases hp : (s.pc p).owns
  · obtain ⟨hlocked, hown, -⟩ := hs.owner p hp
    simp [hp, hlocked, hown]
  · by_cases hlocked : s.locked
    · -- the holder is another process, with another pid
      obtain ⟨q, hq⟩ := hs.owned hlocked
      have hne : pidOf q ≠ pidOf p := by
        intro he
        exact hp (hpid he ▸ hq)
      simp [hp, hlocked, (hs.owner q hq).2.1, hne]
    · simp [hp, hlocked]

/-- Process 1 has slept on the lock, and has it now. -/
theorem sleeplock_excludes_two : ∃ s : SleepSys 2,
    Reaches (SleepSys.step fun p => p + 1) AnyTurn boot s ∧ s.pc 1 = inside ∧
      s.holdingsleep (fun p => p + 1) 1 = (s.pc 1).owns := by
  obtain ⟨s, hr, hs⟩ := exists_reaches (SleepSys.step fun p : Fin 2 => p + 1) anyTurn_ok
    (fun s => s.pc 1 == inside) boot
    (takeSlots ++ [.call 0, .run 0, .run 0, .run 0, .run 0, .run 0, .run 0,
      .schedule 1, .run 1, .run 1, .run 1, .run 1]) (by decide +kernel)
  have hinj : Function.Injective fun p : Fin 2 => (p : Nat) + 1 := by
    intro p q hpq
    exact Fin.ext (Nat.succ.inj hpq)
  exact ⟨s, hr, by simpa using hs, (sleeplock_excludes hinj hr 1).2⟩

/-- **No lost wakeup.** In every state reached in which the lock is free, a
process that sleeps on it has been seen by nobody's `wakeup` yet but is
still before one. -/
theorem no_lost_wakeup (h : Reaches (SleepSys.step pidOf) AnyTurn boot s)
    (hfree : s.locked = false) (hq : s.state q = sleeping) :
    s.chan q ∧ ∃ p n, s.lk = some p ∧ s.pc p = waking n ∧ n ≤ q := by
  have hs := Sound.of_reaches h
  have hpc : s.pc q = away := (hs.away q).mpr (by simp [hq])
  obtain ⟨p, n, hp, hn⟩ := hs.awaited hfree q (.inl hq)
  exact ⟨hs.chan q hpc, p, n, (hs.spin p).mpr (by simp [hp, spins]), hp, hn⟩

/-- Process 0 has given the lock back and looks at its own slot. -/
theorem no_lost_wakeup_two : ∃ s : SleepSys 2,
    Reaches (SleepSys.step fun p => p + 1) AnyTurn boot s ∧ s.locked = false ∧
      s.state 1 = sleeping ∧ ∃ p n, s.lk = some p ∧ s.pc p = waking n ∧ n ≤ (1 : Fin 2) := by
  obtain ⟨s, hr, hs⟩ := exists_reaches (SleepSys.step fun p : Fin 2 => p + 1) anyTurn_ok
    (fun s => !s.locked && decide (s.state 1 = sleeping)) boot
    (takeSlots ++ [.call 0, .run 0, .run 0]) (by decide +kernel)
  simp only [Bool.and_eq_true, Bool.not_eq_true', decide_eq_true_eq] at hs
  exact ⟨s, hr, hs.1, hs.2, (no_lost_wakeup hr hs.1 hs.2).2⟩

/-- What a process that cannot run on waits for. -/
theorem Sound.waits (h : Sound pidOf s) (hw : s.runOn pidOf p = .wait) :
    (s.pc p = out ∨ s.pc p = inside ∨ s.pc p = .away) ∨
      ((s.pc p = entering ∨ s.pc p = leaving) ∧ s.lk ≠ none) ∨
      ∃ n q, s.pc p = waking n ∧ q ≠ p ∧ s.plock q := by
  have hbolt := h.bolt p
  unfold runOn at hw
  cases hpc : s.pc p <;> simp only [hpc, SleepSys.acquire, SleepSys.release, SleepSys.doze,
    SleepSys.wakeup, bolts] at hw hbolt <;> grind

theorem Sound.no_halt (h : Sound pidOf s) (t : SleepTurn N) (m : String) :
    s.step pidOf t ≠ .halt m := by
  intro hs
  cases t with
  | run p =>
      have hspin := h.spin p
      have hbolt := h.bolt p
      simp only [SleepSys.step, runOn] at hs
      cases hpc : s.pc p <;> simp only [hpc, SleepSys.acquire, SleepSys.release, SleepSys.doze,
        SleepSys.wakeup, spins, bolts] at hs hspin hbolt <;> grind
  | call p | schedule p | kkill p =>
      simp only [SleepSys.step] at hs
      split_ifs at hs

/-- No process can run on, and none can be scheduled. -/
def Stuck (pidOf : Fin N → Nat) (s : SleepSys N) : Prop :=
  ∀ p, s.step pidOf (.run p) = .wait ∧ s.step pidOf (.schedule p) = .wait

theorem Sound.not_spins (h : Sound pidOf s) (hp : s.lk ≠ some p) :
    (s.pc p).spins = false :=
  Bool.eq_false_iff.mpr fun hspin => hp ((h.spin p).mpr hspin)

/-- The holder of `lk->lk` can only be in a `wakeup`, before a slot whose
process holds its own lock; such a process runs on. -/
theorem Sound.stuck_free (h : Sound pidOf s) (hs : s.Stuck pidOf) : s.lk = none := by
  by_contra hlk
  obtain ⟨p, hp⟩ := Option.ne_none_iff_exists'.mp hlk
  have hspin := (h.spin p).mp hp
  rcases h.waits (hs p).1 with hpc | ⟨hpc, -⟩ | ⟨n, q, hpc, hqp, hq⟩
  · rcases hpc with hpc | hpc | hpc <;> simp [hpc, spins] at hspin
  · rcases hpc with hpc | hpc <;> simp [hpc, spins] at hspin
  · have hbolt := h.bolt q
    have hqspin := h.not_spins (p := q) (by grind)
    have hwait := h.waits (hs q).1
    grind

theorem Sound.stuck_sleeping (h : Sound pidOf s) (hs : s.Stuck pidOf)
    (hq : s.pc q = .away) : s.state q = sleeping := by
  have hrun := (h.away q).mp hq
  have hbolt := h.bolt q
  have hwait := (hs q).2
  simp only [SleepSys.step] at hwait
  cases hst : s.state q <;> grind

/-- A sleeper is not before a `wakeup`, so the lock is not free; and its
holder is not on its way. -/
theorem Sound.stuck_inside (h : Sound pidOf s) (hs : s.Stuck pidOf)
    (hq : s.state q = sleeping) : ∃ p, s.pc p = inside := by
  have hspin := fun p => h.not_spins (p := p) (by simp [h.stuck_free hs])
  have hlocked : s.locked := by
    by_contra hfree
    obtain ⟨p, n, hp, -⟩ := h.awaited (by simpa using hfree) q (.inl hq)
    simpa [hp, spins] using hspin p
  obtain ⟨p, hp⟩ := h.owned hlocked
  have hwait := h.waits (hs p).1
  have hfree := h.stuck_free hs
  exact ⟨p, by grind⟩

/-- **Never stuck.** No state reached panics, whoever takes the next turn;
and one in which no process can go on by itself has every process
elsewhere, or inside, or asleep while another one is inside. -/
theorem sleeplock_never_stuck (h : Reaches (SleepSys.step pidOf) AnyTurn boot s) :
    (∀ t m, s.step pidOf t ≠ .halt m) ∧ (s.Stuck pidOf → ∀ q,
      s.pc q = out ∨ s.pc q = inside ∨ s.state q = sleeping ∧ ∃ p, s.pc p = inside) := by
  have hs := Sound.of_reaches h
  refine ⟨hs.no_halt, ?_⟩
  intro hstuck q
  have hfree := hs.stuck_free hstuck
  rcases hs.waits (hstuck q).1 with (hq | hq | hq) | ⟨-, hheld⟩ | ⟨n, p, hq, -⟩
  · exact .inl hq
  · exact .inr (.inl hq)
  · have hsleep := hs.stuck_sleeping hstuck hq
    exact .inr (.inr ⟨hsleep, hs.stuck_inside hstuck hsleep⟩)
  · exact absurd hfree hheld
  · have hspin := hs.not_spins (p := q) (by simp [hfree])
    simp [hq, spins] at hspin

/-- Process 1 sleeps until process 0 calls `releasesleep`. -/
theorem sleeplock_never_stuck_two : ∃ s : SleepSys 2,
    Reaches (SleepSys.step fun p => p + 1) AnyTurn boot s ∧ s.Stuck (fun p => p + 1) ∧
      s.pc 1 ≠ out ∧ s.pc 1 ≠ inside ∧ s.state 1 = sleeping := by
  obtain ⟨s, hr, hs⟩ := exists_reaches (SleepSys.step fun p : Fin 2 => p + 1) anyTurn_ok
    (fun s => decide (s.pc 0 = inside ∧ s.pc 1 = .away ∧ s.state 1 = sleeping ∧
      s.state 0 = running)) boot takeSlots (by decide +kernel)
  obtain ⟨h0, h1, hsleep, hrun⟩ := of_decide_eq_true hs
  have hstuck : s.Stuck fun p : Fin 2 => p + 1 := by
    intro p
    fin_cases p <;> simp [SleepSys.step, runOn, h0, h1, hsleep, hrun]
  have hres := (sleeplock_never_stuck hr).2 hstuck 1
  simp only [h1, reduceCtorEq, false_or] at hres
  exact ⟨s, hr, hstuck, by simp [h1], by simp [h1], hres.1⟩

end SleepSys

end OsSuite.Xv6
