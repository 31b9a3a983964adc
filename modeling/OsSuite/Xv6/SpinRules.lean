import OsSuite.Lib.Sure
import OsSuite.Xv6.Spin

/-!
# SpinRules — the calls that copy under a spinlock

The rules for code that takes and gives back spinlocks, and with them the
four callers: whatever their copies do, the callers themselves sleep with
no spinlock but the one that `sleep` gives back, and their copies are made
under the same spinlocks each time.
-/

namespace OsSuite.Xv6

namespace Locks

open Reentry

/-! ## Runs -/

section
variable {lk : Spin} {l : List Spin} {h : Held} {v : Vol} {r : Bool}

theorem acquire_run (hl : lk ∉ l) : acquire lk ⟨l, h, v⟩ = .ret () ⟨lk :: l, h, v⟩ [] := by
  rw [acquire, Prog.get_bind, if_neg hl]
  rfl

theorem acquire_held (hl : lk ∈ l) : acquire lk ⟨l, h, v⟩ = .panic "acquire" [] := by
  rw [acquire, Prog.get_bind, if_pos hl]
  rfl

theorem release_run (hl : lk ∈ l) : release lk ⟨l, h, v⟩ = .ret () ⟨l.erase lk, h, v⟩ [] := by
  rw [release, Prog.get_bind, if_pos hl]
  rfl

/-- The lock taken last is given back first. -/
theorem release_last : release lk ⟨lk :: l, h, v⟩ = .ret () ⟨l, h, v⟩ [] := by
  rw [release_run List.mem_cons_self, List.erase_cons_head]

theorem killed_run (hl : .self ∉ l) : killed r ⟨l, h, v⟩ = .ret r ⟨l, h, v⟩ [] := by
  rw [killed, Prog.bind_ret (acquire_run hl), Prog.bind_ret release_last]
  rfl

/-- **`sleep` under another spinlock.** -/
theorem sleep_locked (hl : l ≠ []) (hself : .self ∉ lk :: l) :
    sleep lk ⟨lk :: l, h, v⟩ = .panic "sched locks" [⟨lk, lk :: l⟩] := by
  have hlk : lk ≠ .self := fun he => hself (he ▸ List.mem_cons_self)
  have hsched : sched ⟨.self :: l, h, v⟩ = .panic "sched locks" [] := by
    rw [sched, Prog.get_bind, if_neg (by simp), if_pos (by simpa using hl)]
    rfl
  have hrelease : release lk ⟨.self :: lk :: l, h, v⟩ = .ret () ⟨.self :: l, h, v⟩ [] := by
    rw [release_run (List.mem_cons_of_mem _ List.mem_cons_self),
      List.erase_cons_tail (by simpa using hlk.symm), List.erase_cons_head]
  rw [sleep, Prog.get_bind, Prog.bind_ret (show Prog.tell _ _ = .ret () _ _ from rfl),
    Prog.bind_ret (acquire_run hself), Prog.bind_ret hrelease, Prog.bind_panic hsched]
  rfl

end

/-! ## Rules -/

/-- What is not held against a run: a `sleep` with no spinlock but its
own, and a lock that is taken twice. -/
structure Allows (G : Slept → Prop) (M : String → Prop) : Prop where
  sleep : ∀ lk, G ⟨lk, [lk]⟩
  acquire : M "acquire"

section
variable {α β : Type} {G : Slept → Prop} {M : String → Prop} {E : Cpu → Prop}
  {lk : Spin} {l : List Spin} {h : Held} {v : Vol} {Q : β → Cpu → Prop}

theorem sure_acquire_bind (hA : Allows G M) {f : Unit → KProg β}
    (hf : lk ∉ l → sure G (f ()) ⟨Q, E, M⟩ ⟨lk :: l, h, v⟩) :
    sure G (acquire lk >>= f) ⟨Q, E, M⟩ ⟨l, h, v⟩ := by
  by_cases hl : lk ∈ l
  · exact (sure_of_panic (Prog.bind_panic (acquire_held hl))).mpr ⟨hA.acquire, nofun⟩
  · exact sure_bind.mpr ((sure_of_ret (acquire_run hl)).mpr ⟨hf hl, nofun⟩)

theorem sure_release_bind {f : Unit → KProg β} (hf : sure G (f ()) ⟨Q, E, M⟩ ⟨l, h, v⟩) :
    sure G (release lk >>= f) ⟨Q, E, M⟩ ⟨lk :: l, h, v⟩ :=
  sure_bind.mpr ((sure_of_ret release_last).mpr ⟨hf, nofun⟩)

/-- The run leaves the process as it was. -/
def Returns (G : Slept → Prop) (E : Cpu → Prop) (M : String → Prop) (x : KProg α) (k : Cpu) :
    Prop := sure G x ⟨fun _ k' => k' = k, E, M⟩ k

theorem Returns.bind {x : KProg α} {f : α → KProg β} {k : Cpu} (hx : Returns G E M x k)
    (hf : ∀ a, sure G (f a) ⟨Q, E, M⟩ k) : sure G (x >>= f) ⟨Q, E, M⟩ k :=
  sure.bind hx fun a _ hk => hk ▸ hf a

theorem returns_times {x : KProg Unit} {k : Cpu} (hx : Returns G E M x k) (n : Nat) :
    Returns G E M (times n x) k :=
  sure_upTo (fun _ k' => k' = k) rfl fun _ _ _ hk => hk ▸ hx

theorem returns_wakeup (hA : Allows G M) : Returns G E M wakeup ⟨l, h, v⟩ := by
  refine sure_upTo (fun _ (k' : Cpu) => k' = ⟨l, h, v⟩) rfl fun j k' _ hk => ?_
  subst hk
  exact sure_acquire_bind hA fun _ => (sure_of_ret release_last).mpr ⟨rfl, nofun⟩

theorem returns_killed (hA : Allows G M) (r : Bool) : Returns G E M (killed r) ⟨l, h, v⟩ :=
  sure_acquire_bind hA fun _ => sure_release_bind (sure_pure.mpr rfl)

/-- **`sleep` with no other spinlock.** -/
theorem returns_sleep (hA : Allows G M) : Returns G E M (sleep lk) ⟨[lk], h, v⟩ := by
  unfold Returns sleep
  refine sure_get_bind.mpr (sure_bind.mpr (sure_tell.mpr ⟨?_, hA.sleep lk⟩))
  refine sure_acquire_bind hA fun hself => ?_
  have hlk : (Spin.self == lk) = false := by simpa using hself
  have hrelease : release lk ⟨[.self, lk], h, v⟩ = .ret () ⟨[.self], h, v⟩ [] := by
    rw [release_run (by simp), List.erase_cons, hlk]
    simp
  have hsched : sched ⟨[.self], h, v⟩ = .ret () ⟨[.self], h, v⟩ [] := rfl
  refine sure_bind.mpr ((sure_of_ret hrelease).mpr ⟨?_, nofun⟩)
  refine sure_bind.mpr ((sure_of_ret hsched).mpr ⟨sure_release_bind ?_, nofun⟩)
  exact (sure_of_ret (acquire_run List.not_mem_nil)).mpr ⟨rfl, nofun⟩

/-! ### The callers -/

/-- What is asked of the copy of byte `i` under the spinlocks `l`: it
leaves them, and if it succeeds it comes from `J i` to `J (i + 1)`. -/
def Copying (G : Slept → Prop) (E : Cpu → Prop) (M : String → Prop) (l : List Spin)
    (J : Nat → Held → Vol → Prop) (i : Nat) (x : KProg Bool) : Prop :=
  ∀ h v, J i h v → sure G x ⟨fun ok k => ∃ h' v', k = ⟨l, h', v'⟩ ∧ (ok = true → J (i + 1) h' v'),
    E, M⟩ ⟨l, h, v⟩

variable {J : Nat → Held → Vol → Prop} {copy : Nat → KProg Bool} {f : Nat → Round}

/-- Any end will do. -/
abbrev anyEnd (α : Type) : α → Cpu → Prop := fun _ _ => True

theorem sure_pipeDone (hA : Allows G M) (r : Int) :
    sure G (pipeDone r) ⟨anyEnd Int, E, M⟩ ⟨[.pipe], h, v⟩ :=
  (returns_wakeup hA).bind fun _ => sure_release_bind (sure_pure.mpr trivial)

theorem Copying.bind {i : Nat} {x : KProg Bool} {g : Bool → KProg β} (hx : Copying G E M l J i x)
    (hJ : J i h v) (htrue : ∀ h' v', J (i + 1) h' v' → sure G (g true) ⟨Q, E, M⟩ ⟨l, h', v'⟩)
    (hfalse : ∀ h' v', sure G (g false) ⟨Q, E, M⟩ ⟨l, h', v'⟩) :
    sure G (x >>= g) ⟨Q, E, M⟩ ⟨l, h, v⟩ :=
  (hx h v hJ).bind fun ok k hk => by
    obtain ⟨h', v', rfl, hok⟩ := hk
    cases ok with
    | true => exact htrue h' v' (hok rfl)
    | false => exact hfalse h' v'

theorem sure_pipewriteLoop (hA : Allows G M) : ∀ n i h v,
    (∀ j, i ≤ j → j < i + n → Copying G E M [.pipe] J j (copy j)) → J i h v →
    sure G (pipewriteLoop f copy n i) ⟨anyEnd Int, E, M⟩ ⟨[.pipe], h, v⟩
  | 0, i, _, _, _, _ => sure_pipeDone hA i
  | n + 1, i, h, v, hcopy, hJ => by
      have hround : Returns G E M (do
          let _ ← killed false
          wakeup
          sleep .pipe) ⟨[.pipe], h, v⟩ :=
        (returns_killed hA false).bind fun _ => (returns_wakeup hA).bind fun _ => returns_sleep hA
      have hstop : Returns G E M (if (f i).closed then pure true else killed (f i).killed)
          ⟨[.pipe], h, v⟩ := by
        split
        · exact sure_pure.mpr rfl
        · exact returns_killed hA _
      refine (returns_times hround _).bind fun _ => hstop.bind fun stop => ?_
      split
      · exact sure_release_bind (sure_pure.mpr trivial)
      · refine (hcopy i (Nat.le_refl i) (by omega)).bind hJ (fun h' v' hJ' => ?_) fun h' v' => ?_
        · exact sure_pipewriteLoop hA n (i + 1) h' v'
            (fun j hj hj' => hcopy j (by omega) (by omega)) hJ'
        · exact sure_pipeDone hA i

theorem sure_await (hA : Allows G M) {r : Round} : sure G (await lk r)
    ⟨fun ok k => k = ⟨if ok then [lk] else [], h, v⟩, E, M⟩ ⟨[lk], h, v⟩ := by
  have hround : Returns G E M (do
      let _ ← killed false
      sleep lk) ⟨[lk], h, v⟩ := (returns_killed hA false).bind fun _ => returns_sleep hA
  refine (returns_times hround _).bind fun _ => ?_
  split
  · exact (returns_killed hA true).bind fun _ => sure_release_bind (sure_pure.mpr rfl)
  · exact sure_pure.mpr rfl

theorem sure_await_bind (hA : Allows G M) {r : Round} {g : Bool → KProg β}
    (htrue : sure G (g true) ⟨Q, E, M⟩ ⟨[lk], h, v⟩)
    (hfalse : sure G (g false) ⟨Q, E, M⟩ ⟨[], h, v⟩) :
    sure G (await lk r >>= g) ⟨Q, E, M⟩ ⟨[lk], h, v⟩ :=
  (sure_await hA).bind fun ok k hk => by
    subst hk
    cases ok with
    | true => exact htrue
    | false => exact hfalse

theorem sure_pipereadLoop (hA : Allows G M) : ∀ n i h v,
    (∀ j, i ≤ j → j < i + n → Copying G E M [.pipe] J j (copy j)) → J i h v →
    sure G (pipereadLoop f copy n i) ⟨anyEnd Int, E, M⟩ ⟨[.pipe], h, v⟩
  | 0, i, _, _, _, _ => sure_pipeDone hA i
  | n + 1, i, h, v, hcopy, hJ => by
      unfold pipereadLoop
      split
      · exact sure_pipeDone hA i
      · refine (hcopy i (Nat.le_refl i) (by omega)).bind hJ (fun h' v' hJ' => ?_) fun h' v' => ?_
        · exact sure_pipereadLoop hA n (i + 1) h' v'
            (fun j hj hj' => hcopy j (by omega) (by omega)) hJ'
        · exact sure_pipeDone hA _

theorem sure_consoleDone (r : Int) :
    sure G (consoleDone r) ⟨anyEnd Int, E, M⟩ ⟨[.cons], h, v⟩ :=
  sure_release_bind (sure_pure.mpr trivial)

theorem sure_consolereadLoop (hA : Allows G M) : ∀ n i h v,
    (∀ j, i ≤ j → j < i + n → Copying G E M [.cons] J j (copy j)) → J i h v →
    sure G (consolereadLoop f copy n i) ⟨anyEnd Int, E, M⟩ ⟨[.cons], h, v⟩
  | 0, i, _, _, _, _ => sure_consoleDone i
  | n + 1, i, h, v, hcopy, hJ => by
      refine sure_await_bind hA ?_ (sure_pure.mpr trivial)
      rw [if_pos rfl]
      split
      · exact sure_consoleDone i
      · refine (hcopy i (Nat.le_refl i) (by omega)).bind hJ (fun h' v' hJ' => ?_) fun h' v' => ?_
        · rw [if_pos rfl]
          split
          · exact sure_consoleDone _
          · exact sure_consolereadLoop hA n (i + 1) h' v'
              (fun j hj hj' => hcopy j (by omega) (by omega)) hJ'
        · exact sure_consoleDone i

theorem returns_passOver (hA : Allows G M) (js : List Nat) :
    Returns G E M (passOver js) ⟨l, h, v⟩ := by
  induction js with
  | nil => exact sure_pure.mpr rfl
  | cons j js ih => exact sure_acquire_bind hA fun _ => sure_release_bind ih

theorem returns_waitPasses (hA : Allows G M) (passes : List (Nat × List Nat)) :
    Returns G E M (waitPasses passes) ⟨[.wait], h, v⟩ := by
  induction passes with
  | nil => exact sure_pure.mpr rfl
  | cons js passes ih =>
      exact (returns_passOver hA _).bind fun _ => (returns_killed hA false).bind fun _ =>
        (returns_sleep hA).bind fun _ => ih

/-- What is asked of `freeproc` under the spinlocks `l`: it leaves them. -/
def Freeing (G : Slept → Prop) (E : Cpu → Prop) (M : String → Prop) (l : List Spin) (x : KProg Unit)
    (h : Held) (v : Vol) : Prop :=
  sure G x ⟨fun _ k => ∃ h' v', k = ⟨l, h', v'⟩, E, M⟩ ⟨l, h, v⟩

theorem sure_kwaitDone (j : Nat) (r : Int) :
    sure G (kwaitDone j r) ⟨anyEnd Int, E, M⟩ ⟨[.proc j, .wait], h, v⟩ :=
  sure_release_bind (sure_release_bind (sure_pure.mpr trivial))

theorem sure_reap {reply : Nat → Reply} {exec : Option Exec} {j : Nat} {pid : Int}
    (hfree : Freeing G E M [.proc j, .wait] (freeproc reply exec) h v) :
    sure G (reap reply exec j pid) ⟨anyEnd Int, E, M⟩ ⟨[.proc j, .wait], h, v⟩ :=
  sure.bind hfree fun _ k hk => by
    obtain ⟨h', v', rfl⟩ := hk
    exact sure_kwaitDone j pid

theorem sure_kwait (hA : Allows G M) {fam : Family} {reply : Nat → Reply} {addr : Nat}
    {exec : Option Exec}
    (hcopy : ∀ j ∈ fam.zombie, addr ≠ 0 → Copying G E M [.proc j, .wait] J 0 (copy 0))
    (hfree : ∀ j ∈ fam.zombie, ∀ h v, J (if addr = 0 then 0 else 1) h v →
      Freeing G E M [.proc j, .wait] (freeproc reply exec) h v)
    (hJ : J 0 h v) : sure G (kwait fam reply copy addr exec) ⟨anyEnd Int, E, M⟩ ⟨[], h, v⟩ := by
  refine sure_acquire_bind hA fun _ => (returns_waitPasses hA _).bind fun _ =>
    (returns_passOver hA _).bind fun _ => ?_
  split
  · rename_i j hj
    refine sure_acquire_bind hA fun _ => ?_
    split
    · rename_i haddr
      exact sure_reap (hfree j hj h v (by rwa [if_pos haddr]))
    · rename_i haddr
      refine (hcopy j hj haddr).bind hJ (fun h' v' hJ' => ?_) fun h' v' => ?_
      · exact sure_reap (hfree j hj h' v' (by rwa [if_neg haddr]))
      · exact sure_kwaitDone j _
  · split
    · exact sure_release_bind (sure_pure.mpr trivial)
    · exact (returns_killed hA true).bind fun _ => sure_release_bind (sure_pure.mpr trivial)

/-- **A call under its spinlocks**: it never sleeps with another one, and
ends as its copies do. -/
theorem SpinCall.sure_run (hA : Allows G M) {c : SpinCall} {s : Scene}
    (hcopy : ∀ i < c.copies, Copying G E M (c.grip s) J i (copy i))
    (hfree : ∀ addr exec, c = .kwait addr exec → ∀ h v, J c.copies h v →
      Freeing G E M (c.grip s) (freeproc s.reply exec) h v)
    (hJ : J 0 h v) : sure G (c.run s copy) ⟨anyEnd Int, E, M⟩ ⟨[], h, v⟩ := by
  cases c with
  | pipewrite n =>
      refine sure_acquire_bind hA fun _ => sure_pipewriteLoop hA n.toNat 0 h v ?_ hJ
      exact fun j _ hj => hcopy j (by rwa [Nat.zero_add] at hj)
  | piperead n =>
      refine sure_acquire_bind hA fun _ => sure_await_bind hA ?_ (sure_pure.mpr trivial)
      refine sure_pipereadLoop hA n.toNat 0 h v ?_ hJ
      exact fun j _ hj => hcopy j (by rwa [Nat.zero_add] at hj)
  | consoleread n =>
      refine sure_acquire_bind hA fun _ => sure_consolereadLoop hA n.toNat 0 h v ?_ hJ
      exact fun j _ hj => hcopy j (by rwa [Nat.zero_add] at hj)
  | kwait addr exec =>
      have hgrip : ∀ j ∈ s.family.zombie, (SpinCall.kwait addr exec).grip s = [.proc j, .wait] :=
        fun j hj => by
          have hj : s.family.zombie = some j := hj
          rw [SpinCall.grip, hj]
          rfl
      refine sure_kwait hA (fun j hj haddr => ?_) (fun j hj h v hJ => ?_) hJ
      · exact hgrip j hj ▸ hcopy 0 (by simp [SpinCall.copies, haddr])
      · exact hgrip j hj ▸ hfree addr exec rfl h v hJ

end

/-! ### File-system code under the spinlocks of its caller

Whatever it finds, it leaves them as they were, if it comes back. -/

section
variable {α : Type} {E : Cpu → Prop} {lk : Spin} {l : List Spin} {h : Held} {v : Vol} {r : Reply}

/-- Anything may be observed, and any panic may happen. -/
theorem allows_any : Allows (fun _ => True) fun _ => True := ⟨fun _ => trivial, trivial⟩

/-- The code leaves the process as it was, if it comes back. -/
abbrev Keeps (E : Cpu → Prop) (x : KProg α) : Prop :=
  ∀ l h v, Returns (fun _ => True) E (fun _ => True) x ⟨l, h, v⟩

/-- The same, of code that is run with `lk`. -/
abbrev KeepsIn (E : Cpu → Prop) (lk : Spin) (x : KProg α) : Prop :=
  ∀ l h v, Returns (fun _ => True) E (fun _ => True) x ⟨lk :: l, h, v⟩

theorem keeps_pure {a : α} : Keeps E (pure a) := fun _ _ _ => sure_pure.mpr rfl

theorem keeps_panic {m : String} : Keeps E (Prog.panic m : KProg α) := fun _ _ _ =>
  sure_panic.mpr trivial

theorem Keeps.bind {β : Type} {x : KProg α} {f : α → KProg β} (hx : Keeps E x)
    (hf : ∀ a, Keeps E (f a)) : Keeps E (x >>= f) := fun l h v =>
  (hx l h v).bind fun a => hf a l h v

theorem KeepsIn.bind {β : Type} {x : KProg α} {f : α → KProg β} {Q : β → Cpu → Prop}
    (hx : KeepsIn E lk x)
    (hf : ∀ a, sure (fun _ => True) (f a) ⟨Q, E, fun _ => True⟩ ⟨lk :: l, h, v⟩) :
    sure (fun _ => True) (x >>= f) ⟨Q, E, fun _ => True⟩ ⟨lk :: l, h, v⟩ :=
  (hx l h v).bind hf

theorem keeps_acquire_bind {f : Unit → KProg α} (hf : ∀ l h v,
      sure (fun _ => True) (f ()) ⟨fun _ k => k = ⟨l, h, v⟩, E, fun _ => True⟩ ⟨lk :: l, h, v⟩) :
    Keeps E (acquire lk >>= f) := fun l h v => sure_acquire_bind allows_any fun _ => hf l h v

theorem sure_release : sure (fun _ => True) (release lk)
    ⟨fun _ k => k = ⟨l, h, v⟩, E, fun _ => True⟩ ⟨lk :: l, h, v⟩ :=
  (sure_of_ret release_last).mpr ⟨rfl, fun _ _ => trivial⟩

theorem keeps_wakeup : Keeps E wakeup := fun _ _ _ => returns_wakeup allows_any

theorem keepsIn_times {x : KProg Unit} (hx : KeepsIn E lk x) (n : Nat) : KeepsIn E lk (times n x) :=
  fun l h v => returns_times (hx l h v) n

/-- **`sleep` comes back only if there is no other spinlock.** -/
theorem keepsIn_sleep : KeepsIn E lk (sleep lk) := fun l h v => by
  by_cases hself : .self ∈ lk :: l
  · have hpanic : sleep lk ⟨lk :: l, h, v⟩ = .panic "acquire" [⟨lk, lk :: l⟩] := by
      rw [sleep, Prog.get_bind, Prog.bind_ret (show Prog.tell _ _ = .ret () _ _ from rfl),
        Prog.bind_panic (acquire_held hself)]
      rfl
    exact (sure_of_panic hpanic).mpr ⟨trivial, fun _ _ => trivial⟩
  · by_cases hl : l = []
    · subst hl
      exact returns_sleep allows_any
    · exact (sure_of_panic (sleep_locked hl hself)).mpr ⟨trivial, fun _ _ => trivial⟩

theorem keeps_acquiresleep (n : Nat) : Keeps E (acquiresleep lk n) :=
  keeps_acquire_bind fun _ _ _ => (keepsIn_times keepsIn_sleep n).bind fun _ => sure_release

theorem keeps_releasesleep : Keeps E (releasesleep lk) :=
  keeps_acquire_bind fun _ _ _ => (keeps_wakeup _ _ _).bind fun _ => sure_release

theorem keeps_holdingsleep : Keeps E (holdingsleep lk) :=
  keeps_acquire_bind fun _ _ _ => sure_release

theorem keepsIn_allocDescs (ds : List Nat) : KeepsIn E .vdisk (allocDescs ds) := fun l h v => by
  induction ds with
  | nil => exact sure_pure.mpr rfl
  | cons d ds ih =>
      exact (keepsIn_times (fun l h v => keeps_wakeup _ h v) d).bind fun _ =>
        keepsIn_sleep.bind fun _ => ih

theorem keeps_virtioDiskRw : Keeps E (virtioDiskRw r) :=
  keeps_acquire_bind fun _ _ _ => (keepsIn_allocDescs _).bind fun _ =>
    (keepsIn_times keepsIn_sleep _).bind fun _ =>
      (keepsIn_times (fun _ h v => keeps_wakeup _ h v) 3).bind fun _ => sure_release

theorem keeps_bread (b : Nat) : Keeps E (bread b r) := by
  have hget : Keeps E (bget b r) := keeps_acquire_bind fun l h v => by
    split
    · exact sure_panic.mpr trivial
    · exact sure_release_bind (keeps_acquiresleep _ l h v)
  refine hget.bind fun _ => ?_
  split
  · exact keeps_pure
  · exact keeps_virtioDiskRw

theorem keeps_brelse (b : Nat) : Keeps E (brelse b) :=
  keeps_holdingsleep.bind fun _ => keeps_releasesleep.bind fun _ =>
    keeps_acquire_bind fun _ _ _ => sure_release

theorem keeps_bwrite (b : Nat) : Keeps E (bwrite b r) :=
  keeps_holdingsleep.bind fun _ => keeps_virtioDiskRw

theorem keeps_ilock (i : Nat) : Keeps E (ilock i r) := by
  refine (keeps_acquiresleep _).bind fun _ => ?_
  split
  · exact keeps_pure
  · refine (keeps_bread _).bind fun _ => (keeps_brelse _).bind fun _ => ?_
    split
    · exact keeps_panic
    · exact keeps_pure

theorem keeps_iunlock (i : Nat) : Keeps E (iunlock i) :=
  keeps_holdingsleep.bind fun _ => keeps_releasesleep

theorem keeps_beginOp (g : Log) : Keeps E (beginOp g r) := keeps_acquire_bind fun l h v => by
  dsimp only
  split
  · exact (keepsIn_times keepsIn_sleep _).bind fun _ => sure_release
  · exact sure_release

theorem keeps_logWrite (b : Nat) : Keeps E (logWrite b r) := keeps_acquire_bind fun l h v => by
  split
  · exact sure_panic.mpr trivial
  · have hpin : Keeps E bpin := keeps_acquire_bind fun _ _ _ => sure_release
    dsimp only
    split
    · exact sure_release
    · exact (hpin _ h v).bind fun _ => sure_release

theorem keeps_endOp : Keeps E (endOp r) := keeps_acquire_bind fun l h v => by
  split
  · exact sure_panic.mpr trivial
  · dsimp only
    split
    · exact sure_release
    · exact (keeps_wakeup _ h v).bind fun _ => sure_release

theorem keeps_act (e : LockEv) : Keeps E (act r e) := by
  cases e with
  | beginOp g => exact keeps_beginOp g
  | io e =>
      cases e with
      | beginOp => exact keeps_beginOp _
      | endOp => exact keeps_endOp
      | committed => exact keeps_releasesleep
      | bread b => exact keeps_bread b
      | brelse b => exact keeps_brelse b
      | bwrite b => exact keeps_bwrite b
      | logWrite b => exact keeps_logWrite b
      | ilock i => exact keeps_ilock i
      | iunlock i => exact keeps_iunlock i
      | copy b => exact keeps_pure

/-- The sleep-locks and transactions after some observations. -/
def heldAfter (h : Held) (w : List LockEv) : Held := (w.map forget).foldl Held.after h

theorem heldAfter_append (h : Held) (w w' : List LockEv) :
    heldAfter h (w ++ w') = heldAfter (heldAfter h w) w' := by
  rw [heldAfter, List.map_append, List.foldl_append]
  rfl

theorem sure_perform (e : LockEv) : sure (fun _ => True) (perform r e)
    ⟨fun _ k => k = ⟨l, h.after (forget e), v⟩, E, fun _ => True⟩ ⟨l, h, v⟩ :=
  (keeps_act e l h v).bind fun _ => sure_modify.mpr rfl

/-- **The observations, performed.** -/
theorem sure_play {reply : Nat → Reply} (w : List LockEv) : sure (fun _ => True) (play reply w)
    ⟨fun _ k => k = ⟨l, heldAfter h w, v⟩, E, fun _ => True⟩ ⟨l, h, v⟩ := by
  induction w generalizing h reply with
  | nil => exact sure_pure.mpr rfl
  | cons e w ih =>
      refine (sure_perform e).bind fun _ k hk => ?_
      subst hk
      exact ih

/-- **File-system code under spinlocks**: if it comes back, it has done
what it does without them. -/
theorem sure_carry {reply : Nat → Reply} {gone : KProg α} {y : FaultProg α}
    (hgone : ∀ h v, sure (fun _ => True) gone ⟨fun _ _ => False, E, fun _ => True⟩ ⟨l, h, v⟩) :
    sure (fun _ => True) (carry reply gone y)
      ⟨fun a k => ∃ v' w, y v = .ret a v' w ∧ k = ⟨l, heldAfter h w, v'⟩, E, fun _ => True⟩
      ⟨l, h, v⟩ := by
  obtain ⟨o, hy⟩ : ∃ o, y v = o := ⟨_, rfl⟩
  cases o with
  | ret a v' w =>
      have hrun : carry reply gone y ⟨l, h, v⟩ = (do
          play reply w
          Prog.modify fun k => { k with vol := v' }
          pure a : KProg α) ⟨l, h, v⟩ := by rw [carry, hy]
      refine (sure_congr hrun).mpr ((sure_play w).bind fun _ k hk => ?_)
      subst hk
      exact sure_modify_bind.mpr (sure_pure.mpr ⟨v', w, hy, rfl⟩)
  | exit v' w =>
      have hrun : carry reply gone y ⟨l, h, v⟩ = (do
          play reply w
          gone : KProg α) ⟨l, h, v⟩ := by rw [carry, hy]
      refine (sure_congr hrun).mpr ((sure_play w).bind fun _ k hk => ?_)
      subst hk
      exact (hgone _ _).mono (fun _ _ hf => hf.elim) (fun _ h => h) fun _ h => h
  | panic m w =>
      have hrun : carry reply gone y ⟨l, h, v⟩ = (do
          play reply w
          Prog.panic m : KProg α) ⟨l, h, v⟩ := by rw [carry, hy]
      exact (sure_congr hrun).mpr ((sure_play w).bind fun _ _ _ => sure_panic.mpr trivial)

/-- `kexit` does not come back. -/
theorem sure_leave (n : Nat) : sure (fun _ => True) (leave n : KProg α)
    ⟨fun _ _ => False, E, fun _ => True⟩ ⟨l, h, v⟩ := by
  refine sure_acquire_bind allows_any fun _ => ?_
  refine (returns_times (keeps_wakeup _ h v) n).bind fun _ => (keeps_wakeup _ h v).bind fun _ => ?_
  refine sure_acquire_bind allows_any fun _ => ?_
  have hrelease : release .wait ⟨.self :: .wait :: l, h, v⟩ = .ret () ⟨.self :: l, h, v⟩ [] := by
    rw [release_run (by simp), List.erase_cons_tail (by simp), List.erase_cons_head]
  refine sure_bind.mpr ((sure_of_ret hrelease).mpr ⟨?_, fun _ _ => trivial⟩)
  unfold sched
  refine sure_bind.mpr (sure_get_bind.mpr ?_)
  split
  · exact sure_panic.mpr trivial
  · split
    · exact sure_panic.mpr trivial
    · exact sure_pure.mpr (sure_panic.mpr trivial)

end

end Locks

end OsSuite.Xv6
