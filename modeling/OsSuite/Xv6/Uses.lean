import OsSuite.Xv6.Reentry

/-!
# Uses — the file system as a page fault uses it

Code that runs inside a transfer is compared with a list of its USES:
the run waits for its own process exactly if one of the uses COLLIDES
with the transfer. The comparison composes; here it is carried out for
transactions and for `kexit`.
-/

namespace OsSuite.Xv6

namespace Reentry

open Held

section
variable {α β : Type} {strict : Prop} {h : Held} {v : Vol} {E : Vol → Held → Prop}

/-! ## Embedded code -/

theorem calm_io {x : BProg α} {Q : α → Vol → Held → Prop} :
    (watchOps strict).calm (io x) Q E h v ↔ (watch strict).calm x Q E h v :=
  Watcher.calm_relabel

theorem caught_io {x : BProg α} :
    (watchOps strict).Caught (io x) h v ↔ (watch strict).Caught x h v :=
  Watcher.caught_relabel

/-- A watcher that is not strict never raises the alarm. -/
theorem not_alarms_lax (w : List BlockEv) : ¬ (watch False).Alarms h w := by
  induction w generalizing h with
  | nil => exact id
  | cons e w ih => exact fun hw => hw.elim (fun h => h.1) ih

/-! ## The commit -/

/-- No held buffer is a block of the log. -/
def OffLog (h : Held) : Prop := ∀ c ∈ h.bufs, logStart + logBlocks < c

theorem OffLog.not_mem (ho : OffLog h) {c : Nat} (hc : c ≤ logStart + logBlocks) : c ∉ h.bufs :=
  fun hm => absurd (ho c hm) (by omega)

/-- A loop over the log that reads in each round one block of the log and
one logged block. -/
theorem forTail_run {body : Nat → Nat → BProg Unit} (lh : List Nat)
    (hbody : ∀ tail b, tail < logBlocks → logStart + logBlocks < b →
      ∃ w, body tail b v = .ret () v w ∧ Touches OffLog (· = b) w)
    (hhome : ∀ b ∈ lh, logStart + logBlocks < b) (tail : Nat) (hlen : tail + lh.length ≤ logBlocks) :
    ∃ w, forTail body tail lh v = .ret () v w ∧ Touches OffLog (· ∈ lh) w := by
  induction lh generalizing tail with
  | nil => exact ⟨[], rfl, Touches.nil.congr fun b => by simp⟩
  | cons b lh ih =>
      rw [List.length_cons] at hlen
      obtain ⟨w₁, h₁, t₁⟩ := hbody tail b (by omega) (hhome b List.mem_cons_self)
      obtain ⟨w₂, h₂, t₂⟩ := ih (fun c hc => hhome c (List.mem_cons_of_mem _ hc)) (tail + 1) (by omega)
      refine ⟨_, ?_, (t₁.append t₂).congr fun c => by simp⟩
      rw [forTail, Prog.bind_ret h₁, h₂]
      rfl

theorem writeLog_run {lh : List Nat} (hhome : ∀ b ∈ lh, logStart + logBlocks < b)
    (hlen : lh.length ≤ logBlocks) :
    ∃ w, writeLog lh v = .ret () v w ∧ Touches OffLog (· ∈ lh) w := by
  refine forTail_run lh (fun tail b htail hb => ⟨_, rfl, fun strict h => by simp,
    fun strict h ho => ?_⟩) hhome 0 (by omega)
  have hlog : logStart + tail + 1 ∉ h.bufs := ho.not_mem (by omega)
  simp [hlog, bufs_bread, show b ≠ logStart + tail + 1 by omega]

theorem installTrans_run {lh : List Nat} (hhome : ∀ b ∈ lh, logStart + logBlocks < b)
    (hlen : lh.length ≤ logBlocks) :
    ∃ w, installTrans lh v = .ret () v w ∧ Touches OffLog (· ∈ lh) w := by
  refine forTail_run lh (fun tail b htail hb => ⟨_, rfl, fun strict h => ?_,
    fun strict h ho => ?_⟩) hhome 0 (by omega)
  · -- the log block goes first, from under the other one
    simp [Held.after, List.erase_comm]
  · have hlog : logStart + tail + 1 ∉ h.bufs := ho.not_mem (by omega)
    simp [hlog, bufs_bread, show b ≠ logStart + tail + 1 by omega]

theorem writeHead_run : ∃ w, writeHead v = .ret () v w ∧ Touches OffLog (fun _ => False) w := by
  refine ⟨[.bread logStart, .bwrite logStart, .brelse logStart], rfl, fun strict h => by simp, fun strict h ho => ?_⟩
  have : logStart ∉ h.bufs := ho.not_mem (Nat.le_add_right _ _)
  simp [this]

/-- **A commit reads every block of the log**, and nothing else but the
log. -/
theorem commit_run {t : Window} (ht : t.Sane) :
    ∃ w, commit t.ended.lh v = .ret () v w ∧ Touches OffLog (· ∈ t.ended.lh) w := by
  unfold commit
  split
  · rename_i hnil
    rw [hnil]
    exact ⟨[], rfl, Touches.nil.congr fun b => by simp⟩
  · obtain ⟨w₁, h₁, t₁⟩ := writeLog_run (v := v) ht.home ht.room
    obtain ⟨w₂, h₂, t₂⟩ := installTrans_run (v := v) ht.home ht.room
    obtain ⟨w₀, h₀, t₀⟩ := writeHead_run (v := v)
    refine ⟨_, ?_, (((t₁.append t₀).append t₂).append t₀).congr fun b => by simp⟩
    simp [bind, Prog.bind, h₀, h₁, h₂, Out.after]

/-! ## Transactions -/

theorem calm_commit {t : Window} (ht : t.Sane) :
    (watch False).calm (commit t.ended.lh) (fun _ v' h' => h' = h ∧ v' = v) E h v := by
  obtain ⟨w, hrun, hw⟩ := commit_run (v := v) ht
  exact Watcher.calm_of_ret hrun (not_alarms_lax w) ⟨hw.after False h, rfl⟩

theorem calm_endOp {t : Window} (ht : t.Sane) {Q : Unit → Vol → Held → Prop}
    (hQ : Q () v (h.after .endOp)) :
    (watchOps False).calm (endOp t.ended) Q E h v := by
  unfold endOp
  refine Watcher.calm_bind.mpr (Watcher.calm_tell.mpr ⟨fun hf => hf.1, ?_⟩)
  split
  · refine (calm_io.mpr (calm_commit ht)).bind fun _ v' h' hq => ?_
    obtain ⟨rfl, rfl⟩ := hq
    exact Watcher.calm_tell.mpr ⟨fun hf => hf.1, hQ⟩
  · exact Watcher.calm_pure.mpr hQ

/-- A transaction gives back what it takes if its body does. -/
theorem calm_transact {t : Window} (ht : t.Sane) {x : FaultProg α} {Q : α → Vol → Prop}
    (hx : (watchOps False).calm x (fun a v' h' => h' = h.after .beginOp ∧ Q a v') E
      (h.after .beginOp) v) :
    (watchOps False).calm (transact t x) (fun a v' h' => h' = h ∧ Q a v') E h v := by
  unfold transact
  refine Watcher.calm_bind.mpr (Watcher.calm_tell.mpr ⟨fun hf => hf.1, ?_⟩)
  refine hx.bind fun a v' h' hq => ?_
  obtain ⟨rfl, hq⟩ := hq
  refine Watcher.calm_bind.mpr (calm_endOp ht ?_)
  exact Watcher.calm_pure.mpr ⟨beginOp_endOp, hq⟩

theorem alone_wait (l : Log) (d : Nat) : (l.alone d).beginOp = .wait ↔
    logBlocks < l.lh.length + (d + 1) * maxOpBlocks := by
  have hcast : (l.lh.length + ((d : Int) + 1) * maxOpBlocks > logBlocks) ↔
      logBlocks < l.lh.length + (d + 1) * maxOpBlocks := by
    rw [gt_iff_lt]
    exact_mod_cast Iff.rfl
  simp only [Log.beginOp, Log.alone, Bool.false_eq_true, if_false, hcast]
  split <;> simp_all

variable {x : Point} {level : Nat}

theorem offLog_held (hx : bitmapBlock < x.addr) (level : Nat) : OffLog (x.held level) :=
  fun c hc => by
    rw [Point.held, List.mem_singleton] at hc
    subst hc
    exact Nat.lt_trans (by decide) hx

theorem caught_endOp {t : Window} (ht : t.Sane) (hx : bitmapBlock < x.addr) :
    (watchOps True).Caught (endOp t.ended) (x.held (level + 1)) v ↔
      t.ended.outstanding = 1 ∧ x.addr ∈ t.ended.lh := by
  unfold endOp
  rw [Watcher.caught_tell_bind]
  have hend : (watchOps True).next (x.held (level + 1)) (.io .endOp) = x.held level := rfl
  have hquiet : ¬ (watchOps True).alarm (x.held (level + 1)) (.io .endOp) := fun h => h.2
  rw [hend, or_iff_right hquiet]
  split
  · rename_i hone
    obtain ⟨w, hrun, hw⟩ := commit_run (v := v) ht
    have hdone : ∀ (h : Held) (v : Vol),
        ¬ (watchOps True).Caught (Prog.tell (.io .committed)) h v := fun _ _ hc =>
      (Watcher.caught_tell.mp hc).2
    rw [Watcher.caught_bind, caught_io, Watcher.caught_of_ret hrun,
      hw.alarms True _ (offLog_held hx level)]
    simp [Point.held, hone, hdone]
  · rename_i hone
    simp [hone]

/-- **A transaction waits for its own process** if there is no space for
it next to the open ones of the process, if its body does, or if it
commits the block that is being copied. -/
theorem caught_transact {t : Window} (ht : t.Sane) (hx : bitmapBlock < x.addr) {p : FaultProg α}
    (hp : (watchOps False).calm p (fun _ _ h' => h' = x.held (level + 1)) E (x.held (level + 1)) v) :
    (watchOps True).Caught (transact t p) (x.held level) v ↔
      (0 < x.depth + level ∧
        logBlocks < t.begun.lh.length + (x.depth + level + 1) * maxOpBlocks) ∨
      (watchOps True).Caught p (x.held (level + 1)) v ∨
      (∃ a v' w, p v = .ret a v' w) ∧ t.ended.outstanding = 1 ∧ x.addr ∈ t.ended.lh := by
  unfold transact
  rw [Watcher.caught_tell_bind, Watcher.caught_bind]
  have hbegin : (watchOps True).next (x.held level) (.beginOp t.begun) = x.held (level + 1) := rfl
  rw [hbegin]
  refine or_congr ?_ (or_congr Iff.rfl ?_)
  · show True ∧ 0 < x.depth + level ∧ (t.begun.alone (x.depth + level)).beginOp = .wait ↔ _
    rw [alone_wait, true_and]
  · have hend : ∀ {a v' w}, p v = .ret a v' w →
        ((watchOps True).Caught (endOp t.ended >>= fun _ => pure a)
          ((watchOps True).after (x.held (level + 1)) w) v' ↔
          t.ended.outstanding = 1 ∧ x.addr ∈ t.ended.lh) := fun {a v' w} hrun => by
      have hafter : (watchOps True).after (x.held (level + 1)) w = x.held (level + 1) :=
        hp.of_ret hrun
      rw [hafter, Watcher.caught_bind, caught_endOp ht hx]
      simp
    exact ⟨fun ⟨a, v', w, hrun, hc⟩ => ⟨⟨a, v', w, hrun⟩, (hend hrun).mp hc⟩,
      fun ⟨⟨a, v', w, hrun⟩, hc⟩ => ⟨a, v', w, hrun, (hend hrun).mpr hc⟩⟩

theorem collides_use {t : Window} {lock : Option Nat} {ε : Type} {p : Prog Vol ε α} :
    (t.use level lock p v).Collides x ↔
      (0 < x.depth + level ∧
        logBlocks < t.begun.lh.length + (x.depth + level + 1) * maxOpBlocks) ∨
      lock = some x.file ∨
      (∃ a v' w, p v = .ret a v' w) ∧ t.ended.outstanding = 1 ∧ x.addr ∈ t.ended.lh := by
  unfold Window.use Use.Collides
  cases p v <;> simp

theorem use_io {t : Window} {lock : Option Nat} {p : BProg α} :
    t.use level lock (io p) v = t.use level lock p v := by
  unfold Window.use io Prog.relabel
  cases p v <;> rfl

/-- A transaction and its use. -/
theorem caught_transact_iff {t : Window} (ht : t.Sane) (hx : bitmapBlock < x.addr)
    {p : FaultProg α} {lock : Option Nat} {S : List Use}
    (hp : (watchOps False).calm p (fun _ _ h' => h' = x.held (level + 1)) E (x.held (level + 1)) v)
    (hcaught : (watchOps True).Caught p (x.held (level + 1)) v ↔
      lock = some x.file ∨ ∃ u ∈ S, u.Collides x) :
    (watchOps True).Caught (transact t p) (x.held level) v ↔
      ∃ u ∈ t.use level lock p v :: S, u.Collides x := by
  rw [caught_transact ht hx hp, List.exists_mem_cons_iff, collides_use, hcaught]
  constructor
  · rintro (h | (h | h) | h)
    · exact .inl (.inl h)
    · exact .inl (.inr (.inl h))
    · exact .inr h
    · exact .inl (.inr (.inr h))
  · rintro ((h | h | h) | h)
    · exact .inl h
    · exact .inr (.inl (.inl h))
    · exact .inr (.inr h)
    · exact .inr (.inl (.inr h))

/-! ## Uses -/

theorem mem_thenUses {ε : Type} {p : Prog Vol ε α} {k : α → Vol → List Use} {u : Use} :
    u ∈ thenUses p k v ↔ ∃ a v' w, p v = .ret a v' w ∧ u ∈ k a v' := by
  unfold thenUses
  cases p v <;> simp

theorem thenUses_io {p : BProg α} {k : α → Vol → List Use} :
    thenUses (io p) k v = thenUses p k v := by
  unfold thenUses io Prog.relabel
  cases p v <;> rfl

/-- From volumes in `I`, the run of `p` waits for its own process exactly
if one of the uses `S` collides with the transfer. -/
def Tallies (x : Point) (level : Nat) (I : Vol → Prop) (p : FaultProg α) (S : Vol → List Use) :
    Prop :=
  ∀ v, I v → ((watchOps True).Caught p (x.held level) v ↔ ∃ u ∈ S v, u.Collides x)

/-- From volumes in `I`, `p` gives back what it takes, and returns in `I`
with a result in `Q`; also when it exits it has given back what it took. -/
def Neutral (I : Vol → Prop) (p : FaultProg α) (Q : α → Prop) : Prop :=
  ∀ h v, I v →
    (watchOps False).calm p (fun a v' h' => h' = h ∧ I v' ∧ Q a) (fun _ h' => h' = h) h v

/-- In addition `p` does not exit. -/
def Stays (I : Vol → Prop) (p : FaultProg α) (Q : α → Prop) : Prop :=
  ∀ h v, I v →
    (watchOps False).calm p (fun a v' h' => h' = h ∧ I v' ∧ Q a) (fun _ _ => False) h v

/-- The invariant survives growth; code that grows the volume needs a
well-formed one. -/
class Growing (I : Vol → Prop) : Prop where
  wf : ∀ {v}, I v → v.Wf
  ext : ∀ {v v'}, I v → v'.Wf → v.Ext v' → I v'

instance : Growing Vol.Wf := ⟨fun h => h, fun _ h _ => h⟩

/-- The invariant survives that files are truncated. -/
class Shrinking (I : Vol → Prop) : Prop where
  shrinks : ∀ {v v'}, I v → v.Shrinks v' → I v'

instance : Shrinking fun _ => True := ⟨fun _ _ => trivial⟩

section
variable {I : Vol → Prop} {S : Vol → List Use} {Q : α → Prop} {p : FaultProg α}

theorem tallies_nil (hp : ∀ h v, ¬ (watchOps True).Caught p h v) :
    Tallies x level I p fun _ => [] := fun v _ => by simp [hp]

theorem Tallies.weaken {I' : Vol → Prop} (h : Tallies x level I p S) (hI : ∀ v, I' v → I v) :
    Tallies x level I' p S := fun v hv => h v (hI v hv)

theorem Tallies.congr {S' : Vol → List Use} (h : Tallies x level I p S)
    (hS : ∀ v, I v → S v = S' v) : Tallies x level I p S' := fun v hv => hS v hv ▸ h v hv

/-- **Uses of a sequence.** -/
theorem Tallies.bind {f : α → FaultProg β} {Z : α → Vol → List Use} (hp : Tallies x level I p S)
    (hn : Neutral I p Q) (hf : ∀ a, Q a → Tallies x level I (f a) (Z a)) :
    Tallies x level I (p >>= f) fun v => S v ++ thenUses p Z v := fun v hv => by
  have hrest : ∀ {a v' w}, p v = .ret a v' w → ((watchOps True).Caught (f a)
      ((watchOps True).after (x.held level) w) v' ↔ ∃ u ∈ Z a v', u.Collides x) :=
    fun {a v' w} hrun => by
      obtain ⟨hafter, hI, hQ⟩ := (hn (x.held level) v hv).of_ret hrun
      have hafter : (watchOps True).after (x.held level) w = x.held level := hafter
      rw [hafter]
      exact hf a hQ v' hI
  rw [Watcher.caught_bind, hp v hv]
  simp only [List.mem_append, or_and_right, exists_or, mem_thenUses]
  refine or_congr Iff.rfl ⟨?_, ?_⟩
  · rintro ⟨a, v', w, hrun, hc⟩
    obtain ⟨u, hu, hcol⟩ := (hrest hrun).mp hc
    exact ⟨u, ⟨a, v', w, hrun, hu⟩, hcol⟩
  · rintro ⟨u, ⟨a, v', w, hrun, hu⟩, hcol⟩
    exact ⟨a, v', w, hrun, (hrest hrun).mpr ⟨u, hu, hcol⟩⟩

/-- What comes after uses nothing. -/
theorem Tallies.bind_nil {f : α → FaultProg β} (hp : Tallies x level I p S)
    (hf : ∀ a h v, ¬ (watchOps True).Caught (f a) h v) : Tallies x level I (p >>= f) S :=
  fun v hv => by
    rw [Watcher.caught_bind, hp v hv]
    simp [hf]

theorem Stays.neutral (hp : Stays I p Q) : Neutral I p Q := fun h v hv =>
  (hp h v hv).mono (fun _ _ _ hq => hq) fun _ _ hf => hf.elim

theorem Stays.bind {f : α → FaultProg β} {Q' : β → Prop} (hp : Stays I p Q)
    (hf : ∀ a, Q a → Stays I (f a) Q') : Stays I (p >>= f) Q' := fun h v hv =>
  (hp h v hv).bind fun a v' h' hq => by
    obtain ⟨rfl, hI, hQ⟩ := hq
    exact hf a hQ h' v' hI

theorem Neutral.bind {f : α → FaultProg β} {Q' : β → Prop} (hp : Neutral I p Q)
    (hf : ∀ a, Q a → Neutral I (f a) Q') : Neutral I (p >>= f) Q' := fun h v hv =>
  (hp h v hv).bind fun a v' h' hq => by
    obtain ⟨rfl, hI, hQ⟩ := hq
    exact hf a hQ h' v' hI

theorem stays_pure {a : α} (ha : Q a) : Stays I (pure a) Q := fun _ _ hv =>
  Watcher.calm_pure.mpr ⟨rfl, hv, ha⟩

theorem stays_panic {m : String} : Stays I (Prog.panic m) Q := fun _ _ _ => Watcher.calm_panic

theorem neutral_pure {a : α} (ha : Q a) : Neutral I (pure a) Q := (stays_pure ha).neutral

theorem neutral_panic {m : String} : Neutral I (Prog.panic m) Q := stays_panic.neutral

/-- Code that does not return. -/
theorem Neutral.of_never {I' : Vol → Prop} (h : Neutral I' p fun _ => False)
    (hI : ∀ v, I v → I' v) : Neutral I p Q := fun h' v hv =>
  (h h' v (hI v hv)).mono (fun _ _ _ hq => hq.2.2.elim) fun _ _ h => h

theorem stays_transact {t : Window} (ht : t.Sane) (hp : Stays I p Q) :
    Stays I (transact t p) Q := fun h v hv => calm_transact ht (hp (h.after .beginOp) v hv)

end

/-! ## Giving the process up -/

section
variable {J : Vol → Prop} [Shrinking J]

theorem calm_iput {c : Closing} (hlock : strict → c.ip ∉ h.inodes) (ha : strict → h.Aside v)
    (hib : strict → iblock c.ip ∉ h.bufs) :
    (watch strict).calm (iput c) (fun _ v' h' => h' = h ∧ v.Shrinks v') E h v := by
  unfold iput
  split
  · refine Watcher.calm_bind.mpr (Watcher.calm_tell.mpr ⟨fun hm => hlock hm.1 hm.2, ?_⟩)
    refine (calm_itrunc (h := h.after (.ilock c.ip)) ha hib).bind fun _ v₁ h₁ hq => ?_
    obtain ⟨rfl, hs⟩ := hq
    refine (calm_iupdate (h := h.after (.ilock c.ip)) hib).bind fun _ v₂ h₂ hq => ?_
    obtain ⟨rfl, rfl⟩ := hq
    simpa using hs
  · exact Watcher.calm_pure.mpr ⟨rfl, Vol.shrinks_of_inode rfl⟩

/-- The block that is being copied is no block of the disk's own, and no
indirect block. -/
structure Safe (x : Point) (v : Vol) : Prop where
  area : bitmapBlock < x.addr
  aside : (x.held 0).Aside v

theorem Safe.aside_at (hv : Safe x v) (level : Nat) : (x.held level).Aside v := hv.aside

instance : Shrinking (Safe x) := ⟨fun hv hs => ⟨hv.area, hv.aside.shrinks hs⟩⟩

theorem iblock_not_held (hx : bitmapBlock < x.addr) {i : Nat} (hi : i < ninodes) :
    iblock i ∉ (x.held level).bufs := fun hm => by
  rw [Point.held, List.mem_singleton] at hm
  unfold iblock at hm
  unfold bitmapBlock at hx
  unfold ninodes at hi
  omega

theorem stays_iput (c : Closing) : Stays J (io (iput c)) fun _ => True := fun _ _ hv =>
  calm_io.mpr ((calm_iput False.elim False.elim False.elim).mono
    (fun _ _ _ hq => ⟨hq.1, Shrinking.shrinks hv hq.2, trivial⟩) fun _ _ h => h)

/-- `iput` waits for the transfer's inode if it is the one to be freed. -/
theorem caught_iput {c : Closing} (hc : c.Sane) (hv : Safe x v) :
    (watchOps True).Caught (io (iput c)) (x.held level) v ↔
      (if c.frees then some c.ip else none) = some x.file := by
  rw [caught_io]
  by_cases hf : c.frees = true
  · rw [if_pos hf, Option.some.injEq]
    by_cases hip : c.ip = x.file
    · refine iff_of_true ?_ hip
      unfold iput
      rw [if_pos hf, Watcher.caught_tell_bind]
      exact .inl ⟨trivial, List.mem_singleton.mpr hip⟩
    · refine iff_of_false (Watcher.calm.not_caught (E := fun _ _ => True)
        (calm_iput (fun _ hm => ?_) (fun _ => hv.aside_at level)
          fun _ => iblock_not_held hv.area hc.ip)) hip
      exact hip (List.mem_singleton.mp hm)
  · rw [if_neg hf]
    unfold iput
    rw [if_neg hf]
    simp

theorem tallies_close {c : Closing} (hc : c.Sane) (level : Nat) :
    Tallies x level (Safe x) (close c) (c.uses level) := fun v hv => by
  have hn := (stays_iput c (x.held (level + 1)) v hv).mono (fun _ _ _ hq => hq.1) fun _ _ h => h
  have hcaught : (watchOps True).Caught (io (iput c)) (x.held (level + 1)) v ↔
      (if c.frees then some c.ip else none) = some x.file ∨ ∃ u ∈ ([] : List Use), u.Collides x :=
    (caught_iput hc hv).trans (by simp)
  have huse := caught_transact_iff hc.log hv.area hn hcaught
  rwa [use_io] at huse

theorem stays_close {c : Closing} (hc : c.Sane) : Stays J (close c) fun _ => True :=
  stays_transact hc.log (stays_iput c)

theorem stays_closeAll {cs : List Closing} (hcs : ∀ c ∈ cs, c.Sane) :
    Stays J (closeAll cs) fun _ => True := by
  induction cs with
  | nil => exact stays_pure trivial
  | cons c cs ih =>
      exact (stays_close (hcs c List.mem_cons_self)).bind fun _ _ =>
        ih fun c' hc' => hcs c' (List.mem_cons_of_mem _ hc')

theorem tallies_closeAll {cs : List Closing} (hcs : ∀ c ∈ cs, c.Sane) :
    Tallies x 0 (Safe x) (closeAll cs) (closeUses cs) := by
  induction cs with
  | nil => exact tallies_nil fun _ _ => Watcher.not_caught_pure
  | cons c cs ih =>
      have hc := hcs c List.mem_cons_self
      exact (tallies_close hc 0).bind (stays_close hc).neutral fun _ _ =>
        ih fun c' hc' => hcs c' (List.mem_cons_of_mem _ hc')

section
variable {X : Exiting} {s : Nat}

theorem stays_itrunc (s : Nat) : Stays J (io (itrunc s)) fun _ => True := fun _ _ hv =>
  calm_io.mpr ((calm_itrunc False.elim False.elim).mono
    (fun _ _ _ hq => ⟨hq.1, Shrinking.shrinks hv hq.2, trivial⟩) fun _ _ h => h)

theorem tallies_itrunc (hs : s < ninodes) (level : Nat) :
    Tallies x level (Safe x) (io (itrunc s)) fun _ => [] := fun v hv => by
  have hquiet : ¬ (watch True).Caught (itrunc s) (x.held level) v :=
    Watcher.calm.not_caught (E := fun _ _ => True)
      (calm_itrunc (fun _ => hv.aside_at level) fun _ => iblock_not_held hv.area hs)
  rw [caught_io]
  simp [hquiet]

theorem stays_closeSwap (hs : s < ninodes) (hX : ∀ y ∈ X.swapLast, y.2.Sane) :
    Stays J (closeSwap X s) fun _ => True := by
  unfold closeSwap
  split
  · exact stays_pure trivial
  · rename_i y hy
    exact stays_close ⟨hs, hX y hy⟩

theorem tallies_closeSwap (hs : s < ninodes) (hX : ∀ y ∈ X.swapLast, y.2.Sane) :
    Tallies x 1 (Safe x) (closeSwap X s) (closeSwapUses X s) := by
  unfold closeSwap
  split
  · rename_i hy
    refine (tallies_nil fun _ _ => Watcher.not_caught_pure).congr fun v _ => ?_
    rw [closeSwapUses, hy]
  · rename_i y hy
    refine (tallies_close ⟨hs, hX y hy⟩ 1).congr fun v _ => ?_
    rw [closeSwapUses, hy]

theorem stays_dropSwap (hs : s < ninodes) (hX : ∀ y ∈ X.swapLast, y.2.Sane) :
    Stays J (dropSwap X s) fun _ => True :=
  (stays_itrunc s).bind fun _ _ => stays_closeSwap hs hX

theorem tallies_dropSwap (hs : s < ninodes) (hX : ∀ y ∈ X.swapLast, y.2.Sane) :
    Tallies x 1 (Safe x) (dropSwap X s) (dropSwapUses X s) :=
  ((tallies_itrunc hs 1).bind (stays_itrunc s).neutral fun _ _ => tallies_closeSwap hs hX).congr
    fun _ _ => by rw [thenUses_io]; rfl

theorem stays_swapCleanup (hX : X.Sane) {f : Option Nat} (hf : ∀ s ∈ f, s < ninodes) :
    Stays J (swapCleanup X f) fun _ => True := by
  cases f with
  | none => exact stays_pure trivial
  | some s => exact stays_transact hX.cleanup (stays_dropSwap (hf s rfl) hX.swapLast)

theorem tallies_swapCleanup (hX : X.Sane) {f : Option Nat} (hf : ∀ s ∈ f, s < ninodes) :
    Tallies x 0 (Safe x) (swapCleanup X f) fun v => cleanupUses X v f := by
  cases f with
  | none => exact tallies_nil fun _ _ => Watcher.not_caught_pure
  | some s =>
      intro v hv
      have hn := (stays_dropSwap (hf s rfl) hX.swapLast (x.held 1) v hv).mono
        (fun _ _ _ hq => hq.1) fun _ _ h => h
      refine caught_transact_iff hX.cleanup hv.area hn ?_
      rw [tallies_dropSwap (hf s rfl) hX.swapLast v hv]
      simp

/-- **`kexit` in the middle of a transfer.** -/
theorem tallies_kexit (hX : X.Sane) {p : Proc} (hp : ∀ s ∈ p.swapFile, s < ninodes) :
    Tallies x 0 (Safe x) (kexit X p : FaultProg α) (exitUses X p) := by
  unfold kexit
  split
  · rename_i hi
    refine (tallies_nil fun _ _ => Watcher.not_caught_panic).congr fun v _ => ?_
    rw [exitUses, if_pos hi]
  · rename_i hi
    refine ((tallies_closeAll hX.files).bind (stays_closeAll hX.files).neutral fun _ _ =>
      (tallies_swapCleanup hX hp).bind (stays_swapCleanup hX hp).neutral fun _ _ =>
        (tallies_close hX.cwd 0).bind_nil fun _ _ _ => Watcher.not_caught_exit).congr fun v _ => ?_
    rw [exitUses, if_neg hi]

theorem neutral_kexit (hX : X.Sane) {p : Proc} (hp : ∀ s ∈ p.swapFile, s < ninodes) :
    Neutral J (kexit X p : FaultProg α) fun _ => False := by
  unfold kexit
  split
  · exact neutral_panic
  · exact (stays_closeAll hX.files).neutral.bind fun _ _ =>
      (stays_swapCleanup hX hp).neutral.bind fun _ _ =>
        (stays_close hX.cwd).neutral.bind fun _ _ _ _ _ => Watcher.calm_exit.mpr rfl

end

end

end

end Reentry

end OsSuite.Xv6
