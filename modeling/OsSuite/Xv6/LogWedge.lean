import OsSuite.Xv6.Blocks
import OsSuite.Xv6.Log

/-!
# LogWedge — transactions inside transactions

`kexit` truncates the swap file of the process in a transaction and
closes the file before it ends that transaction; `fileclose` begins one
of its own to put the inode. Between the two `begin_op`s the process
keeps others from committing while it may itself have to wait for a
commit. Two exits at the same time are enough to stop the log for good.

The log never wedges if such a cleanup has the log to itself until its
second `begin_op` is through.
-/

namespace OsSuite.Xv6

/-- The swap file of an exiting process: what `itrunc` logs, and the last
`fileclose`. -/
structure SwapCleanup where
  inum : Nat
  trunc : List Nat
  /-- `itrunc_logsOnly` -/
  only : ∀ b ∈ trunc, b = bitmapBlock ∨ b = iblock inum
  close : Option (List Nat)

/-- The calls that use the log. `fileclose` comes with the blocks that
its `iput` logs, or with `none` if the file is still referenced or is a
pipe; `filewrite` with the blocks of each of its chunks; `kexit` with its
open files, its swap file, and what the `iput` of `cwd` logs. -/
inductive LogCall where
  | fileclose (last : Option (List Nat))
  | filewrite (chunks : List (List Nat))
  | kexit (ofile : List (Option (List Nat))) (swap : Option SwapCleanup) (cwd : List Nat)

namespace LogCall

def filecloseOps (last : Option (List Nat)) : List LogOp := last.elim [] transaction

def swapOps (c : SwapCleanup) : List LogOp :=
  .beginOp :: (c.trunc.map .logWrite ++ filecloseOps c.close ++ [.endOp])

/-- The log calls of a system call. -/
def ops : LogCall → List LogOp
  | fileclose last => filecloseOps last
  | filewrite chunks => chunks.flatMap transaction
  | kexit ofile swap cwd => ofile.flatMap filecloseOps ++ swap.elim [] swapOps ++ transaction cwd

end LogCall

namespace LogSys

/-- The next log call that is not a `log_write` is a `begin_op`. -/
def Nests : List LogOp → Prop
  | .beginOp :: _ => True
  | .logWrite _ :: t => Nests t
  | _ => False

instance : DecidablePred Nests := fun t => by
  induction t with
  | nil => exact .isFalse id
  | cons o t ih =>
      cases o with
      | beginOp => exact .isTrue trivial
      | logWrite b => exact ih
      | endOp => exact .isFalse id

/-- The blocks of the `log_write`s that come next. -/
def leading : List LogOp → List Nat
  | .logWrite b :: t => b :: leading t
  | _ => []

/-- Scripts that nest at most once per operation, with room for two
operations in the log when they do; `d` operations are open. -/
def Tame : Nat → List LogOp → Prop
  | _, [] => True
  | d, .beginOp :: t =>
      d < 2 ∧ (d = 0 → Nests t → (leading t).toFinset.card ≤ maxOpBlocks) ∧ Tame (d + 1) t
  | d, .logWrite _ :: t => Tame d t
  | d, .endOp :: t => (1 < d → ¬ Nests t) ∧ Tame (d - 1) t

@[simp] theorem tame_beginOp {d : Nat} {t : List LogOp} : Tame d (.beginOp :: t) ↔
    d < 2 ∧ (d = 0 → Nests t → (leading t).toFinset.card ≤ maxOpBlocks) ∧ Tame (d + 1) t := by
  simp [Tame]

@[simp] theorem tame_logWrite {d b : Nat} {t : List LogOp} :
    Tame d (.logWrite b :: t) ↔ Tame d t := by simp [Tame]

@[simp] theorem tame_endOp {d : Nat} {t : List LogOp} :
    Tame d (.endOp :: t) ↔ (1 < d → ¬ Nests t) ∧ Tame (d - 1) t := by simp [Tame]

/-- Nobody nests twice. -/
theorem Tame.not_nests {t : List LogOp} (h : Tame 2 t) : ¬ Nests t := by
  induction t with
  | nil => exact id
  | cons o t ih =>
      cases o with
      | beginOp => simp at h
      | logWrite b => exact ih (tame_logWrite.mp h)
      | endOp => exact id

/-! ### The scripts of the system calls -/

/-- Both demands on the rest of a script. -/
def Script (d : Nat) (t : List LogOp) : Prop := Bracketed d t ∧ Tame d t

theorem nests_writes {ws : List Nat} {t : List LogOp} :
    Nests (ws.map .logWrite ++ t) ↔ Nests t := by
  induction ws with
  | nil => exact Iff.rfl
  | cons b ws ih => simpa [Nests] using ih

theorem leading_writes {ws : List Nat} {t : List LogOp} (h : leading t = []) :
    leading (ws.map .logWrite ++ t) = ws := by
  induction ws with
  | nil => simpa using h
  | cons b ws ih => simpa [leading] using ih

theorem script_writes {d : Nat} {ws : List Nat} {t : List LogOp} (hd : 0 < d) :
    Script d (ws.map .logWrite ++ t) ↔ Script d t := by
  induction ws with
  | nil => exact Iff.rfl
  | cons b ws ih =>
      simp only [List.map_cons, List.cons_append, Script, bracketed_logWrite, tame_logWrite] at ih ⊢
      tauto

theorem script_transaction {d : Nat} {ws : List Nat} {t : List LogOp} (hd : d < 2)
    (hn : d = 1 → ¬ Nests t) (h : Script d t) : Script d (transaction ws ++ t) := by
  have hend : Script (d + 1) (ws.map .logWrite ++ .endOp :: t) :=
    (script_writes (by omega)).mpr
      ⟨bracketed_endOp.mpr ⟨by omega, h.1⟩, tame_endOp.mpr ⟨fun _ => hn (by omega), h.2⟩⟩
  have hnot : ¬ Nests (ws.map .logWrite ++ .endOp :: t) := by
    rw [nests_writes]
    exact id
  simp only [transaction, List.cons_append, List.append_assoc, List.nil_append]
  exact ⟨bracketed_beginOp.mpr hend.1, tame_beginOp.mpr ⟨hd, fun _ h => absurd h hnot, hend.2⟩⟩

theorem script_flatMap {α : Type} {f : α → List LogOp} {t : List LogOp}
    (hf : ∀ a t, Script 0 t → Script 0 (f a ++ t)) (as : List α) (h : Script 0 t) :
    Script 0 (as.flatMap f ++ t) := by
  induction as with
  | nil => exact h
  | cons a as ih =>
      rw [List.flatMap_cons, List.append_assoc]
      exact hf a _ ih

theorem script_fileclose {last : Option (List Nat)} {t : List LogOp} (h : Script 0 t) :
    Script 0 (LogCall.filecloseOps last ++ t) := by
  cases last with
  | none => exact h
  | some ws => exact script_transaction (by decide) nofun h

/-- Truncating the swap file takes two blocks of the log at most. -/
theorem SwapCleanup.card_trunc (c : SwapCleanup) : c.trunc.toFinset.card ≤ maxOpBlocks := by
  have hsub : c.trunc.toFinset ⊆ {bitmapBlock, iblock c.inum} := fun b hb => by
    simpa using c.only b (List.mem_toFinset.mp hb)
  calc c.trunc.toFinset.card ≤ ({bitmapBlock, iblock c.inum} : Finset Nat).card :=
        Finset.card_le_card hsub
    _ ≤ 2 := Finset.card_le_two
    _ ≤ maxOpBlocks := by decide

theorem script_swap {c : SwapCleanup} {t : List LogOp} (h : Script 0 t) :
    Script 0 (LogCall.swapOps c ++ t) := by
  have hend : Script 1 (.endOp :: t) :=
    ⟨bracketed_endOp.mpr ⟨by decide, h.1⟩, tame_endOp.mpr ⟨by omega, h.2⟩⟩
  have hclose : Script 1 (LogCall.filecloseOps c.close ++ .endOp :: t) := by
    cases c.close with
    | none => exact hend
    | some ws => exact script_transaction (by decide) (fun _ => id) hend
  have hlead : leading (LogCall.filecloseOps c.close ++ .endOp :: t) = [] := by
    cases c.close <;> rfl
  have hall : Script 1 (c.trunc.map .logWrite ++ _) := (script_writes (by decide)).mpr hclose
  simp only [LogCall.swapOps, List.cons_append, List.append_assoc, List.nil_append]
  refine ⟨bracketed_beginOp.mpr hall.1, tame_beginOp.mpr ⟨by decide, fun _ _ => ?_, hall.2⟩⟩
  rw [leading_writes hlead]
  exact SwapCleanup.card_trunc c

theorem script_ops (c : LogCall) {t : List LogOp} (h : Script 0 t) : Script 0 (c.ops ++ t) := by
  have htrans : ∀ ws t, Script 0 t → Script 0 (transaction ws ++ t) := fun ws t h =>
    script_transaction (by decide) nofun h
  cases c with
  | fileclose last => exact script_fileclose h
  | filewrite chunks => exact script_flatMap htrans chunks h
  | kexit ofile swap cwd =>
      simp only [LogCall.ops, List.append_assoc]
      refine script_flatMap (fun _ _ => script_fileclose) ofile ?_
      cases swap with
      | none => exact htrans cwd t h
      | some c => exact script_swap (htrans cwd t h)

/-- Whatever system calls a process makes, its script is tame. -/
theorem script_calls (cs : List LogCall) : Script 0 (cs.flatMap LogCall.ops) := by
  have := script_flatMap (t := []) (fun c _ => script_ops c) cs ⟨rfl, trivial⟩
  rwa [List.append_nil] at this

/-! ## Wedged states -/

variable {ι : Type} [DecidableEq ι] [Fintype ι]

/-- Process `p` sleeps in `begin_op`. -/
def Blocked (s : LogSys ι) (p : ι) : Prop :=
  (s.proc p).todo.head? = some .beginOp ∧ s.log.beginOp = .wait

/-- Operations are outstanding, and every process that has one open
sleeps in `begin_op`: no commit can ever happen. -/
def Wedged (s : LogSys ι) : Prop :=
  0 < s.log.outstanding ∧ ∀ p, 0 < (s.proc p).depth → s.Blocked p

instance (s : LogSys ι) (p : ι) : Decidable (s.Blocked p) :=
  inferInstanceAs (Decidable (_ ∧ _))

instance (s : LogSys ι) : Decidable s.Wedged := inferInstanceAs (Decidable (_ ∧ _))

/-- The processes at their first system call, on an empty log. -/
def ofCalls (calls : ι → List LogCall) : LogSys ι := boot fun p => (calls p).flatMap LogCall.ops

/-- An operation that will nest begins while no other is open, and none
begins until it has nested. -/
def Serial (s : LogSys ι) (p : ι) : Prop :=
  match (s.proc p).depth, (s.proc p).todo with
  | 0, .beginOp :: t =>
      ∀ q, q ≠ p → 0 < (s.proc q).depth → ¬ Nests (s.proc q).todo ∧ ¬ Nests t
  | _, _ => True

instance (s : LogSys ι) (p : ι) : Decidable (s.Serial p) := by
  unfold Serial
  split <;> infer_instance

/-- What serial turns keep. -/
structure Serialised (s : LogSys ι) : Prop where
  inv : s.Inv
  tame : ∀ p, Tame (s.proc p).depth (s.proc p).todo
  /-- A process about to nest has the only open operation, and the log
  has room for a second one. -/
  alone : ∀ q, 0 < (s.proc q).depth → Nests (s.proc q).todo →
    (∀ p, p ≠ q → (s.proc p).depth = 0) ∧ (s.proc q).depth = 1 ∧
      (s.log.lh ++ leading (s.proc q).todo).toFinset.card ≤ maxOpBlocks

omit [DecidableEq ι] in
theorem serialised_ofCalls (calls : ι → List LogCall) : (ofCalls calls).Serialised where
  inv := inv_boot fun p => (script_calls (calls p)).1
  tame p := (script_calls (calls p)).2
  alone q hd := by simp [ofCalls, boot, LogProc.start] at hd

omit [DecidableEq ι] in
/-- A process about to nest always gets through. -/
theorem Serialised.not_wedged {s : LogSys ι} (h : s.Serialised) : ¬ s.Wedged := by
  rintro ⟨hopen, hall⟩
  obtain ⟨p, hp⟩ := h.inv.exists_depth hopen
  obtain ⟨hhead, hwait⟩ := hall p hp
  obtain ⟨t, ht⟩ : ∃ t, (s.proc p).todo = .beginOp :: t := by
    cases htodo : (s.proc p).todo with
    | nil => simp [htodo] at hhead
    | cons o t => exact ⟨t, by rw [htodo] at hhead; simpa using hhead⟩
  obtain ⟨hother, hdepth, hcard⟩ := h.alone p hp (by rw [ht]; trivial)
  -- the log has one operation and at most MAXOPBLOCKS blocks
  have hone := h.inv.outstanding_eq hother
  have hlen : s.log.lh.length ≤ maxOpBlocks := by
    rw [ht] at hcard
    simpa [leading, List.toFinset_card_of_nodup h.inv.nodup] using hcard
  rcases Log.beginOp_wait hwait with hc | hfull
  · have := h.inv.idle hc
    omega
  · simp only [maxOpBlocks, logBlocks] at hfull hlen
    omega

section
variable {s s' : LogSys ι} {p : ι}

theorem Serialised.commit (h : s.Serialised) (hc : (s.proc p).committer = true) :
    (s.put p (s.proc p).committed s.log.commit).Serialised := by
  have hdepth : ∀ q, (s.proc q).depth = 0 := fun q => by
    have := h.inv.depth_le q
    have := h.inv.idle ((h.inv.fits p).committer hc)
    omega
  refine ⟨h.inv.commit hc, forall_put (P := fun _ x => Tame x.depth x.todo) (h.tame p)
    fun q _ => h.tame q, forall_put (P := fun q x => 0 < x.depth → Nests x.todo → _) ?_ ?_⟩
  · exact fun hd => by simp [LogProc.committed, hdepth p] at hd
  · exact fun q _ hd => by simp [hdepth q] at hd

theorem Serialised.beginOp {t : List LogOp} (h : s.Serialised) (hser : s.Serial p)
    (hc : (s.proc p).committer = false) (ht : (s.proc p).todo = .beginOp :: t)
    (hidle : s.log.committing = false) :
    (s.put p ((s.proc p).begun t) s.log.enter).Serialised := by
  have htame := h.tame p
  rw [ht, tame_beginOp] at htame
  obtain ⟨hlt, hroom, htame⟩ := htame
  -- when the new operation is the outermost one, nobody is about to nest
  have hothers : ∀ q, q ≠ p → 0 < (s.proc q).depth → ¬ Nests (s.proc q).todo := by
    intro q hq hd hn
    by_cases h0 : (s.proc p).depth = 0
    · unfold Serial at hser
      rw [h0, ht] at hser
      exact (hser q hq hd).1 hn
    · exact h0 ((h.alone q hd hn).1 p (Ne.symm hq))
  refine ⟨h.inv.beginOp hc ht hidle,
    forall_put (P := fun _ x => Tame x.depth x.todo) htame fun q _ => h.tame q, fun q hd hn => ?_⟩
  by_cases hq : q = p
  · subst hq
    rw [put_self] at hd hn ⊢
    -- a process that has just nested does not do so again
    have h0 : (s.proc q).depth = 0 := by
      by_contra hne
      have h1 : (s.proc q).depth = 1 := by omega
      rw [h1] at htame
      exact htame.not_nests hn
    have hfree : ∀ r, r ≠ q → (s.proc r).depth = 0 := fun r hr => by
      by_contra hne
      unfold Serial at hser
      rw [h0, ht] at hser
      exact (hser r hr (by omega)).2 hn
    have hout := h.inv.outstanding_eq hfree
    have hlh : s.log.lh = [] := h.inv.fresh (by omega) hidle
    refine ⟨fun r hr => ?_, by simp [LogProc.begun, h0], ?_⟩
    · rw [put_ne s _ _ hr]
      exact hfree r hr
    · simpa [Log.enter, LogProc.begun, hlh] using hroom h0 hn
  · rw [put_ne s _ _ hq] at hd hn
    exact absurd hn (hothers q hq hd)

theorem Serialised.logWrite {b : Nat} {t : List LogOp} (h : s.Serialised)
    (hc : (s.proc p).committer = false) (ht : (s.proc p).todo = .logWrite b :: t)
    (hopen : 1 ≤ s.log.outstanding) :
    (s.put p ((s.proc p).wrote b t) (s.log.append b)).Serialised := by
  have htame := h.tame p
  have hscript := (h.inv.fits p).script
  rw [ht, tame_logWrite] at htame
  rw [ht, bracketed_logWrite] at hscript
  refine ⟨h.inv.logWrite hc ht hopen,
    forall_put (P := fun _ x => Tame x.depth x.todo) htame fun q _ => h.tame q, fun q hd hn => ?_⟩
  by_cases hq : q = p
  · subst hq
    rw [put_self] at hd hn ⊢
    obtain ⟨hother, hdepth, hcard⟩ := h.alone q hd (by rw [ht]; exact hn)
    refine ⟨fun r hr => ?_, hdepth, le_trans (Finset.card_le_card fun c hcm => ?_) hcard⟩
    · rw [put_ne s _ _ hr]
      exact hother r hr
    · -- the block only moves from the script to the log
      rw [ht]
      simp only [put_log, List.mem_toFinset, List.mem_append, leading, List.mem_cons,
        LogProc.wrote, Log.append] at hcm ⊢
      split at hcm
      · tauto
      · simp only [List.mem_append, List.mem_singleton] at hcm
        tauto
  · -- another process about to nest would have the only open operation
    rw [put_ne s _ _ hq] at hd hn
    have := (h.alone q hd hn).1 p (Ne.symm hq)
    omega

theorem Serialised.endOp {t : List LogOp} (h : s.Serialised)
    (ht : (s.proc p).todo = .endOp :: t) (hidle : s.log.committing = false) :
    (s.put p ((s.proc p).ended t (decide (s.log.outstanding = 1))) s.log.leave).Serialised := by
  have htame := h.tame p
  have hscript := (h.inv.fits p).script
  rw [ht, tame_endOp] at htame
  rw [ht, bracketed_endOp] at hscript
  refine ⟨h.inv.endOp ht hidle,
    forall_put (P := fun _ x => Tame x.depth x.todo) htame.2 fun q _ => h.tame q, fun q hd hn => ?_⟩
  by_cases hq : q = p
  · subst hq
    rw [put_self] at hd hn
    simp only [LogProc.ended] at hd hn
    -- an operation is still open, so this one was nested
    exact absurd hn (htame.1 (by omega))
  · rw [put_ne s _ _ hq] at hd hn
    have := (h.alone q hd hn).1 p (Ne.symm hq)
    omega

theorem Serialised.step (h : s.Serialised) (hser : s.Serial p) (hs : s.step p = .go s') :
    s'.Serialised := by
  cases step_did hs with
  | commit hc hs => exact hs ▸ h.commit hc
  | beginOp hc ht hidle _ hs => exact hs ▸ h.beginOp hser hc ht hidle
  | logWrite hc ht _ hopen hs => exact hs ▸ h.logWrite hc ht hopen
  | endOp _ ht hidle hs => exact hs ▸ h.endOp ht hidle

end

/-- An exit with a swap file that was never written: `itrunc` logs the
inode, and nothing is freed. -/
def exitCall (inum : Nat) : LogCall :=
  .kexit [] (some ⟨inum, [iblock inum], by simp, some []⟩) []

/-- Two processes with swap files that exit. -/
def twoExits (p : Fin 2) : List LogCall := [exitCall (20 + p)]

end LogSys

end OsSuite.Xv6
