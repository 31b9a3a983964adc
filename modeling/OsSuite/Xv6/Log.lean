import OsSuite.Lib.Turns

/-!
# Log — file-system operations and the space they reserve

The in-memory half of `log.c`. A process brackets the blocks it logs by
`begin_op` and `end_op`; the last `end_op` commits. `begin_op` sleeps
while a commit is going on, or while the log could run out of space if
every open operation logged `MAXOPBLOCKS` blocks. Everything happens
under `log.lock`, so each call is one turn of the calling process; the
`commit()` at the end of an `end_op` is a turn of its own, with
`log.committing` set and the lock released.

A process is the list of log calls it still has to make. `mine` records
what the open operation has logged so far; no turn looks at it.
-/

namespace OsSuite.Xv6

/-- `MAXOPBLOCKS` -/
def maxOpBlocks : Nat := 10

/-- `LOGBLOCKS` -/
def logBlocks : Nat := maxOpBlocks * 3

/-- `struct log`: `lh` lists the block numbers `lh.block[0 .. lh.n)`. -/
structure Log where
  outstanding : Int
  committing : Bool
  lh : List Nat
  deriving DecidableEq, Repr

namespace Log

def init : Log := ⟨0, false, []⟩

/-- One more operation. -/
def enter (l : Log) : Log := { l with outstanding := l.outstanding + 1 }

/-- A block already in the log is ABSORBED. -/
def append (l : Log) (b : Nat) : Log := if b ∈ l.lh then l else { l with lh := l.lh ++ [b] }

/-- One operation less; the last one commits. -/
def leave (l : Log) : Log :=
  { l with outstanding := l.outstanding - 1, committing := decide (l.outstanding = 1) }

/-- `begin_op`: sleeps, or takes part in the current transaction. -/
def beginOp (l : Log) : Turn Log :=
  if l.committing then .wait
  else if l.lh.length + (l.outstanding + 1) * maxOpBlocks > logBlocks then .wait
  else .go l.enter

/-- `log_write(b)` -/
def logWrite (b : Nat) (l : Log) : Turn Log :=
  if l.lh.length ≥ logBlocks then .halt "too big a transaction"
  else if l.outstanding < 1 then .halt "log_write outside of trans"
  else .go (l.append b)

/-- `end_op` up to the release of the lock; `committing` is `do_commit`. -/
def endOp (l : Log) : Turn Log :=
  if l.committing then .halt "log.committing" else .go l.leave

/-- The rest of `end_op`: `commit()` empties the log. -/
def commit (l : Log) : Log := { l with committing := false, lh := [] }

/-! What each call can do, read off once. -/

theorem beginOp_go {l l' : Log} (h : l.beginOp = .go l') :
    l.committing = false ∧ l.lh.length + (l.outstanding + 1) * maxOpBlocks ≤ logBlocks ∧
      l' = l.enter := by
  unfold beginOp at h
  split at h
  · cases h
  · rename_i hc
    split at h
    · cases h
    · rename_i hroom
      cases h
      exact ⟨by simpa using hc, by omega, rfl⟩

theorem beginOp_wait {l : Log} (h : l.beginOp = .wait) : l.committing = true ∨
    logBlocks < l.lh.length + (l.outstanding + 1) * maxOpBlocks := by
  unfold beginOp at h
  split at h
  · exact .inl (by assumption)
  · split at h
    · exact .inr (by assumption)
    · cases h

theorem logWrite_go {b : Nat} {l l' : Log} (h : l.logWrite b = .go l') :
    l.lh.length < logBlocks ∧ 1 ≤ l.outstanding ∧ l' = l.append b := by
  unfold logWrite at h
  split at h
  · cases h
  · split at h
    · cases h
    · cases h
      exact ⟨by omega, by omega, rfl⟩

theorem endOp_go {l l' : Log} (h : l.endOp = .go l') : l.committing = false ∧ l' = l.leave := by
  unfold endOp at h
  split at h
  · cases h
  · rename_i hc
    cases h
    exact ⟨by simpa using hc, rfl⟩

theorem logWrite_halt {b : Nat} {l : Log} {m : String} (h : l.logWrite b = .halt m) :
    l.lh.length ≥ logBlocks ∨ l.outstanding < 1 := by
  unfold logWrite at h
  split at h
  · exact .inl (by assumption)
  · split at h
    · exact .inr (by assumption)
    · cases h

theorem endOp_halt {l : Log} {m : String} (h : l.endOp = .halt m) : l.committing = true := by
  unfold endOp at h
  split at h
  · assumption
  · cases h

/-- `log_write` adds the block to the log, unless it is there. -/
theorem append_eq (l : Log) (b : Nat) : ∃ lh, l.append b = { l with lh := lh } ∧
    l.lh ⊆ lh ∧ b ∈ lh ∧ (l.lh.Nodup → lh.Nodup) := by
  unfold append
  split
  · exact ⟨l.lh, rfl, fun _ h => h, by assumption, id⟩
  · rename_i hn
    refine ⟨_, rfl, List.subset_append_left _ _, by simp, fun hnd => ?_⟩
    refine List.nodup_append.mpr ⟨hnd, by simp, fun a ha c hc => ?_⟩
    simp only [List.mem_singleton] at hc
    rintro rfl
    exact hn (hc ▸ ha)

theorem beginOp_ne_halt {l : Log} {m : String} : l.beginOp ≠ .halt m := by
  unfold beginOp
  split
  · nofun
  · split <;> nofun

end Log

/-! ## Processes -/

inductive LogOp where
  | beginOp
  | logWrite (b : Nat)
  | endOp
  deriving DecidableEq, Repr

/-- `begin_op(); log_write(...) ...; end_op()` -/
def transaction (ws : List Nat) : List LogOp := .beginOp :: (ws.map .logWrite ++ [.endOp])

structure LogProc where
  /-- The log calls still to be made. -/
  todo : List LogOp
  /-- Operations begun and not ended. -/
  depth : Nat
  /-- Blocks logged since the outermost `begin_op`. -/
  mine : List Nat
  /-- Inside `commit()`. -/
  committer : Bool
  deriving DecidableEq, Repr

/-- A process that is about to make its first call. -/
def LogProc.start (todo : List LogOp) : LogProc := ⟨todo, 0, [], false⟩

namespace LogProc

def begun (x : LogProc) (t : List LogOp) : LogProc :=
  { x with todo := t, depth := x.depth + 1, mine := if x.depth = 0 then [] else x.mine }

def wrote (x : LogProc) (b : Nat) (t : List LogOp) : LogProc :=
  { x with todo := t, mine := x.mine ++ [b] }

def ended (x : LogProc) (t : List LogOp) (doCommit : Bool) : LogProc :=
  { x with todo := t, depth := x.depth - 1, committer := doCommit }

def committed (x : LogProc) : LogProc := { x with committer := false }

end LogProc

/-- The log and the processes that use it. -/
structure LogSys (ι : Type) where
  log : Log
  proc : ι → LogProc

namespace LogSys

variable {ι : Type} [DecidableEq ι]

/-- All processes at their first call, on an empty log. -/
def boot (todo : ι → List LogOp) : LogSys ι := ⟨Log.init, fun p => .start (todo p)⟩

def put (s : LogSys ι) (p : ι) (x : LogProc) (l : Log) : LogSys ι :=
  ⟨l, Function.update s.proc p x⟩

/-- The turn of process `p`. -/
def step (s : LogSys ι) (p : ι) : Turn (LogSys ι) :=
  if (s.proc p).committer then .go (s.put p (s.proc p).committed s.log.commit)
  else
    match (s.proc p).todo with
    | [] => .wait
    | .beginOp :: t => s.log.beginOp.map fun l => s.put p ((s.proc p).begun t) l
    | .logWrite b :: t => (s.log.logWrite b).map fun l => s.put p ((s.proc p).wrote b t) l
    | .endOp :: t => s.log.endOp.map fun l => s.put p ((s.proc p).ended t l.committing) l

/-- The four things a turn can be. -/
inductive Did (s : LogSys ι) (p : ι) (s' : LogSys ι) : Prop where
  | commit (hc : (s.proc p).committer = true)
      (hs : s' = s.put p (s.proc p).committed s.log.commit)
  | beginOp {t : List LogOp} (hc : (s.proc p).committer = false)
      (ht : (s.proc p).todo = .beginOp :: t) (hidle : s.log.committing = false)
      (hroom : s.log.lh.length + (s.log.outstanding + 1) * maxOpBlocks ≤ logBlocks)
      (hs : s' = s.put p ((s.proc p).begun t) s.log.enter)
  | logWrite {b : Nat} {t : List LogOp} (hc : (s.proc p).committer = false)
      (ht : (s.proc p).todo = .logWrite b :: t) (hroom : s.log.lh.length < logBlocks)
      (hopen : 1 ≤ s.log.outstanding) (hs : s' = s.put p ((s.proc p).wrote b t) (s.log.append b))
  | endOp {t : List LogOp} (hc : (s.proc p).committer = false)
      (ht : (s.proc p).todo = .endOp :: t) (hidle : s.log.committing = false)
      (hs : s' = s.put p ((s.proc p).ended t (decide (s.log.outstanding = 1))) s.log.leave)

theorem step_did {s s' : LogSys ι} {p : ι} (h : s.step p = .go s') : Did s p s' := by
  unfold step at h
  split at h
  · rename_i hc
    cases h
    exact .commit hc rfl
  · rename_i hc
    simp only [Bool.not_eq_true] at hc
    split at h
    · cases h
    · rename_i t ht
      obtain ⟨l, hl, rfl⟩ := Turn.map_eq_go.mp h
      obtain ⟨hidle, hroom, rfl⟩ := Log.beginOp_go hl
      exact .beginOp hc ht hidle hroom rfl
    · rename_i b t ht
      obtain ⟨l, hl, rfl⟩ := Turn.map_eq_go.mp h
      obtain ⟨hroom, hopen, rfl⟩ := Log.logWrite_go hl
      exact .logWrite hc ht hroom hopen rfl
    · rename_i t ht
      obtain ⟨l, hl, rfl⟩ := Turn.map_eq_go.mp h
      obtain ⟨hidle, rfl⟩ := Log.endOp_go hl
      exact .endOp hc ht hidle rfl

@[simp] theorem put_log (s : LogSys ι) (p : ι) (x : LogProc) (l : Log) :
    (s.put p x l).log = l := rfl

@[simp] theorem put_self (s : LogSys ι) (p : ι) (x : LogProc) (l : Log) :
    (s.put p x l).proc p = x := Function.update_self ..

theorem put_ne (s : LogSys ι) {p q : ι} (x : LogProc) (l : Log) (h : q ≠ p) :
    (s.put p x l).proc q = s.proc q := Function.update_of_ne h ..

/-- A property of all processes: the one that moved, and the others. -/
theorem forall_put {P : ι → LogProc → Prop} {s : LogSys ι} {p : ι} {x : LogProc} {l : Log}
    (hp : P p x) (hq : ∀ q, q ≠ p → P q (s.proc q)) : ∀ q, P q ((s.put p x l).proc q) := by
  intro q
  by_cases h : q = p
  · subst h
    rw [put_self]
    exact hp
  · rw [put_ne s x l h]
    exact hq q h

/-! ## What holds in every run

For scripts in which every `log_write` and `end_op` belongs to an open
operation. -/

/-- The rest of a script, with `d` operations open. -/
def Bracketed : Nat → List LogOp → Prop
  | d, [] => d = 0
  | d, .beginOp :: t => Bracketed (d + 1) t
  | d, .logWrite _ :: t => 0 < d ∧ Bracketed d t
  | d, .endOp :: t => 0 < d ∧ Bracketed (d - 1) t

@[simp] theorem bracketed_nil {d : Nat} : Bracketed d [] ↔ d = 0 := by simp [Bracketed]

@[simp] theorem bracketed_beginOp {d : Nat} {t : List LogOp} :
    Bracketed d (.beginOp :: t) ↔ Bracketed (d + 1) t := by simp [Bracketed]

@[simp] theorem bracketed_logWrite {d b : Nat} {t : List LogOp} :
    Bracketed d (.logWrite b :: t) ↔ 0 < d ∧ Bracketed d t := by simp [Bracketed]

@[simp] theorem bracketed_endOp {d : Nat} {t : List LogOp} :
    Bracketed d (.endOp :: t) ↔ 0 < d ∧ Bracketed (d - 1) t := by simp [Bracketed]

/-- A process, seen from the log. -/
structure Fits (l : Log) (x : LogProc) : Prop where
  script : Bracketed x.depth x.todo
  committer : x.committer = true → l.committing = true
  /-- What an open operation logged is still in the log. -/
  mine : 0 < x.depth → x.mine ⊆ l.lh

structure Inv [Fintype ι] (s : LogSys ι) : Prop where
  fits : ∀ p, Fits s.log (s.proc p)
  /-- `log.outstanding` counts the open operations. -/
  total : s.log.outstanding = ((∑ p, (s.proc p).depth : Nat) : Int)
  /-- A commit waits for all operations to end, and keeps new ones out. -/
  idle : s.log.committing = true → s.log.outstanding = 0
  unique : ∀ p q, (s.proc p).committer = true → (s.proc q).committer = true → p = q
  /-- Outside operations and commits the log is empty. -/
  fresh : s.log.outstanding = 0 → s.log.committing = false → s.log.lh = []
  nodup : s.log.lh.Nodup

theorem fits_put {s : LogSys ι} {p : ι} {x : LogProc} {l : Log} (hp : Fits l x)
    (hq : ∀ q, q ≠ p → Fits l (s.proc q)) :
    ∀ q, Fits (s.put p x l).log ((s.put p x l).proc q) :=
  forall_put (P := fun _ x => Fits l x) hp hq

/-- Nobody becomes a second committer. -/
theorem unique_put {s : LogSys ι} {p : ι} {x : LogProc} {l : Log}
    (hq : ∀ q, q ≠ p → (s.proc q).committer = true → x.committer = false ∧
      ∀ r, r ≠ p → (s.proc r).committer = true → q = r) :
    ∀ q r, ((s.put p x l).proc q).committer = true → ((s.put p x l).proc r).committer = true →
      q = r := by
  intro q r
  by_cases h : q = p
  · by_cases h' : r = p
    · exact fun _ _ => h.trans h'.symm
    · subst h
      rw [put_self, put_ne s x l h']
      intro hx hr
      simp [(hq r h' hr).1] at hx
  · rw [put_ne s x l h]
    by_cases h' : r = p
    · subst h'
      rw [put_self]
      intro hc hx
      simp [(hq q h hc).1] at hx
    · rw [put_ne s x l h']
      exact fun hc => (hq q h hc).2 r h'

section
variable [Fintype ι]

/-- The total after the turn of one process. -/
theorem sum_depth_put (s : LogSys ι) (p : ι) (x : LogProc) (l : Log) :
    (∑ q, ((s.put p x l).proc q).depth) + (s.proc p).depth =
      (∑ q, (s.proc q).depth) + x.depth :=
  sum_update s.proc LogProc.depth p x

variable {s s' : LogSys ι} {p : ι}

section
omit [DecidableEq ι]

/-- An open operation makes `log.outstanding` positive. -/
theorem Inv.depth_le (h : s.Inv) (p : ι) : ((s.proc p).depth : Int) ≤ s.log.outstanding := by
  rw [h.total]
  exact_mod_cast le_sum s.proc LogProc.depth p

/-- Conversely, an outstanding operation belongs to some process. -/
theorem Inv.exists_depth (h : s.Inv) (ho : 0 < s.log.outstanding) :
    ∃ p, 0 < (s.proc p).depth := by
  by_contra hne
  push Not at hne
  have hzero : (∑ p, (s.proc p).depth) = 0 :=
    Finset.sum_eq_zero fun p _ => Nat.le_zero.mp (hne p)
  have := h.total
  omega

/-- The only process with an open operation accounts for all of them. -/
theorem Inv.outstanding_eq (h : s.Inv) (hp : ∀ q, q ≠ p → (s.proc q).depth = 0) :
    s.log.outstanding = (s.proc p).depth := by
  rw [h.total, Finset.sum_eq_single p (fun q _ hq => hp q hq)
    fun hn => absurd (Finset.mem_univ p) hn]

theorem Inv.no_committer (h : s.Inv) (hidle : s.log.committing = false) (q : ι) :
    (s.proc q).committer = false :=
  Bool.eq_false_iff.mpr fun hq => by simp [(h.fits q).committer hq] at hidle

theorem inv_boot {todo : ι → List LogOp} (h : ∀ p, Bracketed 0 (todo p)) : (boot todo).Inv where
  fits p := ⟨h p, nofun, nofun⟩
  total := by simp [boot, Log.init, LogProc.start]
  idle := by simp [boot, Log.init]
  unique := nofun
  fresh := by simp [boot, Log.init]
  nodup := by simp [boot, Log.init]

end

theorem Inv.commit (h : s.Inv) (hc : (s.proc p).committer = true) :
    (s.put p (s.proc p).committed s.log.commit).Inv := by
  have hidle := h.idle ((h.fits p).committer hc)
  -- nobody else is in commit(), and nobody has an operation open
  have hother : ∀ q, q ≠ p → (s.proc q).committer = false := fun q hq =>
    Bool.eq_false_iff.mpr fun hcq => hq (h.unique q p hcq hc)
  have hdepth : ∀ q, ¬ 0 < (s.proc q).depth := fun q => by
    have := h.depth_le q
    omega
  refine ⟨fits_put ⟨(h.fits p).script, nofun, fun hd => absurd hd (hdepth p)⟩
    fun q hq => ⟨(h.fits q).script, fun hc => by simp [hother q hq] at hc,
      fun hd => absurd hd (hdepth q)⟩, ?_, nofun, ?_, fun _ _ => rfl, List.nodup_nil⟩
  · have := sum_depth_put s p (s.proc p).committed s.log.commit
    have := h.total
    simp only [put_log, Log.commit, LogProc.committed] at *
    omega
  · exact unique_put fun q hq hcq => by simp [hother q hq] at hcq

theorem Inv.beginOp {t : List LogOp} (h : s.Inv) (hc : (s.proc p).committer = false)
    (ht : (s.proc p).todo = .beginOp :: t) (hidle : s.log.committing = false) :
    (s.put p ((s.proc p).begun t) s.log.enter).Inv := by
  have hscript := (h.fits p).script
  rw [ht, bracketed_beginOp] at hscript
  have hle := h.depth_le p
  refine ⟨fits_put ⟨hscript, fun hcp => by simp [LogProc.begun, hc] at hcp, fun _ => ?_⟩
    fun q _ => ⟨(h.fits q).script, (h.fits q).committer, (h.fits q).mine⟩,
    ?_, by simp [Log.enter, hidle], ?_, ?_, h.nodup⟩
  · simp only [LogProc.begun]
    split
    · exact List.nil_subset _
    · exact (h.fits p).mine (by omega)
  · have := sum_depth_put s p ((s.proc p).begun t) s.log.enter
    have := h.total
    simp only [put_log, Log.enter, LogProc.begun] at *
    omega
  · exact unique_put fun q _ hcq => by simp [h.no_committer hidle q] at hcq
  · intro h0
    simp only [put_log, Log.enter] at h0
    omega

theorem Inv.logWrite {b : Nat} {t : List LogOp} (h : s.Inv)
    (hc : (s.proc p).committer = false) (ht : (s.proc p).todo = .logWrite b :: t)
    (hopen : 1 ≤ s.log.outstanding) :
    (s.put p ((s.proc p).wrote b t) (s.log.append b)).Inv := by
  have hscript := (h.fits p).script
  rw [ht, bracketed_logWrite] at hscript
  obtain ⟨lh, hlh, hsub, hb, hnd⟩ := s.log.append_eq b
  rw [hlh]
  refine ⟨fits_put ⟨hscript.2, fun hcp => by simp [LogProc.wrote, hc] at hcp, fun hd => ?_⟩
    fun q _ => ⟨(h.fits q).script, (h.fits q).committer,
      fun hd => List.Subset.trans ((h.fits q).mine hd) hsub⟩,
    ?_, h.idle, ?_, ?_, hnd h.nodup⟩
  · exact List.append_subset.mpr ⟨List.Subset.trans ((h.fits p).mine hd) hsub, by simpa using hb⟩
  · have := sum_depth_put s p ((s.proc p).wrote b t) { s.log with lh := lh }
    have := h.total
    simp only [put_log, LogProc.wrote] at *
    omega
  · exact unique_put fun q _ hcq => ⟨hc, fun r _ => h.unique q r hcq⟩
  · intro h0
    simp only [put_log] at h0
    omega

theorem Inv.endOp {t : List LogOp} (h : s.Inv) (ht : (s.proc p).todo = .endOp :: t)
    (hidle : s.log.committing = false) :
    (s.put p ((s.proc p).ended t (decide (s.log.outstanding = 1))) s.log.leave).Inv := by
  have hnone := h.no_committer hidle
  have hscript := (h.fits p).script
  rw [ht, bracketed_endOp] at hscript
  have hle := h.depth_le p
  refine ⟨fits_put ⟨hscript.2, fun hcp => hcp, fun hd => (h.fits p).mine ?_⟩
    fun q _ => ⟨(h.fits q).script, fun hcq => by simp [hnone q] at hcq, (h.fits q).mine⟩,
    ?_, fun hcom => ?_, ?_, fun h0 hn => ?_, h.nodup⟩
  · simp only [LogProc.ended] at hd
    omega
  · have := sum_depth_put s p ((s.proc p).ended t (decide (s.log.outstanding = 1))) s.log.leave
    have := h.total
    simp only [put_log, Log.leave, LogProc.ended] at *
    omega
  · simp only [put_log, Log.leave, decide_eq_true_eq] at hcom ⊢
    omega
  · exact unique_put fun q _ hcq => by simp [hnone q] at hcq
  · simp only [put_log, Log.leave, decide_eq_false_iff_not] at h0 hn
    omega

end

end LogSys

end OsSuite.Xv6
