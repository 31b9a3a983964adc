import OsSuite.Lib.Trace
import OsSuite.Lib.Writes
import OsSuite.Xv6.Log

/-!
# LogDisk — commit and recovery survive crashes

The on-disk half of `log.c`. The log area is a header block at
`log.start` and the log blocks after it. `commit` copies the modified
blocks from the buffer cache to the log, writes the header — the real
commit —, installs the blocks at their home locations and clears the
header; `recover_from_log` repeats the last two steps after a crash.

A block is an array of 32-bit words, of which `write_head` and
`read_head` use word 0 for `n` and the following ones for the block
numbers; words that are not written keep what an earlier transaction left
there. Every `bwrite` is an observation, and a crash keeps the writes
that were issued before it. The buffer cache is lost.
-/

namespace OsSuite.Xv6

/-- `BSIZE` bytes, as 32-bit words. -/
abbrev Block := Nat → Nat

/-- A word as an `int`. -/
def asInt (w : Nat) : Int := if w < 2147483648 then w else w - 4294967296

/-- The in-memory state of the log code: the buffer cache, and `log.lh`. -/
structure LogMem where
  buf : Nat → Block
  n : Int
  block : Nat → Nat

/-- A write that was issued: block number and contents. -/
abbrev DiskWrite := Nat × Block

abbrev LProg (α : Type) := Prog LogMem DiskWrite α

namespace LogMem

/-- Fill the buffer of a block. -/
def fill (s : LogMem) (b : Nat) (x : Block) : LogMem := { s with buf := Function.update s.buf b x }

/-- The header block with `log.lh` written over it. -/
def header (s : LogMem) (start : Nat) : Block := fun i =>
  if i = 0 then (s.n % 4294967296).toNat
  else if (i : Int) ≤ s.n then s.block (i - 1) else s.buf start i

theorem header_succ {s : LogMem} {start i : Nat} (h : (i : Int) < s.n) :
    s.header start (i + 1) = s.block i := by
  unfold header
  rw [if_neg (by omega), if_pos (by omega), Nat.add_sub_cancel]

/-- The header block after `log.lh.n = 0; write_head();`. -/
def cleared (s : LogMem) (start : Nat) : Block := ({ s with n := 0 } : LogMem).header start

@[simp] theorem cleared_zero (s : LogMem) (start : Nat) : s.cleared start 0 = 0 := rfl

end LogMem

/-- Fill the buffer of block `b` and `bwrite` it. -/
def bwrite (b : Nat) (x : LogMem → Block) : LProg Unit := do
  Prog.modify fun s => s.fill b (x s)
  let s ← Prog.get
  Prog.tell (b, s.buf b)

/-- `for (tail = 0; tail < log.lh.n; tail++)` -/
def forTail (body : Nat → LProg Unit) : LProg Unit := do
  let s ← Prog.get
  Prog.upTo body s.n.toNat

/-- `write_log()` -/
def writeLog (start : Nat) : LProg Unit :=
  forTail fun tail => bwrite (start + tail + 1) fun s => s.buf (s.block tail)

/-- `install_trans(recovering)` -/
def installTrans (start : Nat) : LProg Unit :=
  forTail fun tail => do
    let s ← Prog.get
    bwrite (s.block tail) fun s => s.buf (start + tail + 1)

/-- `write_head()` -/
def writeHead (start : Nat) : LProg Unit := bwrite start fun s => s.header start

/-- `read_head()` -/
def readHead (start : Nat) : LProg Unit :=
  Prog.modify fun s =>
    { s with
      n := asInt (s.buf start 0)
      block := fun i =>
        if (i : Int) < asInt (s.buf start 0) then s.buf start (i + 1) else s.block i }

/-- `log.lh.n = 0; write_head();` -/
def clearHead (start : Nat) : LProg Unit := do
  Prog.modify fun s => { s with n := 0 }
  writeHead start

/-- `commit()` -/
def commit (start : Nat) : LProg Unit := do
  let s ← Prog.get
  if 0 < s.n then
    writeLog start
    writeHead start
    installTrans start
    clearHead start
  else pure ()

/-- `recover_from_log()` -/
def recoverFromLog (start : Nat) : LProg Unit := do
  readHead start
  installTrans start
  clearHead start

/-- The writes of a commit of the blocks `lh`, whose modified contents
are in the buffer cache. -/
def commitWrites (start : Nat) (lh : List Nat) (buf : Nat → Block) : List DiskWrite :=
  (commit start ⟨buf, lh.length, fun i => lh.getD i 0⟩).events

/-- The writes of a recovery of disk `d`; the cache is empty, and `log`
is zeroed. -/
def recoveryWrites (start : Nat) (d : Nat → Block) : List DiskWrite :=
  (recoverFromLog start ⟨d, 0, fun _ => 0⟩).events

/-! ## The writes, in order -/

/-- `x` returns in `s'` and has issued the writes `w`. -/
def Issues (x : LProg Unit) (s s' : LogMem) (w : List DiskWrite) : Prop :=
  ends x (fun _ t w' => t = s' ∧ w' = w) (fun _ _ => False) (fun _ _ => False) s

section
variable {x y : LProg Unit} {s s' s'' : LogMem} {w w' : List DiskWrite} {start : Nat}

theorem Issues.events (h : Issues x s s' w) : (x s).events = w :=
  ends.events h (fun _ _ _ h => h.2) (fun _ _ h => h.elim) fun _ _ h => h.elim

theorem Issues.bind (hx : Issues x s s' w) (hy : Issues y s' s'' w') :
    Issues (x >>= fun _ => y) s s'' (w ++ w') := by
  unfold Issues at *
  rw [ends_bind]
  refine hx.mono (fun _ t w₁ ⟨ht, hw⟩ => ?_) (fun _ _ h => h) fun _ _ h => h
  subst ht hw
  exact hy.mono (fun _ t w₂ ⟨ht, hw⟩ => ⟨ht, by rw [hw]⟩) (fun _ _ h => h) fun _ _ h => h

theorem issues_bwrite (b : Nat) (f : LogMem → Block) (s : LogMem) :
    Issues (bwrite b f) s (s.fill b (f s)) [(b, f s)] := by
  simp [Issues, bwrite, LogMem.fill]

/-- Rounds that write `v t` to `b t`. -/
def rounds (b : Nat → Nat) (v : Nat → Block) (n : Nat) : List DiskWrite :=
  (List.range n).map fun t => (b t, v t)

theorem rounds_succ (b : Nat → Nat) (v : Nat → Block) (n : Nat) :
    rounds b v (n + 1) = rounds b v n ++ [(b n, v n)] := by
  simp [rounds, List.range_succ]

theorem mem_rounds {b : Nat → Nat} {v : Nat → Block} {n : Nat} {w : DiskWrite} :
    w ∈ rounds b v n ↔ ∃ t, t < n ∧ (b t, v t) = w := by
  simp [rounds]

/-- The buffer cache after a list of writes. -/
def LogMem.after (s : LogMem) (w : List DiskWrite) : LogMem :=
  { s with buf := applyWrites w s.buf }

/-- A loop whose round `t` writes `v t` to `b t`, given what the earlier
rounds did. -/
theorem issues_forTail {body : Nat → LProg Unit} {b : Nat → Nat} {v : Nat → Block}
    (h : ∀ t, t < s.n.toNat →
      Issues (body t) (s.after (rounds b v t)) (s.after (rounds b v (t + 1))) [(b t, v t)]) :
    Issues (forTail body) s (s.after (rounds b v s.n.toNat)) (rounds b v s.n.toNat) := by
  have hloop : ∀ n, n ≤ s.n.toNat →
      Issues (Prog.upTo body n) s (s.after (rounds b v n)) (rounds b v n) := by
    intro n
    induction n with
    | zero => exact fun _ => by simp [Issues, Prog.upTo, rounds, LogMem.after]
    | succ n ih =>
        intro hn
        rw [rounds_succ]
        exact (ih (by omega)).bind (by rw [← rounds_succ]; exact h n (by omega))
  unfold forTail Issues
  simpa [Issues] using hloop _ (Nat.le_refl _)

/-- One more round. -/
theorem LogMem.fill_after (s : LogMem) (b : Nat → Nat) (v : Nat → Block) (t : Nat) :
    (s.after (rounds b v t)).fill (b t) (v t) = s.after (rounds b v (t + 1)) := by
  simp [LogMem.after, LogMem.fill, rounds_succ, applyWrites_append]

/-- The home blocks in `log.lh` are not in the log. -/
def LogMem.Outside (start : Nat) (s : LogMem) : Prop :=
  ∀ t t', t < s.n.toNat → t' < s.n.toNat → s.block t ≠ start + t' + 1

theorem issues_writeLog (hout : s.Outside start) :
    Issues (writeLog start) s
      (s.after (rounds (fun t => start + t + 1) (fun t => s.buf (s.block t)) s.n.toNat))
      (rounds (fun t => start + t + 1) (fun t => s.buf (s.block t)) s.n.toNat) := by
  refine issues_forTail fun t ht => ?_
  rw [← LogMem.fill_after]
  -- the earlier rounds did not touch the block that is copied
  have hsame : (s.after (rounds (fun t => start + t + 1) (fun t => s.buf (s.block t)) t)).buf
      (s.block t) = s.buf (s.block t) :=
    applyWrites_of_ne (fun w hw => by
      obtain ⟨t', ht', rfl⟩ := mem_rounds.mp hw
      exact Ne.symm (hout t t' ht (by omega))) _
  have := issues_bwrite (start + t + 1) (fun s => s.buf (s.block t))
    (s.after (rounds (fun t => start + t + 1) (fun t => s.buf (s.block t)) t))
  rwa [show (s.after (rounds (fun t => start + t + 1) (fun t => s.buf (s.block t)) t)).block
    = s.block from rfl, hsame] at this

theorem issues_installTrans (hout : s.Outside start) :
    Issues (installTrans start) s
      (s.after (rounds s.block (fun t => s.buf (start + t + 1)) s.n.toNat))
      (rounds s.block (fun t => s.buf (start + t + 1)) s.n.toNat) := by
  refine issues_forTail fun t ht => ?_
  rw [← LogMem.fill_after]
  have hsame : (s.after (rounds s.block (fun t => s.buf (start + t + 1)) t)).buf (start + t + 1) =
      s.buf (start + t + 1) :=
    applyWrites_of_ne (fun w hw => by
      obtain ⟨t', ht', rfl⟩ := mem_rounds.mp hw
      exact hout t' t (by omega) ht) _
  have := issues_bwrite (s.block t) (fun s => s.buf (start + t + 1))
    (s.after (rounds s.block (fun t => s.buf (start + t + 1)) t))
  rw [hsame] at this
  simpa [Issues, LogMem.after] using this

theorem issues_writeHead (start : Nat) (s : LogMem) :
    Issues (writeHead start) s (s.fill start (s.header start)) [(start, s.header start)] :=
  issues_bwrite _ _ _

/-- `log.lh` after `read_head`. -/
def LogMem.read (s : LogMem) (start : Nat) : LogMem :=
  { s with
    n := asInt (s.buf start 0)
    block := fun i => if (i : Int) < asInt (s.buf start 0) then s.buf start (i + 1) else s.block i }

theorem issues_readHead (start : Nat) (s : LogMem) :
    Issues (readHead start) s (s.read start) [] := by
  simp [Issues, readHead, LogMem.read]

theorem issues_clearHead (start : Nat) (s : LogMem) :
    Issues (clearHead start) s (({ s with n := 0 } : LogMem).fill start (s.cleared start))
      [(start, s.cleared start)] := by
  have := issues_writeHead start { s with n := 0 }
  unfold clearHead Issues
  simpa [Issues, LogMem.cleared] using this

end

/-- A block that is not part of the log area. -/
def Home (start b : Nat) : Prop := b < start ∨ start + logBlocks < b

/-- What a transaction may consist of: different home blocks that fit
into the log. -/
structure Txn (start : Nat) where
  lh : List Nat
  le : lh.length ≤ logBlocks
  nodup : lh.Nodup
  home : ∀ b ∈ lh, Home start b

namespace Txn

variable {start : Nat} (T : Txn start)

/-- `log.lh` with the transaction in it. -/
def mem (buf : Nat → Block) : LogMem := ⟨buf, T.lh.length, fun i => T.lh.getD i 0⟩

theorem home_getD {t : Nat} (ht : t < T.lh.length) : Home start (T.lh.getD t 0) :=
  T.home _ (by rw [List.getD_eq_getElem _ _ ht]; exact List.getElem_mem ht)

theorem outside {s : LogMem} (hn : s.n.toNat ≤ T.lh.length)
    (hb : ∀ t, t < T.lh.length → s.block t = T.lh.getD t 0) : s.Outside start := by
  intro t t' ht ht'
  rw [hb t (by omega)]
  have := T.home_getD (t := t) (by omega)
  have := T.le
  unfold Home at *
  omega

/-- A header that names the blocks of the transaction. -/
def IsHeader (x : Block) : Prop :=
  x 0 = T.lh.length ∧ ∀ t, t < T.lh.length → x (t + 1) = T.lh.getD t 0

/-- The blocks at their home locations. -/
def homeWrites (buf : Nat → Block) : List DiskWrite :=
  rounds (fun t => T.lh.getD t 0) (fun t => buf (T.lh.getD t 0)) T.lh.length

/-- The blocks in the log. -/
def logWrites (buf : Nat → Block) : List DiskWrite :=
  rounds (fun t => start + t + 1) (fun t => buf (T.lh.getD t 0)) T.lh.length

/-- A log block holds what was written to it. -/
theorem logWrites_at (buf d : Nat → Block) {t : Nat} (ht : t < T.lh.length) :
    applyWrites (T.logWrites buf) d (start + t + 1) = buf (T.lh.getD t 0) := by
  refine applyWrites_eq ⟨_, mem_rounds.mpr ⟨t, ht, rfl⟩, rfl⟩ (fun w hw hx => ?_) d
  obtain ⟨t', -, rfl⟩ := mem_rounds.mp hw
  rw [show t' = t by dsimp only at hx; omega]

/-- The state of the log code after the blocks and the header are
written. -/
def logged (buf : Nat → Block) : LogMem :=
  ((T.mem buf).after (T.logWrites buf)).fill start
    (((T.mem buf).after (T.logWrites buf)).header start)

theorem issues_log (buf : Nat → Block) :
    Issues (writeLog start >>= fun _ => writeHead start) (T.mem buf) (T.logged buf)
      (T.logWrites buf ++ [(start, ((T.mem buf).after (T.logWrites buf)).header start)]) :=
  (issues_writeLog (T.outside (by simp [mem]) fun _ _ => rfl)).bind (issues_writeHead start _)

theorem issues_install (buf : Nat → Block) :
    Issues (installTrans start) (T.logged buf) ((T.logged buf).after (T.homeWrites buf))
      (T.homeWrites buf) := by
  have h := issues_installTrans (s := T.logged buf)
    (T.outside (Nat.le_refl _) fun _ _ => rfl)
  have hsame : rounds (T.logged buf).block (fun t => (T.logged buf).buf (start + t + 1))
      (T.logged buf).n.toNat = T.homeWrites buf := by
    refine List.map_congr_left fun t ht => ?_
    have hlog : (T.logged buf).buf (start + t + 1) = buf (T.lh.getD t 0) := by
      show Function.update _ start _ (start + t + 1) = _
      rw [Function.update_of_ne (by omega)]
      exact T.logWrites_at buf buf (List.mem_range.mp ht)
    exact Prod.ext rfl hlog
  rwa [hsame] at h

theorem isHeader_header (buf : Nat → Block) :
    T.IsHeader (((T.mem buf).after (T.logWrites buf)).header start) := by
  have hle := T.le
  refine ⟨?_, fun t ht => LogMem.header_succ (by simpa [LogMem.after, mem] using ht)⟩
  simp only [LogMem.header, if_true, LogMem.after, mem, logBlocks, maxOpBlocks] at *
  omega

/-- **The four phases of `commit`.** -/
theorem commitWrites_eq (buf : Nat → Block) (hne : T.lh ≠ []) : ∃ head clear,
    T.IsHeader head ∧ clear 0 = 0 ∧ commitWrites start T.lh buf =
      T.logWrites buf ++ (start, head) :: (T.homeWrites buf ++ [(start, clear)]) := by
  have hlen : 0 < T.lh.length := List.length_pos_iff.mpr hne
  have hall := (T.issues_log buf).bind ((T.issues_install buf).bind (issues_clearHead start _))
  refine ⟨_, ((T.logged buf).after (T.homeWrites buf)).cleared start, T.isHeader_header buf, rfl,
    ?_⟩
  have hrun : ∀ {s w}, Issues ((writeLog start >>= fun _ => writeHead start) >>= fun _ =>
      installTrans start >>= fun _ => clearHead start) (T.mem buf) s w →
      Issues (commit start) (T.mem buf) s w := by
    intro s w h
    unfold commit Issues
    simp only [ends_bind, ends_get]
    rw [if_pos (by simpa [mem] using hlen)]
    simpa [Issues] using h
  simpa [commitWrites, mem] using (hrun hall).events

/-! ## After a crash -/

/-- The log is empty, and the home blocks are those of `d₀`. -/
def Clean (start : Nat) (d₀ d : Nat → Block) : Prop :=
  d start 0 = 0 ∧ ∀ b, Home start b → d b = d₀ b

/-- The transaction is in the log; its home blocks may hold anything. -/
structure Committed (buf d : Nat → Block) : Prop where
  head : T.IsHeader (d start)
  log : ∀ t, t < T.lh.length → d (start + t + 1) = buf (T.lh.getD t 0)
  rest : ∀ b, Home start b → b ∉ T.lh → d b = buf b

variable {T} {d d' d₀ buf : Nat → Block} {ws : List DiskWrite}

/-- The log code at boot: an empty cache, and `log` zeroed. -/
def boot (d : Nat → Block) : LogMem := ⟨d, 0, fun _ => 0⟩

/-- What a recovery writes when the header gives the installation. -/
theorem recoveryWrites_eq {w : List DiskWrite}
    (h : Issues (installTrans start) ((boot d).read start) (((boot d).read start).after w) w) :
    ∃ clear, clear 0 = 0 ∧ recoveryWrites start d = w ++ [(start, clear)] :=
  ⟨_, LogMem.cleared_zero _ start,
    ((issues_readHead start (boot d)).bind (h.bind (issues_clearHead start _))).events⟩

/-- Recovery of an empty log only clears the header again. -/
theorem Clean.recovery (h : Clean start d₀ d) :
    ∃ clear, clear 0 = 0 ∧ recoveryWrites start d = [(start, clear)] := by
  have hn : ((boot d).read start).n.toNat = 0 := by simp [LogMem.read, boot, h.1, asInt]
  have hinst := issues_installTrans
    (fun t _ ht => by omega : ((boot d).read start).Outside start)
  rw [hn] at hinst
  exact recoveryWrites_eq hinst

theorem Clean.clear (h : Clean start d₀ d) {clear : Block} (h0 : clear 0 = 0) :
    Clean start d₀ (Function.update d start clear) := by
  refine ⟨by rw [Function.update_self, h0], fun b hb => ?_⟩
  rw [Function.update_of_ne (by unfold Home at hb; omega)]
  exact h.2 b hb

theorem Clean.crash (h : Clean start d₀ d) (hws : ws <+: recoveryWrites start d) :
    Clean start d₀ (applyWrites ws d) := by
  obtain ⟨clear, h0, hrec⟩ := h.recovery
  rw [hrec] at hws
  rcases List.prefix_cons_iff.mp hws with rfl | ⟨t, rfl, ht⟩
  · exact h
  · rw [List.prefix_nil.mp ht]
    exact h.clear h0

/-- Recovery of a committed transaction installs it. -/
theorem Committed.recovery (h : T.Committed buf d) :
    ∃ clear, clear 0 = 0 ∧ recoveryWrites start d = T.homeWrites buf ++ [(start, clear)] := by
  have hle := T.le
  have hread : asInt (d start 0) = T.lh.length := by
    rw [h.head.1, asInt, if_pos (by simp only [logBlocks, maxOpBlocks] at hle; omega)]
  have hn : ((boot d).read start).n.toNat = T.lh.length := by simp [LogMem.read, boot, hread]
  have hblock : ∀ t, t < T.lh.length → ((boot d).read start).block t = T.lh.getD t 0 := by
    intro t ht
    rw [← h.head.2 t ht]
    exact if_pos (by simp only [boot, hread]; omega)
  have hinst := issues_installTrans (s := (boot d).read start)
    (T.outside (by omega) hblock)
  have hsame : rounds ((boot d).read start).block
      (fun t => ((boot d).read start).buf (start + t + 1)) ((boot d).read start).n.toNat =
      T.homeWrites buf := by
    rw [hn]
    exact List.map_congr_left fun t ht =>
      Prod.ext (hblock t (List.mem_range.mp ht)) (h.log t (List.mem_range.mp ht))
  rw [hsame] at hinst
  exact recoveryWrites_eq hinst

/-- Writing blocks of the transaction home does not hurt it. -/
theorem Committed.install (h : T.Committed buf d) (hws : ws <+: T.homeWrites buf) :
    T.Committed buf (applyWrites ws d) := by
  have hle := T.le
  have hkey : ∀ w ∈ ws, w.1 ∈ T.lh := fun w hw => by
    obtain ⟨t, ht, rfl⟩ := mem_rounds.mp (hws.subset hw)
    rw [List.getD_eq_getElem _ _ ht]
    exact List.getElem_mem ht
  -- neither the header nor a log block is written
  have hlog : ∀ t, t ≤ T.lh.length → applyWrites ws d (start + t) = d (start + t) := fun t ht =>
    applyWrites_of_ne (fun w hw hx => by
      have := T.home _ (hkey w hw)
      unfold Home at this
      omega) d
  refine ⟨?_, fun t ht => ?_, fun b hb hn => ?_⟩
  · rw [show applyWrites ws d start = d start from hlog 0 (by omega)]
    exact h.head
  · rw [Nat.add_assoc, hlog (t + 1) (by omega)]
    exact h.log t ht
  · rw [applyWrites_of_ne fun w hw (hx : w.1 = b) => hn (hx ▸ hkey w hw)]
    exact h.rest b hb hn

/-- A home block of the transaction holds what was written to it. -/
theorem homeWrites_at {b : Nat} (hb : b ∈ T.lh) (d : Nat → Block) :
    applyWrites (T.homeWrites buf) d b = buf b := by
  obtain ⟨t, ht, rfl⟩ := List.mem_iff_getElem.mp hb
  refine applyWrites_eq ⟨_, mem_rounds.mpr ⟨t, ht, rfl⟩, List.getD_eq_getElem _ _ ht⟩
    (fun w hw hx => ?_) d
  obtain ⟨t', -, rfl⟩ := mem_rounds.mp hw
  rw [← hx]

/-- **Once all blocks are home, the header may be cleared.** -/
theorem Committed.clear (h : T.Committed buf d) {clear : Block} (h0 : clear 0 = 0) :
    Clean start buf (applyWrites (T.homeWrites buf ++ [(start, clear)]) d) := by
  have hinst := h.install (List.prefix_refl _)
  rw [applyWrites_append]
  show Clean start buf (Function.update _ start clear)
  refine ⟨by rw [Function.update_self, h0], fun b hb => ?_⟩
  rw [Function.update_of_ne (by unfold Home at hb; omega)]
  by_cases hm : b ∈ T.lh
  · exact homeWrites_at hm d
  · exact hinst.rest b hb hm

/-- **A crash of the recovery**: the transaction is still in the log, or
it is complete. -/
theorem Committed.crash (h : T.Committed buf d) (hws : ws <+: recoveryWrites start d) :
    T.Committed buf (applyWrites ws d) ∨ Clean start buf (applyWrites ws d) := by
  obtain ⟨clear, h0, hrec⟩ := h.recovery
  rw [hrec] at hws
  rcases List.prefix_concat_iff.mp hws with rfl | hws
  · exact .inr (h.clear h0)
  · exact .inl (h.install hws)

/-- Restarting on an empty log. -/
theorem Clean.restarts (h : Clean start d₀ d) (hr : Restarts (recoveryWrites start) d d') :
    Clean start d₀ d' :=
  hr.rule (I := Clean start d₀) (J := Clean start d₀) (fun _ _ h hws => h.crash hws)
    (fun _ h => h.crash (List.prefix_refl _)) h

/-- Restarting with a transaction in the log. -/
theorem Committed.restarts (h : T.Committed buf d)
    (hr : Restarts (recoveryWrites start) d d') : Clean start buf d' := by
  refine hr.rule (I := fun d => T.Committed buf d ∨ Clean start buf d) (J := Clean start buf)
    (fun d ws h hws => ?_) (fun d h => ?_) (.inl h)
  · rcases h with h | h
    · exact h.crash hws
    · exact .inr (h.crash hws)
  · rcases h with h | h
    · obtain ⟨clear, h0, hrec⟩ := h.recovery
      rw [hrec]
      exact h.clear h0
    · exact h.crash (List.prefix_refl _)

/-- The disk after a crash of the commit, before the header was
written. -/
theorem crash_before (hclean : d start 0 = 0) (hws : ws <+: T.logWrites buf) :
    Clean start d (applyWrites ws d) := by
  have hle := T.le
  have hkey : ∀ w ∈ ws, start < w.1 ∧ w.1 ≤ start + logBlocks := fun w hw => by
    obtain ⟨t, ht, rfl⟩ := mem_rounds.mp (hws.subset hw)
    constructor <;> dsimp only <;> omega
  refine ⟨?_, fun b hb => applyWrites_of_ne (fun w hw hx => ?_) d⟩
  · rw [applyWrites_of_ne fun w hw hx => ?_]
    · exact hclean
    · have := hkey w hw
      omega
  · have := hkey w hw
    unfold Home at hb
    omega

/-- The disk right after the header was written. -/
theorem committed_head (hbuf : ∀ b, b ∉ T.lh → buf b = d b) {head : Block}
    (hhead : T.IsHeader head) :
    T.Committed buf (Function.update (applyWrites (T.logWrites buf) d) start head) := by
  have hle := T.le
  refine ⟨by rw [Function.update_self]; exact hhead, fun t ht => ?_, fun b hb hn => ?_⟩
  · rw [Function.update_of_ne (by omega)]
    exact T.logWrites_at buf d ht
  · rw [Function.update_of_ne (by unfold Home at hb; omega), hbuf b hn]
    refine applyWrites_of_ne (fun w hw hx => ?_) d
    obtain ⟨t, ht, rfl⟩ := mem_rounds.mp hw
    unfold Home at hb
    dsimp only at hx
    omega

end Txn

/-- **Crash atomicity.** A disk with an empty log, a transaction whose
modified blocks are in the buffer cache, a crash after `k` writes of its
commit, and then recoveries that may crash as well until one completes:
the home blocks hold the old contents if the crash came before the header
was written, and the new contents otherwise, and the log is empty. -/
theorem log_crash_atomic {start : Nat} (T : Txn start) (d buf : Nat → Block)
    (hclean : d start 0 = 0) (hbuf : ∀ b, b ∉ T.lh → buf b = d b) (k : Nat) (d' : Nat → Block)
    (hr : Restarts (recoveryWrites start)
      (applyWrites ((commitWrites start T.lh buf).take k) d) d') :
    d' start 0 = 0 ∧ (k ≤ T.lh.length → ∀ b, Home start b → d' b = d b) ∧
      (T.lh.length < k → ∀ b, Home start b → d' b = buf b) := by
  by_cases hne : T.lh = []
  · -- nothing is written, and nothing was modified
    have hw : commitWrites start T.lh buf = [] := by
      have : Issues (commit start) (T.mem buf) (T.mem buf) [] := by
        unfold commit Issues
        simp [Txn.mem, hne]
      exact this.events
    rw [hw, List.take_nil, applyWrites_nil] at hr
    have h := Txn.Clean.restarts (⟨hclean, fun _ _ => rfl⟩ : Txn.Clean start d d) hr
    exact ⟨h.1, fun _ => h.2, fun _ b hb => by rw [h.2 b hb, hbuf b (by simp [hne])]⟩
  · obtain ⟨head, clear, hhead, h0, hw⟩ := T.commitWrites_eq buf hne
    have hlen : (T.logWrites buf).length = T.lh.length := by simp [Txn.logWrites, rounds]
    rw [hw] at hr
    by_cases hk : k ≤ T.lh.length
    · rw [List.take_append_of_le_length (by omega)] at hr
      have h := (T.crash_before hclean (List.take_prefix k _)).restarts hr
      exact ⟨h.1, fun _ => h.2, fun hlt => by omega⟩
    · -- the header is on disk
      obtain ⟨j, rfl⟩ : ∃ j, k = (T.logWrites buf).length + (j + 1) :=
        ⟨k - T.lh.length - 1, by omega⟩
      rw [List.take_length_add_append, List.take_succ_cons, applyWrites_append,
        applyWrites_cons] at hr
      have hcom := T.committed_head hbuf hhead
      have h : Txn.Clean start buf d' := by
        rcases List.prefix_concat_iff.mp
            (List.take_prefix j (T.homeWrites buf ++ [(start, clear)])) with heq | hpre
        · rw [heq] at hr
          exact (hcom.clear h0).restarts hr
        · exact (hcom.install hpre).restarts hr
      exact ⟨h.1, fun hle => by omega, fun _ => h.2⟩

/-- One block, home at 50, with the log at 2. -/
def oneBlock : Txn 2 := ⟨[50], by decide, by decide, by simp [Home, logBlocks, maxOpBlocks]⟩

/-- The cache with that block modified. -/
def oneBuf : Nat → Block := Function.update (fun _ _ => 0) 50 fun _ => 7

/-- The crash comes right after the header, and the first recovery
crashes after one write. -/
theorem log_crash_atomic_oneBlock : ∃ d', Restarts (recoveryWrites 2)
    (applyWrites ((commitWrites 2 oneBlock.lh oneBuf).take 2) fun _ _ => 0) d' ∧
      d' 2 0 = 0 ∧ d' 50 0 = 7 := by
  have hr : Restarts (recoveryWrites 2)
      (applyWrites ((commitWrites 2 oneBlock.lh oneBuf).take 2) fun _ _ => 0) _ :=
    .crash (List.take_prefix 1 _) (.done _)
  have h := log_crash_atomic oneBlock (fun _ _ => 0) oneBuf rfl
    (fun b hb => Function.update_of_ne (by simpa [oneBlock] using hb) _ _) 2 _ hr
  refine ⟨_, hr, h.1, ?_⟩
  rw [h.2.2 (by decide) 50 (by simp [Home, logBlocks, maxOpBlocks])]
  rfl

end OsSuite.Xv6
