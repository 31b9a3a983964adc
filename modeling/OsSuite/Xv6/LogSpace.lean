import OsSuite.Xv6.Blocks
import OsSuite.Xv6.Log
import OsSuite.Xv6.Proc

/-!
# LogSpace — the reservation of `begin_op` suffices

`begin_op` lets an operation in when the log has `MAXOPBLOCKS` blocks for
it and for every other open one. What keeps the log from overflowing is
not visible in `log.outstanding`: an open operation that has logged `k`
different blocks has `MAXOPBLOCKS - k` left, and all that is left still
fits into the log.

`log_write` tests for a full log BEFORE it looks for the block in it. An
operation that has used up its share may therefore stop the machine by
logging one of its blocks again.

The second part counts the blocks of the pager's own transaction.
-/

namespace OsSuite.Xv6

namespace LogSys

variable {ι : Type} [DecidableEq ι] [Fintype ι]

/-- Processes that run operations, each given by what it logs. -/
def ofOps (ops : ι → List (List Nat)) : LogSys ι := boot fun p => (ops p).flatMap transaction

/-- Where a process is in its operations, all of which satisfy `K`. -/
inductive Stage (K : List Nat → Prop) (x : LogProc) : Prop where
  | between {rest : List (List Nat)} (hd : x.depth = 0) (ht : x.todo = rest.flatMap transaction)
      (hrest : ∀ ws ∈ rest, K ws)
  | inside {ws : List Nat} {rest : List (List Nat)} (hd : x.depth = 1)
      (ht : x.todo = ws.map .logWrite ++ .endOp :: rest.flatMap transaction)
      (hw : K (x.mine ++ ws)) (hrest : ∀ ws ∈ rest, K ws)

/-- The blocks an open operation may still add to the log. -/
def reserve (x : LogProc) : Nat :=
  if x.depth = 0 then 0 else maxOpBlocks - x.mine.toFinset.card

/-- What an operation may still need is in the log's free space. -/
structure Reserved (K : List Nat → Prop) (s : LogSys ι) : Prop where
  inv : s.Inv
  stage : ∀ p, Stage K (s.proc p)
  space : s.log.lh.length + ∑ p, reserve (s.proc p) ≤ logBlocks

theorem bracketed_ops (ops : List (List Nat)) : Bracketed 0 (ops.flatMap transaction) := by
  have hwrites : ∀ (ws : List Nat) t, Bracketed 1 t → Bracketed 1 (ws.map .logWrite ++ t) := by
    intro ws t h
    induction ws with
    | nil => exact h
    | cons b ws ih => exact bracketed_logWrite.mpr ⟨by decide, ih⟩
  induction ops with
  | nil => rfl
  | cons ws ops ih =>
      simp only [List.flatMap_cons, transaction, List.cons_append, List.append_assoc,
        List.nil_append, bracketed_beginOp]
      exact hwrites ws _ (bracketed_endOp.mpr ⟨by decide, ih⟩)

section
variable {K : List Nat → Prop} {ops : ι → List (List Nat)}

omit [DecidableEq ι] in
theorem reserved_ofOps (hops : ∀ p, ∀ ws ∈ ops p, K ws) : (ofOps ops).Reserved K where
  inv := inv_boot fun p => bracketed_ops (ops p)
  stage p := .between rfl rfl (hops p)
  space := by simp [ofOps, boot, LogProc.start, reserve, Log.init]

variable {s s' : LogSys ι} {p : ι}

/-- The space after the turn of one process. -/
theorem sum_reserve_put (s : LogSys ι) (p : ι) (x : LogProc) (l : Log) :
    (∑ q, reserve ((s.put p x l).proc q)) + reserve (s.proc p) =
      (∑ q, reserve (s.proc q)) + reserve x :=
  sum_update s.proc reserve p x

omit [DecidableEq ι] in
/-- Every open operation has at most its share. -/
theorem Reserved.sum_le (h : s.Reserved K) :
    ((∑ q, reserve (s.proc q) : Nat) : Int) ≤ s.log.outstanding * maxOpBlocks := by
  have hle : ∑ q, reserve (s.proc q) ≤ ∑ q, (s.proc q).depth * maxOpBlocks := by
    refine Finset.sum_le_sum fun q _ => ?_
    unfold reserve
    split
    · exact Nat.zero_le _
    · calc maxOpBlocks - (s.proc q).mine.toFinset.card ≤ 1 * maxOpBlocks := by omega
        _ ≤ (s.proc q).depth * maxOpBlocks := Nat.mul_le_mul_right _ (by omega)
  rw [h.inv.total]
  rw [← Finset.sum_mul] at hle
  exact_mod_cast hle

/-- A turn in which the log grows by no more than the share shrinks. -/
theorem Reserved.space_put (h : s.Reserved K) {x : LogProc} {l : Log}
    (hle : l.lh.length + reserve x ≤ s.log.lh.length + reserve (s.proc p)) :
    (s.put p x l).log.lh.length + ∑ q, reserve ((s.put p x l).proc q) ≤ logBlocks := by
  have hsum := sum_reserve_put s p x l
  have := h.space
  simp only [put_log]
  omega

theorem Reserved.commit (h : s.Reserved K) (hc : (s.proc p).committer = true) :
    (s.put p (s.proc p).committed s.log.commit).Reserved K := by
  refine ⟨h.inv.commit hc, forall_put (P := fun _ x => Stage K x) ?_ fun q _ => h.stage q,
    h.space_put ?_⟩
  · cases h.stage p with
    | between hd ht hrest => exact .between hd ht hrest
    | inside hd ht hw hrest => exact .inside hd ht hw hrest
  · exact Nat.add_le_add_right (Nat.zero_le _) _

/-- Operations do not nest: the one that begins is the next of the list. -/
theorem Stage.beginOp {x : LogProc} {t : List LogOp} (h : Stage K x)
    (ht : x.todo = .beginOp :: t) : x.depth = 0 ∧ ∃ ws rest, (∀ ws' ∈ ws :: rest, K ws') ∧
      t = ws.map .logWrite ++ .endOp :: rest.flatMap transaction := by
  cases h with
  | @between rest hd ht' hrest =>
      cases rest with
      | nil => simp [ht'] at ht
      | cons ws rest =>
          refine ⟨hd, ws, rest, hrest, ?_⟩
          rw [ht', List.flatMap_cons, transaction] at ht
          simpa using (List.cons.inj ht).2.symm
  | @inside ws rest hd ht' hw hrest =>
      rw [ht'] at ht
      cases ws <;> simp at ht

theorem Reserved.beginOp {t : List LogOp} (h : s.Reserved K)
    (hc : (s.proc p).committer = false) (ht : (s.proc p).todo = .beginOp :: t)
    (hidle : s.log.committing = false)
    (hroom : s.log.lh.length + (s.log.outstanding + 1) * maxOpBlocks ≤ logBlocks) :
    (s.put p ((s.proc p).begun t) s.log.enter).Reserved K := by
  obtain ⟨hd, ws, rest, hrest, hws⟩ := (h.stage p).beginOp ht
  refine ⟨h.inv.beginOp hc ht hidle,
    forall_put (P := fun _ x => Stage K x) ?_ fun q _ => h.stage q, ?_⟩
  · exact .inside (by simp [LogProc.begun, hd]) hws
      (by simpa [LogProc.begun, hd] using hrest ws (by simp))
      fun ws' h' => hrest ws' (by simp [h'])
  · -- all shares together are what `begin_op` has just tested for
    have hsum := sum_reserve_put s p ((s.proc p).begun t) s.log.enter
    have h0 : reserve (s.proc p) = 0 := by simp [reserve, hd]
    have h1 : reserve ((s.proc p).begun t) = maxOpBlocks := by simp [reserve, LogProc.begun, hd]
    have hle := h.sum_le
    rw [h0, h1] at hsum
    rw [Int.add_mul, Int.one_mul] at hroom
    show s.log.lh.length + _ ≤ logBlocks
    omega

/-- A process that logs a block is inside an operation. -/
theorem Stage.logWrite {x : LogProc} {b : Nat} {t : List LogOp} (h : Stage K x)
    (ht : x.todo = .logWrite b :: t) : x.depth = 1 ∧ ∃ ws, ∃ rest : List (List Nat),
      K (x.mine ++ b :: ws) ∧ (∀ ws ∈ rest, K ws) ∧
        t = ws.map .logWrite ++ .endOp :: rest.flatMap transaction := by
  cases h with
  | @between rest hd ht' hrest =>
      rw [ht'] at ht
      cases rest <;> simp [transaction] at ht
  | @inside ws rest hd ht' hw hrest =>
      rw [ht'] at ht
      cases ws with
      | nil => simp at ht
      | cons b' ws =>
          simp only [List.map_cons, List.cons_append, List.cons.injEq, LogOp.logWrite.injEq] at ht
          obtain ⟨rfl, rfl⟩ := ht
          exact ⟨hd, ws, rest, hw, hrest, rfl⟩

theorem Reserved.logWrite {b : Nat} {t : List LogOp}
    (hK : ∀ ws, K ws → ws.toFinset.card ≤ maxOpBlocks) (h : s.Reserved K)
    (hc : (s.proc p).committer = false) (ht : (s.proc p).todo = .logWrite b :: t)
    (hopen : 1 ≤ s.log.outstanding) :
    (s.put p ((s.proc p).wrote b t) (s.log.append b)).Reserved K := by
  obtain ⟨hd, ws, rest, hw, hrest, hws⟩ := (h.stage p).logWrite ht
  refine ⟨h.inv.logWrite hc ht hopen,
    forall_put (P := fun _ x => Stage K x) ?_ fun q _ => h.stage q, h.space_put ?_⟩
  · exact .inside hd hws (by simpa [LogProc.wrote] using hw) hrest
  · have hmine := (h.inv.fits p).mine (by omega)
    have hsub : (s.proc p).mine.toFinset ⊆ ((s.proc p).mine ++ [b]).toFinset := by simp
    have hcard := Finset.card_le_card hsub
    simp only [reserve, LogProc.wrote, Log.append, hd, Nat.one_ne_zero, if_false]
    split
    · omega
    · -- a block that is new to the log is new to the operation
      rename_i hb
      have hnew : b ∉ (s.proc p).mine.toFinset := fun hm => hb (hmine (List.mem_toFinset.mp hm))
      have hlt : (s.proc p).mine.toFinset.card + 1 ≤ maxOpBlocks := by
        rw [← Finset.card_insert_of_notMem hnew]
        refine le_trans (Finset.card_le_card fun c hcm => ?_) (hK _ hw)
        simp only [Finset.mem_insert, List.mem_toFinset] at hcm
        simp only [List.mem_toFinset, List.mem_append, List.mem_cons]
        tauto
      have hgrow : ((s.proc p).mine ++ [b]).toFinset.card = (s.proc p).mine.toFinset.card + 1 := by
        rw [List.toFinset_append, Finset.union_comm]
        simpa using Finset.card_insert_of_notMem hnew
      simp only [List.length_append, List.length_singleton]
      omega

theorem Reserved.endOp {t : List LogOp} (h : s.Reserved K) (ht : (s.proc p).todo = .endOp :: t)
    (hidle : s.log.committing = false) :
    (s.put p ((s.proc p).ended t (decide (s.log.outstanding = 1))) s.log.leave).Reserved K := by
  obtain ⟨hd, rest, hrest, hws⟩ : (s.proc p).depth = 1 ∧ ∃ rest : List (List Nat),
      (∀ ws ∈ rest, K ws) ∧ t = rest.flatMap transaction := by
    cases h.stage p with
    | @between rest hd ht' hrest =>
        rw [ht'] at ht
        cases rest <;> simp [transaction] at ht
    | @inside ws rest hd ht' hw hrest =>
        rw [ht'] at ht
        cases ws with
        | nil => exact ⟨hd, rest, hrest, by simpa using ht.symm⟩
        | cons b ws => simp at ht
  refine ⟨h.inv.endOp ht hidle, forall_put (P := fun _ x => Stage K x) ?_ fun q _ => h.stage q,
    h.space_put ?_⟩
  · exact .between (by simp [LogProc.ended, hd]) hws hrest
  · simp [reserve, LogProc.ended, Log.leave, hd]

theorem Reserved.step (hK : ∀ ws, K ws → ws.toFinset.card ≤ maxOpBlocks) (h : s.Reserved K)
    (hs : s.step p = .go s') : s'.Reserved K := by
  cases step_did hs with
  | commit hc hs => exact hs ▸ h.commit hc
  | beginOp hc ht hidle hroom hs => exact hs ▸ h.beginOp hc ht hidle hroom
  | logWrite hc ht _ hopen hs => exact hs ▸ h.logWrite hK hc ht hopen
  | endOp _ ht hidle hs => exact hs ▸ h.endOp ht hidle

omit [DecidableEq ι] in
theorem Reserved.length_le (h : s.Reserved K) : s.log.lh.length ≤ logBlocks :=
  le_trans (Nat.le_add_right _ _) h.space

end

/-- Until its last `log_write`, an operation has logged fewer than
`MAXOPBLOCKS` different blocks. -/
def Frugal (ws : List Nat) : Prop := ws.dropLast.toFinset.card < maxOpBlocks

theorem Frugal.card_le {ws : List Nat} (h : Frugal ws) : ws.toFinset.card ≤ maxOpBlocks := by
  unfold Frugal at h
  rcases List.eq_nil_or_concat ws with rfl | ⟨ws, b, rfl⟩
  · simp
  · rw [List.concat_eq_append, List.dropLast_concat] at h
    rw [List.concat_eq_append, List.toFinset_append]
    have := Finset.card_union_le ws.toFinset [b].toFinset
    simp only [List.toFinset_cons, List.toFinset_nil, insert_empty_eq,
      Finset.card_singleton] at this ⊢
    omega

/-- **With frugal operations the machine never stops**: there is always
room for the block that comes. -/
theorem Reserved.ne_halt {s : LogSys ι} (h : s.Reserved Frugal) (p : ι) (m : String) :
    s.step p ≠ .halt m := by
  intro hs
  unfold LogSys.step at hs
  split at hs
  · cases hs
  · split at hs
    · cases hs
    · exact Log.beginOp_ne_halt (Turn.map_eq_halt.mp hs)
    · rename_i b t ht
      obtain ⟨hd, ws, rest, hw, -, -⟩ := (h.stage p).logWrite ht
      have hopen := h.inv.depth_le p
      rcases Log.logWrite_halt (Turn.map_eq_halt.mp hs) with hfull | hnone
      · -- the operation has a block left, and the log has room for it
        have hmine : (s.proc p).mine.toFinset.card < maxOpBlocks := by
          refine lt_of_le_of_lt (Finset.card_le_card fun c hc => ?_) hw
          rw [List.mem_toFinset] at hc ⊢
          rw [List.dropLast_append_of_ne_nil (by simp)]
          exact List.mem_append_left _ hc
        have hshare : 0 < reserve (s.proc p) := by
          simp only [reserve, hd, Nat.one_ne_zero, if_false]
          omega
        have hle := le_sum s.proc reserve p
        have := h.space
        omega
      · omega
    · rename_i t ht
      have hcom := h.inv.idle (Log.endOp_halt (Turn.map_eq_halt.mp hs))
      have hscript := (h.inv.fits p).script
      rw [ht, bracketed_endOp] at hscript
      have hopen := h.inv.depth_le p
      omega

end LogSys

/-! ## The pager's transaction -/

/-- `swap_write_page(p, slot, page)` on the inode of the swap file. -/
def Vol.swapWritePage (i slot : Nat) (page : Nat → UInt8) : BProg Bool := do
  Prog.tell (.ilock i)
  let r ← writei kernelCopy page i (slot * 4096) 4096
  Prog.tell (.iunlock i)
  pure (r == some 4096)

/-- Every block a run logs is the free map, the (new) indirect block of
file `i`, or one of `D`; an indirect block stays where it is. -/
structure LogsIn (i : Nat) (D : Finset Nat) (v : Vol) (w : List BlockEv) (v' : Vol) : Prop where
  keeps : (v.inode i).addrs ndirect ≠ 0 →
    (v'.inode i).addrs ndirect = (v.inode i).addrs ndirect
  logs : ∀ b ∈ logged w, b = bitmapBlock ∨ (b = (v'.inode i).addrs ndirect ∧ b ≠ 0) ∨ b ∈ D

theorem LogsIn.append {i : Nat} {D D' : Finset Nat} {v v' v'' : Vol} {w w' : List BlockEv}
    (h : LogsIn i D v w v') (h' : LogsIn i D' v' w' v'') : LogsIn i (D ∪ D') v (w ++ w') v'' where
  keeps h0 := by
    have hk := h.keeps h0
    rw [← hk] at h0
    exact (h'.keeps h0).trans hk
  logs b hb := by
    rw [logged_append] at hb
    rcases List.mem_append.mp hb with hb | hb
    · rcases h.logs b hb with hb | ⟨hb, h0⟩ | hb
      · exact .inl hb
      · subst hb
        exact .inr (.inl ⟨(h'.keeps h0).symm, h0⟩)
      · exact .inr (.inr (Finset.mem_union_left _ hb))
    · rcases h'.logs b hb with hb | hb | hb
      · exact .inl hb
      · exact .inr (.inl hb)
      · exact .inr (.inr (Finset.mem_union_right _ hb))

theorem balloc_logs (v : Vol) :
    ends balloc (fun a v' w => v'.inode = v.inode ∧ ∀ b ∈ logged w, b = bitmapBlock ∨ b = a)
      (fun _ _ => False) (fun _ _ => False) v := by
  unfold balloc
  simp only [ends_bind, ends_tell, ends_get]
  cases v.firstFree with
  | none => simp
  | some b => simp [Vol.take]

/-- `addrs[k]` after `addrBlock`; no other address changes. -/
theorem addrBlock_logs (i k : Nat) (v : Vol) :
    ends (addrBlock i k) (fun a v' w =>
        (a ≠ 0 → (v'.inode i).addrs k = a) ∧ ((v.inode i).addrs k ≠ 0 → a = (v.inode i).addrs k) ∧
        (∀ k', k' ≠ k → (v'.inode i).addrs k' = (v.inode i).addrs k') ∧
        ∀ b ∈ logged w, b = bitmapBlock ∨ b = a)
      (fun _ _ => False) (fun _ _ => False) v := by
  unfold addrBlock
  simp only [ends_bind, ends_get]
  split
  · rename_i h0
    rw [ends_bind]
    refine (balloc_logs v).mono (fun a v' w h => ?_) (fun _ _ h => h) fun _ _ h => h
    obtain ⟨hin, hlog⟩ := h
    split
    · rename_i ha
      subst ha
      simpa [hin, h0] using hlog
    · simp only [ends_bind, ends_modify, ends_pure, List.nil_append, List.append_nil]
      refine ⟨fun _ => by simp [Vol.setAddr, Vol.setInode], fun h => absurd h0 h,
        fun k' hk => ?_, hlog⟩
      simp [Vol.setAddr, Vol.setInode, hin, Function.update_of_ne hk]
  · rename_i h0
    simp

theorem entryBlock_logs (ind j : Nat) (v : Vol) :
    ends (entryBlock ind j) (fun a v' w => v'.inode = v.inode ∧
        ∀ b ∈ logged w, b = bitmapBlock ∨ b = ind ∨ b = a)
      (fun _ _ => False) (fun _ _ => False) v := by
  unfold entryBlock
  simp only [ends_bind, ends_get]
  split
  · rw [ends_bind]
    refine (balloc_logs v).mono (fun a v' w h => ?_) (fun _ _ h => h) fun _ _ h => h
    obtain ⟨hin, hlog⟩ := h
    have hlog' : ∀ b ∈ logged w, b = bitmapBlock ∨ b = ind ∨ b = a := fun b hb =>
      (hlog b hb).imp id .inr
    split
    · rename_i ha
      subst ha
      simpa [hin] using hlog'
    · simp only [ends_bind, ends_modify, ends_tell, ends_pure, List.nil_append, List.append_nil]
      refine ⟨hin, fun b hb => ?_⟩
      simp only [logged_append, logged_logWrite, logged_nil, List.mem_append,
        List.mem_singleton] at hb
      exact hb.elim (hlog' b) fun h => .inr (.inl h)
  · simp

/-- **What `bmap` logs**: the free map, the indirect block, and the block
it returns. -/
theorem bmap_logs (i bn : Nat) (v : Vol) :
    ends (bmap i bn) (fun a v' w => LogsIn i {a} v w v') (fun _ _ => False)
      (fun _ w => logged w = []) v := by
  unfold bmap
  split
  · -- a direct block
    rename_i hbn
    refine (addrBlock_logs i bn v).mono (fun a v' w h => ?_) (fun _ _ h => h)
      fun _ _ h => h.elim
    obtain ⟨-, -, hother, hlog⟩ := h
    exact ⟨fun _ => hother ndirect (by omega), fun b hb => (hlog b hb).imp id fun h =>
      .inr (by simpa using h)⟩
  · split
    · rw [ends_bind]
      refine (addrBlock_logs i ndirect v).mono (fun ind v' w h => ?_) (fun _ _ h => h)
        fun _ _ h => h.elim
      obtain ⟨hset, hkeep, -, hlog⟩ := h
      split
      · -- no indirect block could be allocated
        rename_i h0
        subst h0
        simp only [ends_pure, List.append_nil]
        exact ⟨fun h => absurd (hkeep h).symm h, fun b hb => (hlog b hb).imp id fun h =>
          .inr (by simpa using h)⟩
      · rename_i h0
        simp only [ends_bind, ends_tell]
        refine (entryBlock_logs ind (bn - ndirect) v').mono (fun a v'' w' h => ?_)
          (fun _ _ h => h.elim) fun _ _ h => h.elim
        obtain ⟨hin, hlog'⟩ := h
        simp only [ends_pure]
        have hind : (v''.inode i).addrs ndirect = ind := by rw [hin]; exact hset h0
        refine ⟨fun h => by rw [hind, hkeep h], fun b hb => ?_⟩
        rw [hind]
        simp only [logged_append, logged_bread, logged_brelse, logged_nil, List.append_nil,
          List.nil_append, List.mem_append] at hb
        rcases hb with hb | hb
        · exact (hlog b hb).imp id fun h => .inl ⟨h, h ▸ h0⟩
        · rcases hlog' b hb with h | h | h
          · exact .inl h
          · exact .inr (.inl ⟨h, h ▸ h0⟩)
          · exact .inr (.inr (by simpa using h))
    · simp

theorem LogsIn.of_same {i : Nat} {D : Finset Nat} {v v' : Vol} {w : List BlockEv}
    (h : (v'.inode i).addrs = (v.inode i).addrs) (hlog : ∀ b ∈ logged w, b ∈ D) :
    LogsIn i D v w v' :=
  ⟨fun _ => by rw [h], fun b hb => .inr (.inr (hlog b hb))⟩

/-- **The loop of `writei` on whole blocks** logs one block per round,
besides the free map and the indirect block. -/
theorem writeiLoop_logs (src : Nat → UInt8) (i n : Nat) :
    ∀ fuel tot off v, off % 1024 = 0 → tot ≤ n → (n - tot) % 1024 = 0 →
      ends (writeiLoop kernelCopy src i n fuel tot off)
        (fun _ v' w => ∃ D : Finset Nat, D.card ≤ (n - tot) / 1024 ∧ LogsIn i D v w v')
        (fun _ _ => False)
        (fun _ w => ∃ D v', D.card ≤ (n - tot) / 1024 ∧ LogsIn i D v w v') v := by
  intro fuel
  induction fuel with
  | zero =>
      intro tot off v _ _ _
      simp only [writeiLoop, ends_pure]
      exact ⟨∅, by simp, .of_same rfl (by simp)⟩
  | succ fuel ih =>
      intro tot off v hoff hle hn
      unfold writeiLoop
      split
      · rename_i hlt
        have hm : min (n - tot) (1024 - off % 1024) = 1024 := by omega
        rw [ends_bind]
        refine (bmap_logs i (off / 1024) v).mono (fun a v' w hw => ?_) (fun _ _ h => h) ?_
        · split
          · -- the disk is full
            simp only [ends_pure, List.append_nil]
            exact ⟨{a}, by rw [Finset.card_singleton]; omega, hw⟩
          · simp only [ends_bind, ends_tell, kernelCopy, ends_pure, if_true, ends_modify, hm]
            -- the block itself, then the rest of the loop
            have hput : LogsIn i {a} v' [.bread a, .copy a, .logWrite a, .brelse a]
                (v'.put i off 1024 fun k => src (tot + k)) :=
              .of_same (by simp [Vol.put, Vol.setInode]) (by simp)
            have hall := (hw.append hput)
            rw [Finset.union_self] at hall
            refine (ih (tot + 1024) (off + 1024) _ (by omega) (by omega) (by omega)).mono
              (fun r v'' w' h => ?_) (fun _ _ h => h) (fun m w' h => ?_)
            · obtain ⟨D, hD, hlogs⟩ := h
              refine ⟨{a} ∪ D, ?_, by simpa using hall.append hlogs⟩
              have := Finset.card_union_le {a} D
              rw [Finset.card_singleton] at this
              omega
            · obtain ⟨D, v'', hD, hlogs⟩ := h
              refine ⟨{a} ∪ D, v'', ?_, by simpa using hall.append hlogs⟩
              have := Finset.card_union_le {a} D
              rw [Finset.card_singleton] at this
              omega
        · intro m w hw
          exact ⟨∅, v, by simp, .of_same rfl (by simp [hw])⟩
      · simp only [ends_pure]
        exact ⟨∅, by simp, .of_same rfl (by simp)⟩

/-- The blocks of a run that `LogsIn` describes. -/
theorem LogsIn.card_le {i : Nat} {D : Finset Nat} {v v' : Vol} {w : List BlockEv}
    (h : LogsIn i D v w v') : (logged w).toFinset.card ≤ D.card + 2 := by
  have hsub : (logged w).toFinset ⊆ {bitmapBlock, (v'.inode i).addrs ndirect} ∪ D := by
    intro b hb
    rw [Finset.mem_union, Finset.mem_insert, Finset.mem_singleton]
    rcases h.logs b (List.mem_toFinset.mp hb) with h | ⟨h, -⟩ | h
    · exact .inl (.inl h)
    · exact .inl (.inr h)
    · exact .inr h
  have htwo : ({bitmapBlock, (v'.inode i).addrs ndirect} : Finset Nat).card ≤ 2 :=
    Finset.card_le_two
  have := Finset.card_le_card hsub
  have := Finset.card_union_le {bitmapBlock, (v'.inode i).addrs ndirect} D
  omega

/-- **A page goes to the swap file in one transaction**: four data
blocks, the free map, the indirect block and the inode. -/
theorem swapWritePage_card (i slot : Nat) (page : Nat → UInt8) (v : Vol) :
    (logged ((Vol.swapWritePage i slot page) v).events).toFinset.card ≤ 7 := by
  have hends : ends (Vol.swapWritePage i slot page)
      (fun _ _ w => (logged w).toFinset.card ≤ 7) (fun _ _ => False)
      (fun _ w => (logged w).toFinset.card ≤ 7) v := by
    unfold Vol.swapWritePage writei
    simp only [ends_bind, ends_tell, ends_get]
    split
    · simp
    · rw [ends_bind]
      refine (writeiLoop_logs page i 4096 _ 0 (slot * 4096) v (by omega) (by omega) (by omega)).mono
        (fun r v' w h => ?_) (fun _ _ h => h) fun m w h => ?_
      · obtain ⟨D, hD, hw⟩ := h
        have hcard := hw.card_le
        simp only [ends_bind, ends_modify, iupdate, ends_tell, ends_pure]
        have := Finset.card_insert_le (iblock i) (logged w).toFinset
        simp
        omega
      · obtain ⟨D, v', hD, hw⟩ := h
        have := hw.card_le
        simp
        omega
  exact hends.events (fun _ _ _ h => h) (fun _ _ h => h.elim) fun _ _ h => h

namespace LogSys

variable {ι : Type} [DecidableEq ι] [Fintype ι]

/-- **Log space.** With frugal operations the log never overflows and
holds every block once, and no `log_write` stops the machine; and the
pager's own transaction stays below `MAXOPBLOCKS`, whatever the state of
the swap file. -/
theorem log_space_suffices :
    (∀ ops : ι → List (List Nat), (∀ p, ∀ ws ∈ ops p, Frugal ws) →
      ∀ s, Reaches LogSys.step AnyTurn (ofOps ops) s →
        s.log.lh.length ≤ logBlocks ∧ s.log.lh.Nodup ∧
          ∀ p, s.step p ≠ .halt "too big a transaction") ∧
      ∀ i slot page v, slot < maxSwapPages →
        (logged ((Vol.swapWritePage i slot page) v).events).toFinset.card ≤ maxOpBlocks := by
  refine ⟨fun ops hops s hs => ?_, fun i slot page v _ => ?_⟩
  · have h : s.Reserved Frugal := hs.invariant (reserved_ofOps hops)
      fun _ _ _ h _ hgo => h.step (fun _ => Frugal.card_le) hgo
    exact ⟨h.length_le, h.inv.nodup, fun p => h.ne_halt p _⟩
  · exact le_trans (swapWritePage_card i slot page v) (by decide)

/-- Three operations of ten blocks each. -/
def threeOps (p : Fin 3) : List (List Nat) := [(List.range 10).map fun k => 100 + 10 * p + k]

/-- They fill the log to the last block. -/
def fullSchedule : List (Fin 3) :=
  [0, 1, 2] ++ List.replicate 10 0 ++ List.replicate 10 1 ++ List.replicate 10 2

theorem log_space_suffices_threeOps :
    ∃ s, Reaches LogSys.step AnyTurn (ofOps threeOps) s ∧ s.log.lh.length = logBlocks ∧
      ∀ p, s.step p ≠ .halt "too big a transaction" := by
  obtain ⟨s, hs, hfull⟩ := exists_reaches LogSys.step anyTurn_ok
    (fun s => s.log.lh.length == logBlocks) (ofOps threeOps) fullSchedule (by decide)
  have hfrugal : ∀ p, ∀ ws ∈ threeOps p, Frugal ws := by
    intro p ws hws
    simp only [threeOps, List.mem_singleton] at hws
    subst hws
    show (List.dropLast _).toFinset.card < maxOpBlocks
    revert p
    decide
  exact ⟨s, hs, by simpa using hfull, (log_space_suffices.1 threeOps hfrugal s hs).2.2⟩

/-- The same, and the first operation logs its first block once more: ten
different blocks all the same. -/
def againOps (p : Fin 3) : List (List Nat) :=
  (threeOps p).map fun ws => if p = 0 then ws ++ [100] else ws

/-- **A block that is in the log already stops the machine.** -/
theorem log_space_again :
    (∀ p, ∀ ws ∈ againOps p, ws.toFinset.card ≤ maxOpBlocks) ∧
      ∃ s, Reaches LogSys.step AnyTurn (ofOps againOps) s ∧
        s.step 0 = .halt "too big a transaction" := by
  refine ⟨by decide, ?_⟩
  obtain ⟨s, hs, hhalt⟩ := exists_reaches LogSys.step anyTurn_ok
    (fun s : LogSys (Fin 3) =>
      match s.step 0 with | .halt m => m == "too big a transaction" | _ => false)
    (ofOps againOps) fullSchedule (by decide)
  refine ⟨s, hs, ?_⟩
  split at hhalt
  · rename_i m hm
    rw [hm, eq_of_beq hhalt]
  · cases hhalt

end LogSys

end OsSuite.Xv6
