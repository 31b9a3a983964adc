import OsSuite.Xv6.Blocks

/-!
# Volume — no block has two owners

A volume is well formed if every address an inode records, directly or
through its indirect block, is a block of the data area that is marked in
the free map and recorded nowhere else, and if no file has a hole below
its size. `bmap` hands out a block that is marked nowhere; recording it
keeps the volume well formed and all older records as they are.
-/

namespace OsSuite.Xv6

/-! ## Ownership of blocks -/

/-- Where an inode records a block. -/
inductive Pos where
  | data (bn : Nat)
  | ind
  deriving DecidableEq

/-- `MAXFILE` -/
def maxfile : Nat := ndirect + nindirect

def Pos.Valid : Pos → Prop
  | .data bn => bn < maxfile
  | .ind => True

namespace Vol

/-- The block recorded at a position, 0 if there is none. -/
def at_ (v : Vol) (i : Nat) : Pos → Nat
  | .data bn => v.addr i bn
  | .ind => (v.inode i).addrs ndirect

/-- A block of the data area that is in use. -/
structure Solid (v : Vol) (b : Nat) : Prop where
  used : v.used b = true
  area : bitmapBlock < b

structure Wf (v : Vol) : Prop where
  /-- The blocks before the data area are marked in the free map. -/
  low : ∀ b, b ≤ bitmapBlock → v.used b = true
  solid : ∀ i pos, pos.Valid → v.at_ i pos ≠ 0 → v.Solid (v.at_ i pos)
  apart : ∀ i j pos pos', pos.Valid → pos'.Valid → v.at_ i pos ≠ 0 →
    v.at_ i pos = v.at_ j pos' → i = j ∧ pos = pos'
  full : ∀ i bn, bn * 1024 < (v.inode i).size → v.addr i bn ≠ 0
  size : ∀ i, (v.inode i).size ≤ maxfileBytes

/-- What was recorded is still recorded. -/
structure Ext (v v' : Vol) : Prop where
  kept : ∀ i pos, pos.Valid → v.at_ i pos ≠ 0 → v'.at_ i pos = v.at_ i pos
  used : ∀ b, v.used b = true → v'.used b = true

theorem Ext.refl (v : Vol) : v.Ext v := ⟨fun _ _ _ _ => rfl, fun _ h => h⟩

theorem Ext.trans {v v' v'' : Vol} (h : v.Ext v') (h' : v'.Ext v'') : v.Ext v'' where
  kept i pos hp h0 := by
    have hk := h.kept i pos hp h0
    rw [h'.kept i pos hp (hk.symm ▸ h0), hk]
  used b hb := h'.used b (h.used b hb)

theorem Solid.ext {v v' : Vol} {b : Nat} (h : v.Solid b) (he : v.Ext v') : v'.Solid b :=
  ⟨he.used b h.used, h.area⟩

theorem Ext.addr {v v' : Vol} (h : v.Ext v') {i bn : Nat} (hbn : bn < maxfile)
    (h0 : v.addr i bn ≠ 0) : v'.addr i bn = v.addr i bn := h.kept i (.data bn) hbn h0

theorem Wf.ne_zero {v : Vol} {b : Nat} (h : v.Wf) (hb : v.used b = false) : b ≠ 0 := fun h0 => by
  have := h.low 0 (Nat.zero_le _)
  rw [← h0, hb] at this
  cases this

theorem firstFree_unused {v : Vol} {b : Nat} (h : v.firstFree = some b) : v.used b = false := by
  have := List.find?_some h
  simpa using this

/-- A volume with the same addresses. -/
theorem Wf.of_same {v v' : Vol} (h : v.Wf) (hat : v'.at_ = v.at_) (hused : v'.used = v.used)
    (hfull : ∀ i bn, bn * 1024 < (v'.inode i).size → v'.addr i bn ≠ 0)
    (hsize : ∀ i, (v'.inode i).size ≤ maxfileBytes) : v'.Wf where
  low := hused ▸ h.low
  solid i pos hp h0 := by
    rw [hat] at h0 ⊢
    exact ⟨hused ▸ (h.solid i pos hp h0).used, (h.solid i pos hp h0).area⟩
  apart := hat ▸ h.apart
  full := hfull
  size := hsize

theorem Ext.of_same {v v' : Vol} (hat : v'.at_ = v.at_) (hused : v'.used = v.used) : v.Ext v' :=
  ⟨fun i pos _ _ => by rw [hat], fun b hb => by rw [hused]; exact hb⟩

/-- `v'` is `v` with a free block `b` recorded at a position that had
none. -/
structure Allots (v v' : Vol) (i : Nat) (pos : Pos) (b : Nat) : Prop where
  free : v.used b = false
  valid : pos.Valid
  empty : v.at_ i pos = 0
  at_eq : ∀ j pos', pos'.Valid → v'.at_ j pos' = if j = i ∧ pos' = pos then b else v.at_ j pos'
  used_eq : ∀ c, v'.used c = (v.used c || c == b)
  size_eq : ∀ j, (v'.inode j).size = (v.inode j).size

section
variable {v v' : Vol} {i b : Nat} {pos : Pos}

theorem Allots.area (h : v.Allots v' i pos b) (hw : v.Wf) : bitmapBlock < b := by
  by_contra hb
  have := hw.low b (by omega)
  rw [h.free] at this
  cases this

theorem Allots.ext (h : v.Allots v' i pos b) : v.Ext v' where
  kept j pos' hp h0 := by
    rw [h.at_eq j pos' hp]
    split
    · rename_i he
      rw [he.1, he.2, h.empty] at h0
      exact absurd rfl h0
    · rfl
  used c hc := by rw [h.used_eq, hc]; rfl

theorem Allots.at_self (h : v.Allots v' i pos b) : v'.at_ i pos = b := by
  rw [h.at_eq i pos h.valid, if_pos ⟨rfl, rfl⟩]

/-- **A free block gets one owner.** -/
theorem Allots.wf (h : v.Allots v' i pos b) (hw : v.Wf) : v'.Wf := by
  have hfree : ∀ {j pos'}, pos'.Valid → v.at_ j pos' ≠ 0 → v.at_ j pos' ≠ b := fun hp h0 hb => by
    have := (hw.solid _ _ hp h0).used
    rw [hb, h.free] at this
    cases this
  refine ⟨fun c hc => by rw [h.used_eq, hw.low c hc]; rfl, fun j pos' hp h0 => ?_,
    fun j k pos₁ pos₂ hp₁ hp₂ h0 heq => ?_, fun j bn hbn => ?_, fun j => ?_⟩
  · rw [h.at_eq j pos' hp] at h0 ⊢
    split
    · exact ⟨by simp [h.used_eq], h.area hw⟩
    · rename_i hne
      rw [if_neg hne] at h0
      exact (hw.solid j pos' hp h0).ext h.ext
  · rw [h.at_eq j pos₁ hp₁] at h0 heq
    rw [h.at_eq k pos₂ hp₂] at heq
    split at heq
    · rename_i h₁
      split at heq
      · rename_i h₂
        exact ⟨h₁.1.trans h₂.1.symm, h₁.2.trans h₂.2.symm⟩
      · rw [if_pos h₁] at h0
        exact absurd heq.symm (hfree hp₂ (heq ▸ h0))
    · rename_i h₁
      rw [if_neg h₁] at h0
      split at heq
      · exact absurd heq (hfree hp₁ h0)
      · exact hw.apart j k pos₁ pos₂ hp₁ hp₂ h0 heq
  · rw [h.size_eq] at hbn
    have h0 := hw.full j bn hbn
    have hsz := hw.size j
    have hv : bn < maxfile := by
      unfold maxfile ndirect nindirect
      unfold maxfileBytes at hsz
      omega
    rw [h.ext.addr hv h0]
    exact h0
  · rw [h.size_eq]
    exact hw.size j

/-- The position of `addrs[k]`. -/
def posOf (k : Nat) : Pos := if k = ndirect then .ind else .data k

theorem Wf.ind_solid (hw : v.Wf) (h0 : (v.inode i).addrs ndirect ≠ 0) :
    v.Solid ((v.inode i).addrs ndirect) := hw.solid i .ind trivial h0

/-- A free block is nobody's indirect block. -/
theorem Wf.ind_ne (hw : v.Wf) (hb : v.used b = false) (h0 : (v.inode i).addrs ndirect ≠ 0) :
    (v.inode i).addrs ndirect ≠ b := fun h => by
  have := (hw.ind_solid h0).used
  rw [h, hb] at this
  cases this

theorem take_entry {c : Nat} (h : c ≠ b) : (v.take b).entry c = v.entry c := by
  simp [take, Function.update_of_ne h]

theorem take_used (c : Nat) : (v.take b).used c = (v.used c || c == b) := by
  by_cases h : c = b
  · simp [take, h]
  · simp [take, h]

theorem setAddr_addrs (k a j k' : Nat) : ((v.setAddr i k a).inode j).addrs k' =
    if j = i ∧ k' = k then a else (v.inode j).addrs k' := by
  by_cases hj : j = i
  · subst hj
    by_cases hk : k' = k
    · simp [setAddr, setInode, hk]
    · simp [setAddr, setInode, hk]
  · simp [setAddr, setInode, hj]

theorem setAddr_size (k a j : Nat) :
    ((v.setAddr i k a).inode j).size = (v.inode j).size := by
  by_cases hj : j = i
  · subst hj; simp [setAddr, setInode]
  · simp [setAddr, setInode, Function.update_of_ne hj]

/-- `bmap` records a new block in the inode. -/
theorem allots_addr (hw : v.Wf) (hb : v.used b = false) {k : Nat} (hk : k ≤ ndirect)
    (h0 : (v.inode i).addrs k = 0) : v.Allots ((v.take b).setAddr i k b) i (posOf k) b := by
  have hvalid : (posOf k).Valid := by
    unfold posOf
    split
    · trivial
    · show k < maxfile
      unfold maxfile
      omega
  have hempty : v.at_ i (posOf k) = 0 := by
    unfold posOf
    split
    · rename_i h; rw [h] at h0; exact h0
    · show v.addr i k = 0
      rw [addr, if_pos (by omega)]
      exact h0
  have haddrs : ∀ j k', ((((v.take b).setAddr i k b)).inode j).addrs k' =
      if j = i ∧ k' = k then b else (v.inode j).addrs k' := fun j k' => setAddr_addrs k b j k'
  refine ⟨hb, hvalid, hempty, fun j pos' hp => ?_, take_used, fun j => setAddr_size k b j⟩
  cases pos' with
  | ind =>
      show (((v.take b).setAddr i k b).inode j).addrs ndirect = _
      rw [haddrs]
      refine if_congr (and_congr Iff.rfl ?_) rfl rfl
      unfold posOf
      split
      · rename_i h; simp [h]
      · rename_i h; simp [Ne.symm h]
  | data bn =>
      show ((v.take b).setAddr i k b).addr j bn = _
      unfold addr
      rw [haddrs, haddrs]
      split
      · rename_i hlt
        refine if_congr (and_congr Iff.rfl ?_) rfl (by rw [at_, addr, if_pos hlt])
        unfold posOf
        split
        · simp only [reduceCtorEq, iff_false]; omega
        · simp
      · rename_i hge
        have hne : ¬ (j = i ∧ Pos.data bn = posOf k) := by
          rintro ⟨-, h⟩
          unfold posOf at h
          split at h
          · cases h
          · cases h; omega
        rw [if_neg hne, at_, addr, if_neg hge]
        by_cases hki : j = i ∧ ndirect = k
        · -- the new indirect block is zeroed
          obtain ⟨rfl, rfl⟩ := hki
          rw [if_pos h0, if_pos (show j = j ∧ ndirect = ndirect from ⟨rfl, rfl⟩)]
          split
          · rfl
          · show (v.take b).entry b (bn - ndirect) = 0
            simp [take]
        · rw [if_neg hki]
          split
          · rfl
          · rename_i hind
            show (v.take b).entry _ _ = _
            rw [take_entry (hw.ind_ne hb hind)]

/-- `bmap` records a new block in the indirect block. -/
theorem allots_entry (hw : v.Wf) (hb : v.used b = false) {bn : Nat} (hbn : ¬ bn < ndirect)
    (hmax : bn < maxfile) (hind : (v.inode i).addrs ndirect ≠ 0)
    (h0 : v.entry ((v.inode i).addrs ndirect) (bn - ndirect) = 0) :
    v.Allots ((v.take b).setEntry ((v.inode i).addrs ndirect) (bn - ndirect) b) i (.data bn) b := by
  have hentry : ∀ c k, c ≠ b →
      ((v.take b).setEntry ((v.inode i).addrs ndirect) (bn - ndirect) b).entry c k =
        if c = (v.inode i).addrs ndirect ∧ k = bn - ndirect then b else v.entry c k := by
    intro c k hc
    by_cases h₁ : c = (v.inode i).addrs ndirect
    · subst h₁
      by_cases h₂ : k = bn - ndirect
      · simp [setEntry, h₂]
      · simp [setEntry, h₂, take_entry hc]
    · simp [setEntry, h₁, take_entry hc]
  refine ⟨hb, hmax, ?_, fun j pos' hp => ?_, take_used, fun j => rfl⟩
  · rw [at_, addr, if_neg hbn, if_neg hind]
    exact h0
  cases pos' with
  | ind => simp only [reduceCtorEq, and_false, if_false]; rfl
  | data bn' =>
      show ((v.take b).setEntry ((v.inode i).addrs ndirect) (bn - ndirect) b).addr j bn' = _
      have hinode : ((v.take b).setEntry ((v.inode i).addrs ndirect) (bn - ndirect) b).inode
          = v.inode := rfl
      unfold addr
      rw [hinode]
      by_cases hlt : bn' < ndirect
      · rw [if_pos hlt, if_neg (by rintro ⟨-, h⟩; cases h; exact hbn hlt), at_, addr, if_pos hlt]
      rw [if_neg hlt, at_, addr, if_neg hlt]
      by_cases hj : (v.inode j).addrs ndirect = 0
      · rw [if_pos hj, if_pos hj, if_neg]
        rintro ⟨rfl, -⟩
        exact hind hj
      rw [if_neg hj, if_neg hj, hentry _ _ (hw.ind_ne hb hj)]
      refine if_congr ⟨fun h => ?_, fun h => ?_⟩ rfl rfl
      · have := (hw.apart j i .ind .ind trivial trivial hj h.1).1
        exact ⟨this, by rw [show bn' = bn by omega]⟩
      · obtain ⟨rfl, h⟩ := h
        cases h
        exact ⟨rfl, rfl⟩

end

end Vol

end OsSuite.Xv6
