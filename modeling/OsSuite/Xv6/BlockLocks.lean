import OsSuite.Lib.Watch
import OsSuite.Xv6.Volume

/-!
# BlockLocks — the locks of the inode layer

A watcher that follows the buffers, inodes and transactions that one
process holds. `bmap`, `readi`, `writei` and `itrunc` give back what they
take. On a well-formed volume they ask for no buffer twice, and for no
buffer of another file; `readi` into the kernel waits for a held buffer
exactly if it is a block of the bytes it reads.
-/

namespace OsSuite.Xv6

/-! ## Locks -/

/-- What one process holds: locked buffers and inodes, open transactions. -/
structure Held where
  bufs : List Nat
  inodes : List Nat
  depth : Nat
  deriving DecidableEq

namespace Held

def nothing : Held := ⟨[], [], 0⟩

def after (h : Held) : BlockEv → Held
  | .bread b => { h with bufs := b :: h.bufs }
  | .brelse b => { h with bufs := h.bufs.erase b }
  | .ilock i => { h with inodes := i :: h.inodes }
  | .iunlock i => { h with inodes := h.inodes.erase i }
  | .beginOp => { h with depth := h.depth + 1 }
  | .endOp => { h with depth := h.depth - 1 }
  | .bwrite _ => h
  | .logWrite _ => h
  | .committed => h
  | .copy _ => h

/-- `bread` and `ilock` sleep while the lock is taken: the process waits
for a lock that it has itself. -/
def Waits (h : Held) : BlockEv → Prop
  | .bread b => b ∈ h.bufs
  | .ilock i => i ∈ h.inodes
  | _ => False

/-- Follows the locks; it raises an alarm only if it is `strict`. -/
def watch (strict : Prop) : Watcher Held BlockEv where
  next := after
  alarm h e := strict ∧ h.Waits e

variable {strict : Prop} {h : Held}

@[simp] theorem watch_next (e : BlockEv) : (watch strict).next h e = h.after e := rfl

@[simp] theorem watch_alarm (e : BlockEv) : (watch strict).alarm h e ↔ strict ∧ h.Waits e := Iff.rfl

@[simp] theorem waits_bread (b : Nat) : h.Waits (.bread b) ↔ b ∈ h.bufs := Iff.rfl

@[simp] theorem waits_ilock (i : Nat) : h.Waits (.ilock i) ↔ i ∈ h.inodes := Iff.rfl

@[simp] theorem waits_brelse (b : Nat) : ¬ h.Waits (.brelse b) := id

@[simp] theorem waits_iunlock (i : Nat) : ¬ h.Waits (.iunlock i) := id

@[simp] theorem waits_logWrite (b : Nat) : ¬ h.Waits (.logWrite b) := id

@[simp] theorem waits_bwrite (b : Nat) : ¬ h.Waits (.bwrite b) := id

@[simp] theorem waits_committed : ¬ h.Waits .committed := id

@[simp] theorem waits_copy (b : Nat) : ¬ h.Waits (.copy b) := id

@[simp] theorem waits_beginOp : ¬ h.Waits .beginOp := id

@[simp] theorem waits_endOp : ¬ h.Waits .endOp := id

@[simp] theorem after_logWrite (b : Nat) : h.after (.logWrite b) = h := rfl

@[simp] theorem after_bwrite (b : Nat) : h.after (.bwrite b) = h := rfl

@[simp] theorem after_committed : h.after .committed = h := rfl

@[simp] theorem after_copy (b : Nat) : h.after (.copy b) = h := rfl

@[simp] theorem bread_brelse (b : Nat) : (h.after (.bread b)).after (.brelse b) = h := by
  simp [after]

@[simp] theorem ilock_iunlock (i : Nat) : (h.after (.ilock i)).after (.iunlock i) = h := by
  simp [after]

@[simp] theorem beginOp_endOp : (h.after .beginOp).after .endOp = h := by simp [after]

theorem bufs_bread (b : Nat) : (h.after (.bread b)).bufs = b :: h.bufs := rfl

end Held

section
variable {strict : Prop} {h : Held} {v : Vol} {E : Vol → Held → Prop}

open Held

/-- The held buffers are blocks that no new block can be. -/
def Held.Clear (h : Held) (v : Vol) : Prop := ∀ b ∈ h.bufs, v.Solid b

theorem Held.Clear.bitmap (hc : h.Clear v) : bitmapBlock ∉ h.bufs := fun hb =>
  absurd (hc _ hb).area (Nat.lt_irrefl _)

theorem calm_balloc (hc : strict → h.Clear v) :
    (watch strict).calm balloc (fun a v' h' => h' = h ∧
      (a = 0 ∧ v' = v ∨ v.used a = false ∧ v' = v.take a)) E h v := by
  unfold balloc
  have hbit : ¬ (strict ∧ bitmapBlock ∈ h.bufs) := fun hb => (hc hb.1).bitmap hb.2
  simp only [Watcher.calm_bind, Watcher.calm_tell, Watcher.calm_get, watch_alarm, waits_bread]
  refine ⟨hbit, ?_⟩
  cases hf : v.firstFree with
  | none => simp
  | some b =>
      have hb := Vol.firstFree_unused hf
      have hfresh : strict → b ∉ h.bufs := fun hs hm => by
        have := (hc hs b hm).used
        rw [hb] at this
        cases this
      simpa [hb] using hfresh

/-- The outcome of an allocation for position `pos`: nothing, or a block
that is then recorded there. -/
def Placed (i : Nat) (pos : Pos) (v : Vol) (a : Nat) (v' : Vol) : Prop :=
  v'.Wf ∧ v.Ext v' ∧ (a ≠ 0 → a = v'.at_ i pos)

theorem placed_of_allots {i b : Nat} {pos : Pos} {v' : Vol} (hw : v.Wf)
    (h : v.Allots v' i pos b) : Placed i pos v b v' :=
  ⟨h.wf hw, h.ext, fun _ => h.at_self.symm⟩

theorem calm_addrBlock (hw : v.Wf) (hc : strict → h.Clear v) (i : Nat) {k : Nat}
    (hk : k ≤ ndirect) : (watch strict).calm (addrBlock i k)
      (fun a v' h' => h' = h ∧ Placed i (Vol.posOf k) v a v') E h v := by
  unfold addrBlock
  simp only [Watcher.calm_bind, Watcher.calm_get]
  split
  · rename_i h0
    refine (calm_balloc hc).bind fun a v' h' hq => ?_
    obtain ⟨rfl, hq⟩ := hq
    rcases hq with ⟨rfl, rfl⟩ | ⟨hfree, rfl⟩
    · simp [Placed, hw, Vol.Ext.refl]
    · rw [if_neg (hw.ne_zero hfree)]
      simp only [Watcher.calm_bind, Watcher.calm_modify, Watcher.calm_pure, true_and]
      exact placed_of_allots hw (Vol.allots_addr hw hfree hk h0)
  · refine Watcher.calm_pure.mpr ⟨rfl, hw, Vol.Ext.refl v, fun _ => ?_⟩
    unfold Vol.posOf
    split
    · rename_i h; rw [h]; rfl
    · show _ = v.addr i k
      rw [Vol.addr, if_pos (by omega)]

/-- The entry of the indirect block, which the process has locked. -/
theorem calm_entryBlock (hw : v.Wf) (hc : strict → h.Clear v) {i ind bn : Nat}
    (hge : ¬ bn < ndirect) (hbn : bn < maxfile) (hind : (v.inode i).addrs ndirect = ind)
    (h0 : ind ≠ 0) : (watch strict).calm (entryBlock ind (bn - ndirect))
      (fun a v' h' => h' = h ∧ Placed i (.data bn) v a v') E h v := by
  subst hind
  unfold entryBlock
  simp only [Watcher.calm_bind, Watcher.calm_get]
  split
  · rename_i he
    refine (calm_balloc hc).bind fun a v' h' hq => ?_
    obtain ⟨rfl, hq⟩ := hq
    rcases hq with ⟨rfl, rfl⟩ | ⟨hfree, rfl⟩
    · simp [Placed, hw, Vol.Ext.refl]
    · rw [if_neg (hw.ne_zero hfree)]
      simp only [Watcher.calm_bind, Watcher.calm_modify, Watcher.calm_tell, watch_alarm,
        waits_logWrite, and_false, not_false_eq_true, true_and, Watcher.calm_pure, watch_next,
        after_logWrite]
      exact placed_of_allots hw (Vol.allots_entry hw hfree hge hbn h0 he)
  · refine Watcher.calm_pure.mpr ⟨rfl, hw, Vol.Ext.refl v, fun _ => ?_⟩
    show _ = v.addr i bn
    rw [Vol.addr, if_neg hge, if_neg h0]

theorem Placed.after {i a : Nat} {pos : Pos} {v' v'' : Vol} (h : Placed i pos v' a v'')
    (he : v.Ext v') : Placed i pos v a v'' := ⟨h.1, he.trans h.2.1, h.2.2⟩

/-- No held buffer belongs to file `i`, now or later. -/
structure Held.Off (h : Held) (i : Nat) (v : Vol) : Prop where
  clear : h.Clear v
  apart : ∀ v', v'.Wf → v.Ext v' → ∀ pos, pos.Valid → v'.at_ i pos ∉ h.bufs

theorem Held.Off.ext {i : Nat} {v' : Vol} (ho : h.Off i v) (he : v.Ext v') : h.Off i v' :=
  ⟨fun b hb => (ho.clear b hb).ext he, fun v'' hw he' => ho.apart v'' hw (he.trans he')⟩

/-- **`bmap` under locks**: it gives back what it takes, and what it
returns is recorded in the inode. -/
theorem calm_bmap (hw : v.Wf) {i bn : Nat} (hbn : bn < maxfile) (ho : strict → h.Off i v) :
    (watch strict).calm (bmap i bn) (fun a v' h' => h' = h ∧ Placed i (.data bn) v a v') E h v := by
  unfold bmap
  split
  · rename_i hlt
    refine (calm_addrBlock hw (fun hs => (ho hs).clear) i (Nat.le_of_lt hlt)).mono
      (fun a v' h' hq => ?_) fun _ _ h => h
    rw [Vol.posOf, if_neg (by omega)] at hq
    exact hq
  · rename_i hge
    rw [if_pos (by unfold maxfile at hbn; omega)]
    refine (calm_addrBlock hw (fun hs => (ho hs).clear) i (Nat.le_refl _)).bind
      fun ind v₁ h₁ hq => ?_
    obtain ⟨rfl, hw₁, hext, hat⟩ := hq
    rw [Vol.posOf, if_pos rfl] at hat
    by_cases h0 : ind = 0
    · rw [if_pos h0]
      exact Watcher.calm_pure.mpr ⟨rfl, hw₁, hext, fun h => absurd rfl h⟩
    rw [if_neg h0]
    have hind : (v₁.inode i).addrs ndirect = ind := (hat h0).symm
    have hsolid : v₁.Solid ind := hind ▸ hw₁.ind_solid (by rw [hind]; exact h0)
    simp only [Watcher.calm_bind, Watcher.calm_tell, watch_alarm, waits_bread, watch_next]
    refine ⟨fun hm => (ho hm.1).apart v₁ hw₁ hext .ind trivial (by rw [Vol.at_, hind]; exact hm.2),
      ?_⟩
    -- from here on the indirect block is locked
    have hc : strict → (h₁.after (.bread ind)).Clear v₁ := fun hs b hb => by
      rcases List.mem_cons.mp hb with rfl | hb
      · exact hsolid
      · exact ((ho hs).clear b hb).ext hext
    refine (calm_entryBlock hw₁ hc hge hbn hind h0).mono (fun a v' h' hq => ?_) fun _ _ h => h
    obtain ⟨rfl, hq⟩ := hq
    simpa using hq.after hext

/-! ## Transfers under locks -/

/-- The blocks of file `i` below `off` are there. -/
def Vol.Mapped (v : Vol) (i off : Nat) : Prop := ∀ bn, bn * 1024 < off → v.addr i bn ≠ 0

theorem div_lt_maxfile {k : Nat} (h : k < maxfileBytes) : k / 1024 < maxfile := by
  unfold maxfile ndirect nindirect
  unfold maxfileBytes at h
  omega

theorem Vol.Mapped.ext {v' : Vol} {i off : Nat} (h : v.Mapped i off) (hoff : off ≤ maxfileBytes)
    (he : v.Ext v') : v'.Mapped i off := fun bn hbn => by
  have := div_lt_maxfile (show bn * 1024 < maxfileBytes by omega)
  rw [Nat.mul_div_cancel _ (by decide)] at this
  rw [he.addr this (h bn hbn)]
  exact h bn hbn

theorem Vol.Wf.mapped (hw : v.Wf) {i off : Nat} (h : off ≤ (v.inode i).size) : v.Mapped i off :=
  fun bn hbn => hw.full i bn (by omega)

/-- What a copy on the locked buffer of a block of file `i` may do: it
gives back the locks that it takes. -/
def Copies (strict : Prop) (E : Vol → Held → Prop) (h : Held) (i base : Nat) (v₀ : Vol)
    (copy : Nat → Nat → BProg Bool) : Prop :=
  ∀ tot m v, v.Wf → v₀.Ext v → (base + tot) / 1024 < maxfile →
    v.addr i ((base + tot) / 1024) ≠ 0 →
    (watch strict).calm (copy tot m) (fun _ v' h' =>
        h' = h.after (.bread (v.addr i ((base + tot) / 1024))) ∧ v'.Wf ∧ v.Ext v')
      E (h.after (.bread (v.addr i ((base + tot) / 1024)))) v

section
variable {i base n : Nat} {v₀ : Vol} {copy : Nat → Nat → BProg Bool}

theorem calm_readiLoop (hcopy : Copies strict E h i base v₀ copy) (hn : base + n ≤ maxfileBytes)
    (ho : strict → h.Off i v₀) (fuel tot : Nat) {v : Vol} (hw : v.Wf) (he : v₀.Ext v) :
    (watch strict).calm (readiLoop copy i n fuel tot (base + tot))
      (fun _ v' h' => h' = h ∧ v'.Wf ∧ v₀.Ext v') E h v := by
  induction fuel generalizing tot v with
  | zero => exact Watcher.calm_pure.mpr ⟨rfl, hw, he⟩
  | succ fuel ih =>
      unfold readiLoop
      split
      · rename_i hlt
        have hbn := div_lt_maxfile (show base + tot < maxfileBytes by omega)
        refine (calm_bmap hw hbn fun hs => (ho hs).ext he).bind fun a v₁ h₁ hq => ?_
        obtain ⟨rfl, hw₁, he₁, hat⟩ := hq
        have he₁' := he.trans he₁
        by_cases h0 : a = 0
        · rw [if_pos h0]
          exact Watcher.calm_pure.mpr ⟨rfl, hw₁, he₁'⟩
        rw [if_neg h0]
        obtain rfl : a = v₁.addr i ((base + tot) / 1024) := hat h0
        simp only [Watcher.calm_bind, Watcher.calm_tell, watch_alarm, waits_bread, waits_copy,
          and_false, not_false_eq_true, true_and, watch_next, after_copy]
        refine ⟨fun hm => (ho hm.1).apart v₁ hw₁ he₁' (.data _) hbn hm.2, ?_⟩
        refine (hcopy tot _ v₁ hw₁ he₁' hbn h0).mono (fun ok v₂ h₂ hq => ?_) fun _ _ h => h
        obtain ⟨rfl, hw₂, he₂⟩ := hq
        simp only [waits_brelse, and_false, not_false_eq_true, true_and, bread_brelse]
        cases ok with
        | true =>
            rw [if_pos rfl, Nat.add_assoc]
            exact ih _ hw₂ (he₁'.trans he₂)
        | false =>
            rw [if_neg (by decide)]
            exact Watcher.calm_pure.mpr ⟨rfl, hw₂, he₁'.trans he₂⟩
      · exact Watcher.calm_pure.mpr ⟨rfl, hw, he⟩

theorem Vol.at_setInode {ip : INode} (haddrs : ip.addrs = (v.inode i).addrs) :
    (v.setInode i ip).at_ = v.at_ := by
  have hinode : ∀ j, ((v.setInode i ip).inode j).addrs = (v.inode j).addrs := fun j => by
    by_cases hj : j = i
    · subst hj
      simpa [Vol.setInode] using haddrs
    · simp [Vol.setInode, hj]
  funext j pos
  cases pos with
  | data bn =>
      show Vol.addr _ j bn = Vol.addr v j bn
      unfold Vol.addr
      rw [hinode]
      rfl
  | ind => exact congrFun (hinode j) ndirect

/-- An inode with the same blocks, of a size that they cover. -/
theorem Vol.Wf.setInode (hw : v.Wf) {ip : INode} (haddrs : ip.addrs = (v.inode i).addrs)
    (hmap : v.Mapped i ip.size) (hsize : ip.size ≤ maxfileBytes) :
    (v.setInode i ip).Wf ∧ v.Ext (v.setInode i ip) := by
  have hat := Vol.at_setInode haddrs
  have hcases : ∀ j, j = i ∧ (v.setInode i ip).inode j = ip ∨
      (v.setInode i ip).inode j = v.inode j := fun j => by
    by_cases hj : j = i
    · exact .inl ⟨hj, by simp [Vol.setInode, hj]⟩
    · exact .inr (by simp [Vol.setInode, hj])
  refine ⟨hw.of_same hat rfl (fun j bn hbn => ?_) fun j => ?_, .of_same hat rfl⟩
  · show Vol.at_ _ j (.data bn) ≠ 0
    rw [hat]
    rcases hcases j with ⟨rfl, hj⟩ | hj <;> rw [hj] at hbn
    · exact hmap bn hbn
    · exact hw.full j bn hbn
  · rcases hcases j with ⟨-, hj⟩ | hj <;> rw [hj]
    · exact hsize
    · exact hw.size j

theorem Vol.Wf.put (hw : v.Wf) (i off m : Nat) (src : Nat → UInt8) :
    (v.put i off m src).Wf ∧ v.Ext (v.put i off m src) :=
  hw.setInode rfl (hw.mapped (Nat.le_refl _)) (hw.size i)

theorem calm_writeiLoop (hcopy : Copies strict E h i base v₀ copy) (hn : base + n ≤ maxfileBytes)
    (ho : strict → h.Off i v₀) (src : Nat → UInt8) (fuel tot : Nat) {v : Vol} (hw : v.Wf)
    (he : v₀.Ext v) (hmap : v.Mapped i (base + tot)) (htot : tot ≤ n) :
    (watch strict).calm (writeiLoop copy src i n fuel tot (base + tot))
      (fun r v' h' => h' = h ∧ v'.Wf ∧ v₀.Ext v' ∧ v'.Mapped i r.2 ∧ r.2 ≤ base + n) E h v := by
  induction fuel generalizing tot v with
  | zero => exact Watcher.calm_pure.mpr ⟨rfl, hw, he, hmap, Nat.add_le_add_left htot _⟩
  | succ fuel ih =>
      have hstop : ∀ {v' : Vol}, v'.Wf → v₀.Ext v' → v.Ext v' → h = h ∧ v'.Wf ∧ v₀.Ext v' ∧
          v'.Mapped i (base + tot) ∧ base + tot ≤ base + n := fun hw' he' hext =>
        ⟨rfl, hw', he', hmap.ext (by omega) hext, Nat.add_le_add_left htot _⟩
      unfold writeiLoop
      split
      · rename_i hlt
        have hbn := div_lt_maxfile (show base + tot < maxfileBytes by omega)
        refine (calm_bmap hw hbn fun hs => (ho hs).ext he).bind fun a v₁ h₁ hq => ?_
        obtain ⟨rfl, hw₁, he₁, hat⟩ := hq
        have he₁' := he.trans he₁
        by_cases h0 : a = 0
        · rw [if_pos h0]
          exact Watcher.calm_pure.mpr (hstop hw₁ he₁' he₁)
        rw [if_neg h0]
        obtain rfl : a = v₁.addr i ((base + tot) / 1024) := hat h0
        simp only [Watcher.calm_bind, Watcher.calm_tell, watch_alarm, waits_bread, waits_copy,
          and_false, not_false_eq_true, true_and, watch_next, after_copy]
        refine ⟨fun hm => (ho hm.1).apart v₁ hw₁ he₁' (.data _) hbn hm.2, ?_⟩
        refine (hcopy tot _ v₁ hw₁ he₁' hbn h0).mono (fun ok v₂ h₂ hq => ?_) fun _ _ h => h
        obtain ⟨rfl, hw₂, he₂⟩ := hq
        cases ok with
        | true =>
            rw [if_pos rfl]
            obtain ⟨hw₃, he₃⟩ := hw₂.put i (base + tot)
              (min (n - tot) (1024 - (base + tot) % 1024)) fun k => src (tot + k)
            simp only [Watcher.calm_bind, Watcher.calm_modify, Watcher.calm_tell, watch_alarm,
              waits_brelse, waits_logWrite, and_false, not_false_eq_true, true_and, watch_next,
              after_logWrite, bread_brelse, Nat.add_assoc base]
            refine ih _ hw₃ ((he₁'.trans he₂).trans he₃) (fun bn hbn' => ?_) (by omega)
            -- the block just written, or one before it
            by_cases hb : bn * 1024 < base + tot
            · exact hmap.ext (by omega) ((he₁.trans he₂).trans he₃) bn hb
            · obtain rfl : bn = (base + tot) / 1024 := by omega
              rw [(he₂.trans he₃).addr hbn h0]
              exact h0
        | false =>
            rw [if_neg (by decide)]
            simp only [Watcher.calm_bind, Watcher.calm_tell, watch_alarm, waits_brelse, and_false,
              not_false_eq_true, true_and, watch_next, bread_brelse, Watcher.calm_pure]
            exact (hstop hw₂ (he₁'.trans he₂) (he₁.trans he₂)).2
      · exact Watcher.calm_pure.mpr (hstop hw he (.refl v))

end

/-- `readi` on a user or kernel buffer. -/
theorem calm_readi (hw : v.Wf) {i off n : Nat} {copy : Nat → Nat → BProg Bool}
    (hcopy : Copies strict E h i off v copy) (ho : strict → h.Off i v) :
    (watch strict).calm (readi copy i off n)
      (fun _ v' h' => h' = h ∧ v'.Wf ∧ v.Ext v') E h v := by
  unfold readi
  simp only [Watcher.calm_bind, Watcher.calm_get]
  split
  · exact Watcher.calm_pure.mpr ⟨rfl, hw, .refl v⟩
  · have hsize := hw.size i
    exact calm_readiLoop hcopy (by split <;> omega) ho _ 0 hw (.refl v)

/-- The buffer of an inode's block is none of the held ones. -/
theorem calm_iupdate {i : Nat} (hib : strict → iblock i ∉ h.bufs) :
    (watch strict).calm (iupdate i) (fun _ v' h' => h' = h ∧ v' = v) E h v := by
  unfold iupdate
  simpa using hib

/-- `writei` on a user or kernel buffer. -/
theorem calm_writei (hw : v.Wf) {i off n : Nat} {copy : Nat → Nat → BProg Bool}
    (src : Nat → UInt8) (hcopy : Copies strict E h i off v copy) (ho : strict → h.Off i v)
    (hib : strict → iblock i ∉ h.bufs) :
    (watch strict).calm (writei copy src i off n)
      (fun _ v' h' => h' = h ∧ v'.Wf ∧ v.Ext v') E h v := by
  unfold writei
  simp only [Watcher.calm_bind, Watcher.calm_get]
  split
  · exact Watcher.calm_pure.mpr ⟨rfl, hw, .refl v⟩
  · rename_i hok
    simp only [not_or, Nat.not_lt] at hok
    refine (calm_writeiLoop hcopy hok.2.2 ho src _ 0 hw (.refl v) (hw.mapped hok.1)
      (Nat.zero_le n)).bind fun r v₁ h₁ hq => ?_
    obtain ⟨rfl, hw₁, he₁, hmap, hle⟩ := hq
    have hgrown : ∀ v₂, v₂ = (if (v₁.inode i).size < r.2
        then v₁.setInode i { v₁.inode i with size := r.2 } else v₁) → v₂.Wf ∧ v.Ext v₂ := by
      rintro v₂ rfl
      split
      · have h₂ : (v₁.setInode i { v₁.inode i with size := r.2 }).Wf ∧
            v₁.Ext (v₁.setInode i { v₁.inode i with size := r.2 }) :=
          hw₁.setInode rfl hmap (Nat.le_trans hle hok.2.2)
        exact ⟨h₂.1, he₁.trans h₂.2⟩
      · exact ⟨hw₁, he₁⟩
    simp only [Watcher.calm_bind, Watcher.calm_modify]
    refine (calm_iupdate hib).mono (fun _ v₃ h₃ hq => ?_) fun _ _ h => h
    obtain ⟨rfl, rfl⟩ := hq
    exact Watcher.calm_pure.mpr ⟨rfl, hgrown _ rfl⟩

theorem copies_kernelCopy {i base : Nat} : Copies strict E h i base v kernelCopy :=
  fun _ _ v' hw _ _ _ => Watcher.calm_pure.mpr ⟨rfl, hw, .refl v'⟩

/-! ## Giving blocks back -/

/-- No inode has the free map or a held buffer for its indirect block. -/
def Held.Aside (h : Held) (v : Vol) : Prop :=
  bitmapBlock ∉ h.bufs ∧ ∀ j, (v.inode j).addrs ndirect ≠ bitmapBlock ∧
    ((v.inode j).addrs ndirect ≠ 0 → (v.inode j).addrs ndirect ∉ h.bufs)

/-- An inode keeps its indirect block or loses it. -/
def Vol.Shrinks (v v' : Vol) : Prop := ∀ j, (v'.inode j).addrs ndirect = (v.inode j).addrs ndirect ∨
  (v'.inode j).addrs ndirect = 0

theorem Vol.Shrinks.trans {v' v'' : Vol} (h : v.Shrinks v') (h' : v'.Shrinks v'') : v.Shrinks v'' :=
  fun j => (h' j).elim (fun he => he ▸ h j) .inr

theorem Vol.shrinks_of_inode {v' : Vol} (h : v'.inode = v.inode) : v.Shrinks v' :=
  fun j => .inl (by rw [h])

theorem Vol.shrinks_setAddr (v : Vol) (i k : Nat) : v.Shrinks (v.setAddr i k 0) := fun j => by
  rw [Vol.setAddr_addrs]
  split
  · exact .inr rfl
  · exact .inl rfl

theorem Held.Aside.shrinks {v' : Vol} (ha : h.Aside v) (hs : v.Shrinks v') : h.Aside v' :=
  ⟨ha.1, fun j => by
    rcases hs j with hj | hj <;> rw [hj]
    · exact ha.2 j
    · exact ⟨by decide, fun h0 => absurd rfl h0⟩⟩

theorem calm_bfree (hb : strict → bitmapBlock ∉ h.bufs) (b : Nat) :
    (watch strict).calm (bfree b) (fun _ v' h' => h' = h ∧ v'.inode = v.inode) E h v := by
  unfold bfree
  simp only [Watcher.calm_bind, Watcher.calm_tell, Watcher.calm_get, watch_alarm, waits_bread]
  refine ⟨fun hm => hb hm.1 hm.2, ?_⟩
  split
  · simp [Vol.release]
  · simp

/-- A block is freed and its address forgotten. -/
theorem calm_bfree_setAddr (hb : strict → bitmapBlock ∉ h.bufs) (b i k : Nat) :
    (watch strict).calm (bfree b >>= fun _ => Prog.modify (·.setAddr i k 0))
      (fun _ v' h' => h' = h ∧ v.Shrinks v') E h v := by
  refine (calm_bfree hb b).bind fun _ v₁ h₁ hq => ?_
  exact Watcher.calm_modify.mpr ⟨hq.1, (Vol.shrinks_of_inode hq.2).trans (v₁.shrinks_setAddr i k)⟩

theorem calm_freeIndirect (ha : strict → h.Aside v) (i : Nat) :
    (watch strict).calm (freeIndirect i) (fun _ v' h' => h' = h ∧ v.Shrinks v') E h v := by
  unfold freeIndirect
  simp only [Watcher.calm_bind, Watcher.calm_get]
  split
  · rename_i h0
    simp only [Watcher.calm_bind, Watcher.calm_tell, watch_alarm, waits_bread, watch_next]
    refine ⟨fun hm => ((ha hm.1).2 i).2 h0 hm.2, ?_⟩
    -- the free map is another buffer than the indirect block
    have hbit : strict → bitmapBlock ∉ (h.after (.bread ((v.inode i).addrs ndirect))).bufs :=
      fun hs hm => (List.mem_cons.mp hm).elim (fun he => ((ha hs).2 i).1 he.symm) (ha hs).1
    refine (Watcher.calm_upTo (I := fun v' h' =>
        h' = h.after (.bread ((v.inode i).addrs ndirect)) ∧ v'.inode = v.inode)
      (fun j v' h' hq => ?_) nindirect ⟨rfl, rfl⟩).mono (fun _ v₁ h₁ hq => ?_) fun _ _ h => h
    · obtain ⟨rfl, hin⟩ := hq
      unfold freeEntry
      simp only [Watcher.calm_bind, Watcher.calm_get]
      split
      · exact (calm_bfree hbit _).mono (fun _ _ _ h => ⟨h.1, h.2.trans hin⟩) fun _ _ h => h
      · exact Watcher.calm_pure.mpr ⟨rfl, hin⟩
    · obtain ⟨rfl, hin⟩ := hq
      simp only [waits_brelse, and_false, not_false_eq_true, true_and, bread_brelse]
      refine (Watcher.calm_bind.mp (calm_bfree_setAddr (fun hs => (ha hs).1) _ i ndirect)).mono
        (fun _ _ _ hq => ?_) fun _ _ h => h
      exact Watcher.calm_modify.mpr
        ⟨(Watcher.calm_modify.mp hq).1, (Vol.shrinks_of_inode hin).trans (Watcher.calm_modify.mp hq).2⟩
  · exact Watcher.calm_pure.mpr ⟨rfl, Vol.shrinks_of_inode rfl⟩

/-- **`itrunc` under locks**: it reads no block of data. -/
theorem calm_itrunc (ha : strict → h.Aside v) {i : Nat} (hib : strict → iblock i ∉ h.bufs) :
    (watch strict).calm (itrunc i) (fun _ v' h' => h' = h ∧ v.Shrinks v') E h v := by
  unfold itrunc
  refine (Watcher.calm_upTo (I := fun v' h' => h' = h ∧ v.Shrinks v')
    (fun k v' h' hq => ?_) ndirect ⟨rfl, Vol.shrinks_of_inode rfl⟩).bind fun _ v₁ h₁ hq => ?_
  · obtain ⟨rfl, hs'⟩ := hq
    unfold freeDirect
    simp only [Watcher.calm_bind, Watcher.calm_get]
    split
    · refine (calm_bfree_setAddr (fun hs => (ha hs).1) _ i k).mono (fun _ _ _ hq => ?_) fun _ _ h => h
      exact ⟨hq.1, hs'.trans hq.2⟩
    · exact Watcher.calm_pure.mpr ⟨rfl, hs'⟩
  · obtain ⟨rfl, hs₁⟩ := hq
    refine (calm_freeIndirect (fun hs => (ha hs).shrinks hs₁) i).bind fun _ v₂ h₂ hq => ?_
    obtain ⟨rfl, hs₂⟩ := hq
    simp only [Watcher.calm_bind, Watcher.calm_modify]
    refine (calm_iupdate hib).mono (fun _ v₃ h₃ hq => ?_) fun _ _ h => h
    obtain ⟨rfl, rfl⟩ := hq
    have hat : (v₂.setInode i { v₂.inode i with size := 0 }).at_ = v₂.at_ := Vol.at_setInode rfl
    exact ⟨rfl, (hs₁.trans hs₂).trans fun j => .inl (congrFun (congrFun hat j) .ind)⟩

/-! ## Reading below the end of a file -/

/-- What `bmap` locks on the way to a block that is there. -/
def Vol.walk (v : Vol) (i bn : Nat) : List BlockEv :=
  if bn < ndirect then []
  else [.bread ((v.inode i).addrs ndirect), .brelse ((v.inode i).addrs ndirect)]

theorem bmap_run {i bn : Nat} (hbn : bn < maxfile) (h0 : v.addr i bn ≠ 0) :
    bmap i bn v = .ret (v.addr i bn) v (v.walk i bn) := by
  unfold Vol.walk
  unfold Vol.addr at h0 ⊢
  by_cases hlt : bn < ndirect
  · simp only [if_pos hlt] at h0 ⊢
    simp [bmap, addrBlock, hlt, h0, bind, Prog.bind, Prog.get, pure, Prog.pure, Out.after]
  · simp only [if_neg hlt] at h0 ⊢
    by_cases hind : (v.inode i).addrs ndirect = 0
    · rw [if_pos hind] at h0
      exact absurd rfl h0
    · rw [if_neg hind] at h0
      have hmax : bn - ndirect < nindirect := by unfold maxfile at hbn; omega
      simp [bmap, addrBlock, entryBlock, hlt, hmax, hind, h0, bind, Prog.bind, Prog.get, pure,
        Prog.pure, Prog.tell, Out.after]

/-- The observations `w` give back what they take. As long as `C` holds of
what is held, they wait for a held buffer exactly if it is one of `S`. -/
structure Touches (C : Held → Prop) (S : Nat → Prop) (w : List BlockEv) : Prop where
  after : ∀ strict h, (watch strict).after h w = h
  alarms : ∀ strict h, C h → ((watch strict).Alarms h w ↔ strict ∧ ∃ b ∈ h.bufs, S b)

section
variable {C : Held → Prop} {S S' : Nat → Prop} {w w' : List BlockEv}

theorem Touches.nil : Touches C (fun _ => False) [] where
  after _ _ := rfl
  alarms _ _ _ := ⟨False.elim, fun ⟨_, _, _, hb⟩ => hb⟩

theorem Touches.append (h₁ : Touches C S w) (h₂ : Touches C S' w') :
    Touches C (fun b => S b ∨ S' b) (w ++ w') where
  after strict h := by rw [Watcher.after_append, h₁.after, h₂.after]
  alarms strict h hC := by
    rw [Watcher.alarms_append, h₁.after, h₁.alarms strict h hC, h₂.alarms strict h hC,
      ← and_or_left]
    simp only [and_or_left, exists_or]

theorem Touches.congr (h : Touches C S w) (hS : ∀ b, S b ↔ S' b) : Touches C S' w := by
  rwa [show S' = S from funext fun b => propext (hS b).symm]

end

/-- The bytes `[lo, hi)` of file `i` are read. -/
abbrev Reads (v : Vol) (i lo hi : Nat) : List BlockEv → Prop :=
  Touches (fun h => (v.inode i).addrs ndirect ∉ h.bufs)
    fun b => ∃ k, lo ≤ k ∧ k < hi ∧ v.addr i (k / 1024) = b

theorem Reads.nil (v : Vol) (i lo : Nat) : Reads v i lo lo [] :=
  Touches.nil.congr fun b => ⟨False.elim, fun ⟨k, h₁, h₂, _⟩ => by omega⟩

theorem Reads.append {i lo mid hi : Nat} {w w' : List BlockEv} (h₁ : Reads v i lo mid w)
    (h₂ : Reads v i mid hi w') (hle : lo ≤ mid) (hle' : mid ≤ hi) : Reads v i lo hi (w ++ w') := by
  refine (Touches.append h₁ h₂).congr fun b => ⟨?_, ?_⟩
  · rintro (⟨k, hk, hk', hm⟩ | ⟨k, hk, hk', hm⟩)
    · exact ⟨k, hk, by omega, hm⟩
    · exact ⟨k, by omega, hk', hm⟩
  · rintro ⟨k, hk, hk', hm⟩
    by_cases hmid : k < mid
    · exact .inl ⟨k, hk, hmid, hm⟩
    · exact .inr ⟨k, by omega, hk', hm⟩

/-- What one round of `readi` does. -/
def Vol.fetch (v : Vol) (i bn : Nat) : List BlockEv :=
  v.walk i bn ++ [.bread (v.addr i bn), .copy (v.addr i bn), .brelse (v.addr i bn)]

theorem Reads.fetch {i lo hi : Nat} (hlt : lo < hi) (hhi : hi ≤ (lo / 1024 + 1) * 1024) :
    Reads v i lo hi (v.fetch i (lo / 1024)) := by
  have hone : ∀ b, (∃ k, lo ≤ k ∧ k < hi ∧ v.addr i (k / 1024) = b) ↔ v.addr i (lo / 1024) = b := by
    refine fun b => ⟨fun ⟨k, hk, hk', hm⟩ => ?_, fun hm => ⟨lo, Nat.le_refl _, hlt, hm⟩⟩
    rwa [show k / 1024 = lo / 1024 by omega] at hm
  refine Touches.congr ⟨fun strict h => ?_, fun strict h hind => ?_⟩ fun b => (hone b).symm
  · unfold Vol.fetch Vol.walk
    split <;> simp
  · unfold Vol.fetch Vol.walk
    split <;> simp [hind]

theorem readiLoop_run {i base n : Nat} (hmap : v.Mapped i (base + n))
    (hn : base + n ≤ maxfileBytes) (fuel tot : Nat) (htot : tot ≤ n)
    (hfuel : tot < n → (base + tot) % 1024 + (n - tot) ≤ fuel * 1024) :
    ∃ w, readiLoop kernelCopy i n fuel tot (base + tot) v = .ret (some n) v w ∧
      Reads v i (base + tot) (base + n) w := by
  induction fuel generalizing tot with
  | zero =>
      obtain rfl : tot = n := by omega
      exact ⟨[], rfl, Reads.nil v i _⟩
  | succ fuel ih =>
      unfold readiLoop
      split
      · rename_i hlt
        have hfuel := hfuel hlt
        obtain ⟨m, hm⟩ : ∃ m, min (n - tot) (1024 - (base + tot) % 1024) = m := ⟨_, rfl⟩
        have h0 : v.addr i ((base + tot) / 1024) ≠ 0 := hmap _ (by omega)
        obtain ⟨w', hrun, hreads⟩ := ih (tot + m) (by omega) (by omega)
        rw [← Nat.add_assoc] at hrun
        have hfetch : Reads v i (base + tot) (base + (tot + m)) (v.fetch i ((base + tot) / 1024)) :=
          Reads.fetch (by omega) (by omega)
        refine ⟨_, ?_, Reads.append hfetch hreads (by omega) (by omega)⟩
        rw [Prog.bind_ret (bmap_run (div_lt_maxfile (by omega)) h0), if_neg h0]
        simp only [hm]
        simp [Vol.fetch, bind, Prog.bind, Prog.tell, kernelCopy, pure, Prog.pure, Out.after, hrun]
      · obtain rfl : tot = n := by omega
        exact ⟨[], rfl, Reads.nil v i _⟩

/-- The file of an inode, without its blocks. -/
def INode.file (ip : INode) : Inode := ⟨true, ip.size, ip.data, fun _ => true, true⟩

/-- **`readi` into the kernel** reads what there is below the end of the
file, and changes nothing. -/
theorem readi_run (hw : v.Wf) (i off n : Nat) :
    ∃ w, readi kernelCopy i off n v = .ret (some (Fs.readi (v.inode i).file off n)) v w ∧
      Reads v i off (off + Fs.readi (v.inode i).file off n) w := by
  have hsize := hw.size i
  have hget : (Prog.get : BProg Vol) v = .ret v v [] := rfl
  have hcount : Fs.readi (v.inode i).file off n =
      if (v.inode i).size < off ∨ (off + n) % 4294967296 < off then 0
      else if (v.inode i).size < off + n then (v.inode i).size - off else n :=
    if_congr (by rw [Bool.or_eq_true, decide_eq_true_iff, decide_eq_true_iff]; exact Iff.rfl) rfl rfl
  unfold readi
  rw [Prog.bind_ret hget, hcount]
  by_cases hbad : (v.inode i).size < off ∨ (off + n) % 4294967296 < off
  · rw [if_pos hbad, if_pos hbad]
    exact ⟨[], rfl, Reads.nil v i off⟩
  · rw [if_neg hbad, if_neg hbad]
    obtain ⟨c, hc⟩ : ∃ c, (if (v.inode i).size < off + n then (v.inode i).size - off else n) = c :=
      ⟨_, rfl⟩
    have hle : off + c ≤ (v.inode i).size := by
      rw [← hc]
      split <;> omega
    obtain ⟨w, hrun, hreads⟩ := readiLoop_run (hw.mapped hle) (by omega) (c / 1024 + 2) 0
      (Nat.zero_le c) (by omega)
    simp only [hc]
    exact ⟨w, by rw [show off = off + 0 from rfl, hrun]; rfl, hreads⟩

end

end OsSuite.Xv6
