import OsSuite.Lib.Prog
import OsSuite.Lib.Sole
import OsSuite.Xv6.Blocks

/-!
# Disk — what is in the blocks

The inode layer of `fs.c` with the contents of the blocks. `Blocks` gives
a file its own bytes; here a file has block numbers, and two files are
apart only as long as no block has two owners. The free map and the inode
table are kept by themselves (`used`, `dinode`), everything else is
bytes, and an indirect block is read as an array of block numbers.

Writes come from kernel memory (`user_src` 0), which cannot fail.
-/

namespace OsSuite.Xv6.Disk

/-! ## The state -/

/-- A block of `BSIZE` bytes, in the form it was last written in. -/
inductive Blk where
  | bytes (b : Fin 1024 → UInt8)
  | uints (a : Nat → Nat)

/-- Byte `k` of a block. -/
def Blk.byte : Blk → Fin 1024 → UInt8
  | .bytes b, k => b k
  | .uints a, k => UInt8.ofNat (a (k.val / 4) / 256 ^ (k.val % 4))

/-- Entry `j` of the block as an array of `uint`. -/
def Blk.uint : Blk → Nat → Nat
  | .bytes b, j => leWord (fun k => b ⟨k % 1024, Nat.mod_lt _ (by decide)⟩) (4 * j) 4
  | .uints a, j => a j

def Blk.setUint (c : Blk) (j a : Nat) : Blk := .uints (Function.update c.uint j a)

/-- `memset(bp->data, 0, BSIZE)` -/
def Blk.zero : Blk := .bytes fun _ => 0

/-- `memmove(bp->data + off, src, m)` -/
def Blk.patch (c : Blk) (off m : Nat) (src : Nat → UInt8) : Blk :=
  .bytes fun k => if off ≤ k.val ∧ k.val < off + m then src (k.val - off) else c.byte k

/-- The fields of an inode that are used here; `addrs[NDIRECT]` is the
indirect block. -/
structure Ino where
  size : Nat
  addrs : Fin 13 → Nat

structure State where
  /-- The free map. -/
  used : Nat → Bool
  blk : Nat → Blk
  /-- The inodes in memory. -/
  inode : Nat → Ino
  /-- The inodes on disk. -/
  dinode : Nat → Ino

namespace State

/-- Mark a block in the free map. -/
def mark (d : State) (b : Nat) : State := { d with used := Function.update d.used b true }

def setBlk (d : State) (b : Nat) (c : Blk) : State := { d with blk := Function.update d.blk b c }

def setInode (d : State) (i : Nat) (ip : Ino) : State :=
  { d with inode := Function.update d.inode i ip }

def setAddr (d : State) (i : Nat) (k : Fin 13) (a : Nat) : State :=
  d.setInode i { d.inode i with addrs := Function.update (d.inode i).addrs k a }

/-- The first block that is free in the map. -/
def firstFree (d : State) : Option Nat := (List.range fssize).find? fun b => !d.used b

end State

/-- There is nothing to observe. -/
abbrev DProg (α : Type) := Prog State Empty α

/-! ## The code -/

open Prog in
/-- `balloc(dev)`, with its `bzero`. -/
def balloc : DProg Nat := do
  let d ← get
  match d.firstFree with
  | none => pure 0
  | some b =>
      modify (·.mark b)
      modify (·.setBlk b .zero)
      pure b

open Prog in
/-- The block of `addrs[k]`, allocated if there is none: the direct case
of `bmap`, and its way to the indirect block. -/
def addrBlock (i : Nat) (k : Fin 13) : DProg Nat := do
  let d ← get
  if (d.inode i).addrs k = 0 then
    let a ← balloc
    if a = 0 then pure 0
    else
      modify (·.setAddr i k a)
      pure a
  else pure ((d.inode i).addrs k)

open Prog in
/-- The indirect case of `bmap`: entry `j` of the indirect block. -/
def entryBlock (ind j : Nat) : DProg Nat := do
  let d ← get
  if (d.blk ind).uint j = 0 then
    let a ← balloc
    if a = 0 then pure 0
    else
      modify fun d => d.setBlk ind ((d.blk ind).setUint j a)
      pure a
  else pure ((d.blk ind).uint j)

/-- `bmap(ip, bn)` -/
def bmap (i bn : Nat) : DProg Nat :=
  if h : bn < ndirect then addrBlock i ⟨bn, Nat.lt_succ_of_lt h⟩
  else if bn - ndirect < nindirect then do
    let ind ← addrBlock i 12
    if ind = 0 then pure 0 else entryBlock ind (bn - ndirect)
  else Prog.panic "bmap: out of range"

open Prog in
/-- The loop of `readi`, with what it has copied. Every round copies at
least one byte, so `n` rounds are enough. -/
def readiLoop (i n : Nat) : Nat → Nat → Nat → List UInt8 → DProg (List UInt8)
  | 0, _, _, got => pure got
  | fuel + 1, tot, off, got =>
      if tot < n then do
        let a ← bmap i (off / 1024)
        if a = 0 then pure got
        else
          let d ← get
          let m := min (n - tot) (1024 - off % 1024)
          let bytes := (List.range m).map fun k =>
            (d.blk a).byte ⟨(off + k) % 1024, Nat.mod_lt _ (by decide)⟩
          readiLoop i n fuel (tot + m) (off + m) (got ++ bytes)
      else pure got

open Prog in
/-- `readi(ip, 0, dst, off, n)`: what was copied to `dst`. -/
def readi (i off n : Nat) : DProg (List UInt8) := do
  let d ← get
  let size := (d.inode i).size
  if size < off ∨ (off + n) % 4294967296 < off then pure []
  else
    let n := if size < off + n then size - off else n
    readiLoop i n n 0 off []

open Prog in
/-- The loop of `writei`: `tot` and `off` at its end. -/
def writeiLoop (src : Nat → UInt8) (i n : Nat) : Nat → Nat → Nat → DProg (Nat × Nat)
  | 0, tot, off => pure (tot, off)
  | fuel + 1, tot, off =>
      if tot < n then do
        let a ← bmap i (off / 1024)
        if a = 0 then pure (tot, off)
        else
          let m := min (n - tot) (1024 - off % 1024)
          modify fun d => d.setBlk a ((d.blk a).patch (off % 1024) m fun k => src (tot + k))
          writeiLoop src i n fuel (tot + m) (off + m)
      else pure (tot, off)

open Prog in
/-- `iupdate(ip)` -/
def iupdate (i : Nat) : DProg Unit :=
  modify fun d => { d with dinode := Function.update d.dinode i (d.inode i) }

open Prog in
/-- `writei(ip, 0, src, off, n)`; `none` is `-1`. -/
def writei (src : Nat → UInt8) (i off n : Nat) : DProg (Option Nat) := do
  let d ← get
  if (d.inode i).size < off ∨ (off + n) % 4294967296 < off ∨ maxfileBytes < off + n then pure none
  else
    let r ← writeiLoop src i n n 0 off
    modify fun d =>
      if (d.inode i).size < r.2 then d.setInode i { d.inode i with size := r.2 } else d
    iupdate i
    pure (some r.1)

/-- `swap_write_page(p, slot, page)`, with the inode of `p->swap_file`. -/
def swapWritePage (swapFile : Option Nat) (slot : Nat) (page : Page) : DProg Int :=
  match swapFile with
  | none => pure (-1)
  | some i => do
      let r ← writei (fun k => page (pgoff k)) i (slot * 4096) 4096
      pure (if r = some 4096 then 0 else -1)

/-! ## Ownership -/

/-- Where an inode records a block: in `addrs`, or in its indirect
block. -/
inductive Ref where
  | addr (k : Fin 13)
  | entry (j : Fin 256)
  deriving DecidableEq

/-- Where data block `bn` is recorded. -/
def dataRef (bn : Nat) : Option Ref :=
  if h : bn < ndirect then some (.addr ⟨bn, Nat.lt_succ_of_lt h⟩)
  else if h : bn - ndirect < nindirect then some (.entry ⟨bn - ndirect, h⟩)
  else none

theorem dataRef_ne_ind {bn : Nat} : dataRef bn ≠ some (.addr 12) := by
  unfold dataRef
  split
  · rename_i h
    intro he
    have := congrArg Fin.val (Ref.addr.inj (Option.some.inj he))
    unfold ndirect at h
    simp only [Fin.isValue] at this
    omega
  · split <;> simp

theorem dataRef_inj {bn bn' : Nat} {r : Ref} (h : dataRef bn = some r) (h' : dataRef bn' = some r) :
    bn = bn' := by
  unfold dataRef at h h'
  split at h <;> split at h'
  · rw [← h'] at h
    simpa using h
  · split at h'
    · rw [← h'] at h
      simp at h
    · cases h'
  · split at h
    · rw [← h'] at h
      simp at h
    · cases h
  · split at h
    · split at h'
      · rw [← h'] at h
        have hval := congrArg Fin.val (Ref.entry.inj (Option.some.inj h))
        dsimp only at hval
        unfold ndirect at *
        omega
      · cases h'
    · cases h

namespace State

/-- The block that an inode records at a place, 0 if there is none. -/
def ref (d : State) : Nat × Ref → Nat
  | (i, .addr k) => (d.inode i).addrs k
  | (i, .entry j) =>
      if (d.inode i).addrs 12 = 0 then 0 else (d.blk ((d.inode i).addrs 12)).uint j

/-- A block outside the metadata area that is marked in the free map. -/
def InUse (d : State) (b : Nat) : Prop := d.used b = true ∧ bitmapBlock < b

/-- **Block ownership**: the blocks that inodes record are in use, and no
block is recorded twice. -/
def Owned (d : State) : Prop := Sole d.ref d.InUse

/-- The metadata area is marked in the free map. -/
def MetaMarked (d : State) : Prop := ∀ b, b ≤ bitmapBlock → d.used b = true

/-- Data block `bn` of a file, if it has one. -/
def content (d : State) (i bn : Nat) : Option Blk :=
  (dataRef bn).bind fun r => if d.ref (i, r) = 0 then none else some (d.blk (d.ref (i, r)))

/-- Byte `k` of a file. -/
def byteAt (d : State) (i k : Nat) : Option UInt8 :=
  (d.content i (k / 1024)).map fun c => c.byte ⟨k % 1024, Nat.mod_lt _ (by decide)⟩

end State

/-! ## Recording a block -/

section
variable {d d' : State} {i a : Nat} {r : Ref}

namespace State

/-- **`d'` is `d` with the free block `a` recorded at a place that had
none.** Besides `a`, only indirect blocks have changed. -/
structure Records (d : State) (i : Nat) (r : Ref) (a : Nat) (d' : State) : Prop where
  free : d.used a = false
  empty : d.ref (i, r) = 0
  ref : d'.ref = Function.update d.ref (i, r) a
  used : d'.used = Function.update d.used a true
  blk : ∀ b, b ≠ a → (∀ j, (d.inode j).addrs 12 ≠ b) → d'.blk b = d.blk b
  inode : ∀ j, j ≠ i → d'.inode j = d.inode j
  size : (d'.inode i).size = (d.inode i).size
  dinode : d'.dinode = d.dinode

theorem free_not_inUse (h : d.used a = false) : ¬ d.InUse a := fun hc => by
  rw [hc.1] at h
  cases h

theorem MetaMarked.area (h : d.MetaMarked) (hfree : d.used a = false) : bitmapBlock < a := by
  by_contra hle
  rw [h a (Nat.le_of_not_lt hle)] at hfree
  cases hfree

theorem Records.owned (h : d.Records i r a d') (ho : d.Owned) (hm : d.MetaMarked) : d'.Owned := by
  unfold Owned
  rw [h.ref]
  refine Sole.give ho (free_not_inUse h.free) (fun c hc => ⟨?_, hc.2⟩) ⟨?_, hm.area h.free⟩
  · rw [h.used, Function.update_apply, hc.1, ite_self]
  · rw [h.used, Function.update_self]

theorem Records.metaMarked (h : d.Records i r a d') (hm : d.MetaMarked) : d'.MetaMarked := by
  intro b hb
  rw [h.used, Function.update_apply, hm b hb, ite_self]

/-- The block that `balloc` hands out, marked and zeroed. -/
def take (d : State) (b : Nat) : State := (d.mark b).setBlk b .zero

/-- A free block is nobody's indirect block. -/
theorem Owned.ind_ne (ho : d.Owned) (hfree : d.used a = false) {j : Nat}
    (h0 : (d.inode j).addrs 12 ≠ 0) : (d.inode j).addrs 12 ≠ a :=
  Sole.ne_of_not ho (free_not_inUse hfree) (p := (j, .addr 12)) h0

theorem take_blk {b c : Nat} (h : c ≠ b) : (d.take b).blk c = d.blk c := Function.update_of_ne h ..

/-- Handing out a block changes no record. -/
theorem ref_take (ho : d.Owned) (hfree : d.used a = false) : (d.take a).ref = d.ref := by
  funext ⟨j, r⟩
  cases r with
  | addr k => rfl
  | entry k =>
      show (if (d.inode j).addrs 12 = 0 then 0 else ((d.take a).blk ((d.inode j).addrs 12)).uint k) =
        if (d.inode j).addrs 12 = 0 then 0 else (d.blk ((d.inode j).addrs 12)).uint k
      split
      · rfl
      · rename_i h0
        rw [take_blk (ho.ind_ne hfree h0)]

theorem Blk.uint_zero (j : Nat) : Blk.zero.uint j = 0 := by
  simp [Blk.zero, Blk.uint, leWord]

/-- `bmap` records a new block in the inode. -/
theorem records_addr (ho : d.Owned) (hfree : d.used a = false) {k : Fin 13}
    (h0 : (d.inode i).addrs k = 0) : d.Records i (.addr k) a ((d.take a).setAddr i k a) where
  free := hfree
  empty := h0
  ref := by
    rw [← ref_take ho hfree]
    funext ⟨j, r⟩
    by_cases hj : j = i
    · subst hj
      have haddrs : (((d.take a).setAddr j k a).inode j).addrs
          = Function.update (d.inode j).addrs k a := by
        simp [setAddr, setInode, take, mark, setBlk]
      cases r with
      | addr k' =>
          by_cases hk : k' = k
          · subst hk
            rw [Function.update_self]
            show (((d.take a).setAddr j k' a).inode j).addrs k' = a
            rw [haddrs, Function.update_self]
          · rw [Function.update_of_ne (by simpa using hk)]
            show (((d.take a).setAddr j k a).inode j).addrs k' = (d.inode j).addrs k'
            rw [haddrs, Function.update_of_ne hk]
      | entry e =>
          rw [Function.update_of_ne (by simp)]
          show (if (((d.take a).setAddr j k a).inode j).addrs 12 = 0 then 0
            else ((d.take a).blk ((((d.take a).setAddr j k a).inode j).addrs 12)).uint e) =
            if (d.inode j).addrs 12 = 0 then 0 else ((d.take a).blk ((d.inode j).addrs 12)).uint e
          rw [haddrs]
          by_cases hk : 12 = k
          · -- the new indirect block is zeroed
            subst hk
            rw [Function.update_self, if_pos h0]
            split
            · rfl
            · rw [show (d.take a).blk a = .zero from Function.update_self ..]
              exact Blk.uint_zero e
          · rw [Function.update_of_ne hk]
    · have hsame : ((d.take a).setAddr i k a).inode j = (d.take a).inode j :=
        Function.update_of_ne hj ..
      rw [Function.update_of_ne (by simp [hj])]
      cases r with
      | addr k' =>
          show (((d.take a).setAddr i k a).inode j).addrs k' = _
          rw [hsame]
          rfl
      | entry e =>
          show (if (((d.take a).setAddr i k a).inode j).addrs 12 = 0 then 0
            else ((d.take a).blk ((((d.take a).setAddr i k a).inode j).addrs 12)).uint e) = _
          rw [hsame]
          rfl
  used := rfl
  blk b hb _ := take_blk hb
  inode j hj := Function.update_of_ne hj ..
  size := by simp [setAddr, setInode, take, mark, setBlk]
  dinode := rfl

/-- `bmap` records a new block in the indirect block. -/
theorem records_entry (ho : d.Owned) (hfree : d.used a = false) {j : Fin 256} {ind : Nat}
    (hind : (d.inode i).addrs 12 = ind) (hne : ind ≠ 0) (h0 : (d.blk ind).uint j = 0) :
    d.Records i (.entry j) a
      ((d.take a).setBlk ind (((d.take a).blk ind).setUint j a)) where
  free := hfree
  empty := by
    show (if (d.inode i).addrs 12 = 0 then 0 else (d.blk ((d.inode i).addrs 12)).uint j) = 0
    rw [hind, if_neg hne]
    exact h0
  ref := by
    rw [← ref_take ho hfree]
    funext ⟨i', r⟩
    cases r with
    | addr k => rw [Function.update_of_ne (by simp)]; rfl
    | entry e =>
        by_cases hi : (d.inode i').addrs 12 = ind
        · -- the indirect block has one owner
          obtain rfl : i' = i := by
            have := Sole.apart ho (i', .addr 12) (i, .addr 12) (by rw [ref, hi]; exact hne)
              (hi.trans hind.symm)
            exact (Prod.mk.inj this).1
          have hset : (((d.take a).setBlk ind (((d.take a).blk ind).setUint j a)).blk ind)
              = ((d.take a).blk ind).setUint j a := Function.update_self ..
          show (if (d.inode i').addrs 12 = 0 then 0 else
            (((d.take a).setBlk ind (((d.take a).blk ind).setUint j a)).blk
              ((d.inode i').addrs 12)).uint e) = _
          rw [hi, if_neg hne, hset]
          by_cases he : e = j
          · subst he
            rw [Function.update_self]
            simp [Blk.setUint, Blk.uint]
          · rw [Function.update_of_ne (by simpa using he)]
            show _ = if (d.inode i').addrs 12 = 0 then 0
              else ((d.take a).blk ((d.inode i').addrs 12)).uint e
            rw [hi, if_neg hne]
            have : (e : Nat) ≠ j := fun h => he (Fin.ext h)
            simp [Blk.setUint, Blk.uint, Function.update_of_ne this]
        · have hii : i' ≠ i := fun h => hi (h ▸ hind)
          rw [Function.update_of_ne (by simp [hii])]
          show (if (d.inode i').addrs 12 = 0 then 0 else
            (((d.take a).setBlk ind (((d.take a).blk ind).setUint j a)).blk
              ((d.inode i').addrs 12)).uint e) =
            if (d.inode i').addrs 12 = 0 then 0 else ((d.take a).blk ((d.inode i').addrs 12)).uint e
          rw [show ((d.take a).setBlk ind (((d.take a).blk ind).setUint j a)).blk
            ((d.inode i').addrs 12) = (d.take a).blk ((d.inode i').addrs 12) from
            Function.update_of_ne hi ..]
  used := rfl
  blk b hb hno := (Function.update_of_ne (fun h => hno i (hind.trans h.symm)) ..).trans (take_blk hb)
  inode _ _ := rfl
  size := rfl
  dinode := rfl

end State

/-! ## One data block -/

namespace State

/-- The state is sound: blocks have one owner, and `balloc` hands out no
metadata block. -/
structure Sound (d : State) : Prop where
  owned : d.Owned
  marked : d.MetaMarked

/-- **Only data blocks in `S` of file `i` may differ**, and the state is
sound. -/
structure Only (d : State) (i : Nat) (S : Nat → Prop) (d' : State) : Prop where
  sound : d'.Sound
  content : ∀ j bn, (j = i → ¬ S bn) → d'.content j bn = d.content j bn
  inode : ∀ j, j ≠ i → d'.inode j = d.inode j
  size : (d'.inode i).size = (d.inode i).size
  dinode : d'.dinode = d.dinode

theorem Only.refl (h : d.Sound) (S : Nat → Prop) : d.Only i S d :=
  ⟨h, fun _ _ _ => rfl, fun _ _ => rfl, rfl, rfl⟩

theorem Only.mono {S T : Nat → Prop} (h : d.Only i S d') (hST : ∀ bn, S bn → T bn) :
    d.Only i T d' :=
  { h with content := fun j bn hj => h.content j bn fun he hS => hj he (hST bn hS) }

theorem Only.trans {d'' : State} {S : Nat → Prop} (h : d.Only i S d') (h' : d'.Only i S d'') :
    d.Only i S d'' :=
  ⟨h'.sound, fun j bn hj => (h'.content j bn hj).trans (h.content j bn hj),
    fun j hj => (h'.inode j hj).trans (h.inode j hj), h'.size.trans h.size, h'.dinode.trans h.dinode⟩

theorem content_of_ref {bn : Nat} (hr : dataRef bn = some r) :
    d.content i bn = if d.ref (i, r) = 0 then none else some (d.blk (d.ref (i, r))) := by
  rw [content, hr]
  rfl

/-- A data block is nobody's indirect block. -/
theorem Owned.data_ne_ind (ho : d.Owned) {bn : Nat} (hr : dataRef bn = some r)
    (h0 : d.ref (i, r) ≠ 0) (j : Nat) : (d.inode j).addrs 12 ≠ d.ref (i, r) := fun he => by
  have := Sole.apart ho (i, r) (j, .addr 12) h0 he.symm
  rw [(Prod.mk.inj this).2] at hr
  exact dataRef_ne_ind hr

/-- Recording a block changes the data block at that place only. -/
theorem Records.only (h : d.Records i r a d') (hs : d.Sound) :
    d.Only i (fun bn => dataRef bn = some r) d' where
  sound := ⟨h.owned hs.owned hs.marked, h.metaMarked hs.marked⟩
  content j bn hj := by
    cases hbn : dataRef bn with
    | none => rw [State.content, State.content, hbn]; rfl
    | some r' =>
        have hne : (j, r') ≠ (i, r) := fun he => by
          obtain ⟨rfl, rfl⟩ := Prod.mk.inj he
          exact hj rfl hbn
        rw [content_of_ref hbn, content_of_ref hbn, h.ref, Function.update_of_ne hne]
        split
        · rfl
        · rename_i h0
          rw [h.blk _ (Sole.ne_of_not hs.owned (free_not_inUse h.free) h0)
            (hs.owned.data_ne_ind hbn h0)]
  inode := h.inode
  size := h.size
  dinode := h.dinode

/-- A block that is nobody's indirect block holds no records. -/
theorem ref_setBlk {c : Blk} (h : ∀ j, (d.inode j).addrs 12 ≠ a) : (d.setBlk a c).ref = d.ref := by
  funext ⟨j, r⟩
  cases r with
  | addr k => rfl
  | entry e =>
      show (if (d.inode j).addrs 12 = 0 then 0
        else ((d.setBlk a c).blk ((d.inode j).addrs 12)).uint e) = _
      rw [show (d.setBlk a c).blk ((d.inode j).addrs 12) = d.blk ((d.inode j).addrs 12) from
        Function.update_of_ne (h j) ..]
      rfl

/-- **Writing a data block** changes that block of that file. -/
theorem only_setBlk (hs : d.Sound) {bn : Nat} (hr : dataRef bn = some r) (h0 : d.ref (i, r) ≠ 0)
    (c : Blk) : d.Only i (· = bn) (d.setBlk (d.ref (i, r)) c) ∧
      (d.setBlk (d.ref (i, r)) c).content i bn = some c := by
  have href := ref_setBlk (c := c) (hs.owned.data_ne_ind hr h0)
  refine ⟨⟨⟨?_, hs.marked⟩, fun j bn' hj => ?_, fun _ _ => rfl, rfl, rfl⟩, ?_⟩
  · unfold Owned
    rw [href]
    exact hs.owned
  · cases hbn : dataRef bn' with
    | none => rw [State.content, State.content, hbn]; rfl
    | some r' =>
        rw [content_of_ref hbn, content_of_ref hbn, href]
        split
        · rfl
        · rename_i h0'
          have hne : (j, r') ≠ (i, r) := fun he => by
            obtain ⟨rfl, rfl⟩ := Prod.mk.inj he
            exact hj rfl (dataRef_inj hbn hr)
          rw [show (d.setBlk (d.ref (i, r)) c).blk (d.ref (j, r')) = d.blk (d.ref (j, r')) from
            Function.update_of_ne (Sole.ne_of_ne hs.owned hne h0') ..]
  · rw [content_of_ref hr, href, if_neg h0]
    exact congrArg some (Function.update_self ..)

end State

/-! ## The code keeps to it -/

variable {A : Empty → Prop} {bn : Nat}

/-- **`balloc`** hands out a free block, never block 0. -/
theorem balloc_spec (hm : d.MetaMarked) : wp A balloc ⟨fun a d' => (a = 0 ∧ d' = d) ∨
      (a ≠ 0 ∧ d.used a = false ∧ d' = d.take a), fun _ => False, fun _ => False⟩ d := by
  unfold balloc
  rw [wp_get_bind]
  split
  · exact wp_pure.mpr (.inl ⟨rfl, rfl⟩)
  · rename_i b hb
    have hfree : d.used b = false := by simpa using List.find?_some hb
    have harea := hm.area hfree
    rw [wp_modify_bind, wp_modify_bind]
    exact wp_pure.mpr (.inr ⟨by omega, hfree, rfl⟩)

/-- What finding or allocating the block at a place can do. -/
inductive Finds (d : State) (i : Nat) (r : Ref) : Nat → State → Prop where
  /-- The disk is full. -/
  | full (hempty : d.ref (i, r) = 0) : Finds d i r 0 d
  | there (h0 : d.ref (i, r) ≠ 0) : Finds d i r (d.ref (i, r)) d
  | new {a : Nat} {d' : State} (h0 : a ≠ 0) (h : d.Records i r a d') : Finds d i r a d'

theorem Finds.only (h : Finds d i r a d') (hs : d.Sound) :
    d.Only i (fun bn => dataRef bn = some r) d' := by
  cases h with
  | full _ => exact .refl hs _
  | there _ => exact .refl hs _
  | new _ h => exact h.only hs

theorem Finds.ref_eq (h : Finds d i r a d') (h0 : a ≠ 0) : d'.ref (i, r) = a := by
  cases h with
  | full _ => exact absurd rfl h0
  | there _ => rfl
  | new _ h => rw [h.ref, Function.update_self]

theorem Finds.same (h : Finds d i r a d') (h0 : d.ref (i, r) ≠ 0) : a = d.ref (i, r) ∧ d' = d := by
  cases h with
  | full he => exact absurd he h0
  | there _ => exact ⟨rfl, rfl⟩
  | new _ h => exact absurd h.empty h0

theorem addrBlock_spec (hs : d.Sound) (i : Nat) (k : Fin 13) :
    wp A (addrBlock i k) ⟨Finds d i (.addr k), fun _ => False, fun _ => False⟩ d := by
  unfold addrBlock
  rw [wp_get_bind]
  split
  · rename_i h0
    refine (balloc_spec hs.marked).bind fun a d₁ hd₁ => ?_
    rcases hd₁ with ⟨rfl, rfl⟩ | ⟨ha, hfree, rfl⟩
    · exact wp_pure.mpr (.full h0)
    · rw [if_neg ha, wp_modify_bind]
      exact wp_pure.mpr (.new ha (State.records_addr hs.owned hfree h0))
  · rename_i h0
    exact wp_pure.mpr (.there h0)

theorem entryBlock_spec (hs : d.Sound) {ind : Nat} (hind : (d.inode i).addrs 12 = ind)
    (hne : ind ≠ 0) (j : Fin 256) :
    wp A (entryBlock ind j) ⟨Finds d i (.entry j), fun _ => False, fun _ => False⟩ d := by
  have href : d.ref (i, .entry j) = (d.blk ind).uint j := by
    show (if (d.inode i).addrs 12 = 0 then 0 else (d.blk ((d.inode i).addrs 12)).uint j) = _
    rw [hind, if_neg hne]
  unfold entryBlock
  rw [wp_get_bind, ← href]
  split
  · rename_i h0
    refine (balloc_spec hs.marked).bind fun a d₁ hd₁ => ?_
    rcases hd₁ with ⟨rfl, rfl⟩ | ⟨ha, hfree, rfl⟩
    · exact wp_pure.mpr (.full h0)
    · rw [if_neg ha, wp_modify_bind]
      exact wp_pure.mpr (.new ha (State.records_entry hs.owned hfree hind hne (href ▸ h0)))
  · rename_i h0
    exact wp_pure.mpr (.there h0)

/-- **`bmap`** finds data block `bn` of file `i` or makes one; no other
data block changes. -/
theorem bmap_spec (hs : d.Sound) (hbn : bn < ndirect + nindirect) :
    wp A (bmap i bn) ⟨fun a d' => ∃ r, dataRef bn = some r ∧ d.Only i (· = bn) d' ∧
        (a ≠ 0 → d'.ref (i, r) = a) ∧ (d.content i bn ≠ none → a ≠ 0 ∧ d' = d),
      fun _ => False, fun _ => False⟩ d := by
  have hthere : ∀ {r}, dataRef bn = some r → d.content i bn ≠ none → d.ref (i, r) ≠ 0 := by
    intro r hr hc h0
    rw [State.content_of_ref hr, if_pos h0] at hc
    exact hc rfl
  have hone : ∀ {r bn'}, dataRef bn = some r → dataRef bn' = some r → bn' = bn :=
    fun h h' => dataRef_inj h' h
  unfold bmap
  split
  · rename_i h
    have hr : dataRef bn = some (.addr ⟨bn, Nat.lt_succ_of_lt h⟩) := dif_pos h
    refine (addrBlock_spec hs i _).weaken fun a d' hf => ?_
    refine ⟨_, hr, (hf.only hs).mono fun _ => hone hr, hf.ref_eq, fun hc => ?_⟩
    obtain ⟨rfl, rfl⟩ := hf.same (hthere hr hc)
    exact ⟨hthere hr hc, rfl⟩
  · rename_i h
    have hj : bn - ndirect < nindirect := by omega
    have hr : dataRef bn = some (.entry ⟨bn - ndirect, hj⟩) := by
      rw [dataRef, dif_neg h, dif_pos hj]
    rw [if_pos hj]
    refine (addrBlock_spec hs i 12).bind fun ind d₁ hf₁ => ?_
    have honly₁ : d.Only i (· = bn) d₁ := (hf₁.only hs).mono fun _ he => absurd he dataRef_ne_ind
    -- a file that has the data block has the indirect block
    have hind : d.content i bn ≠ none → ind ≠ 0 ∧ d₁ = d := fun hc => by
      have h0 := hthere hr hc
      have hne : d.ref (i, .addr 12) ≠ 0 := fun he => h0 (if_pos he)
      obtain ⟨rfl, rfl⟩ := hf₁.same hne
      exact ⟨hne, rfl⟩
    split
    · rename_i h0
      subst h0
      exact wp_pure.mpr ⟨_, hr, honly₁, fun h => absurd rfl h, fun hc => absurd rfl (hind hc).1⟩
    · rename_i h0
      refine (entryBlock_spec honly₁.sound (hf₁.ref_eq h0) h0 ⟨_, hj⟩).weaken fun a d₂ hf₂ => ?_
      refine ⟨_, hr, honly₁.trans ((hf₂.only honly₁.sound).mono fun _ => hone hr), hf₂.ref_eq,
        fun hc => ?_⟩
      obtain ⟨-, rfl⟩ := hind hc
      obtain ⟨rfl, rfl⟩ := hf₂.same (hthere hr hc)
      exact ⟨hthere hr hc, rfl⟩

/-! ## `writei` -/

variable {src : Nat → UInt8} {n fuel tot off : Nat}

theorem State.byteAt_of_content {c : Blk} {k : Nat} (h : d.content i (k / 1024) = some c) :
    d.byteAt i k = some (c.byte ⟨k % 1024, Nat.mod_lt _ (by decide)⟩) := by
  rw [byteAt, h]
  rfl

/-- The bytes that `memmove` puts into a block. -/
theorem Blk.byte_patch {c : Blk} {o m : Nat} {f : Nat → UInt8} {k : Fin 1024} (h₁ : o ≤ k.val)
    (h₂ : k.val < o + m) : (c.patch o m f).byte k = f (k.val - o) := if_pos ⟨h₁, h₂⟩

/-- The data blocks that are left to write. -/
def Left (n tot off bn : Nat) : Prop :=
  tot < n ∧ off / 1024 ≤ bn ∧ bn * 1024 < off + (n - tot)

/-- **The loop of `writei`** writes a part of its source, to data blocks
of its range. -/
theorem writeiLoop_spec (hs : d.Sound) (hoff : off + (n - tot) ≤ maxfileBytes)
    (hfuel : n - tot ≤ fuel) (htot : tot ≤ n) :
    wp A (writeiLoop src i n fuel tot off) ⟨fun r d' => ∃ m, r = (tot + m, off + m) ∧ tot + m ≤ n ∧
        d.Only i (Left n tot off) d' ∧
        ∀ k, k < m → d'.byteAt i (off + k) = some (src (tot + k)),
      fun _ => False, fun _ => False⟩ d := by
  have hstop : ∀ {d d' : State} {n tot off}, tot ≤ n → d.Only i (Left n tot off) d' → ∃ m,
      (tot, off) = (tot + m, off + m) ∧ tot + m ≤ n ∧ d.Only i (Left n tot off) d' ∧
        ∀ k, k < m → d'.byteAt i (off + k) = some (src (tot + k)) :=
    fun ht h => ⟨0, rfl, ht, h, nofun⟩
  induction fuel generalizing d tot off with
  | zero => exact wp_pure.mpr (hstop htot (.refl hs _))
  | succ fuel ih =>
      rw [writeiLoop]
      rcases Nat.lt_or_ge tot n with hlt | hge
      case inr =>
        rw [if_neg (Nat.not_lt.mpr hge)]
        exact wp_pure.mpr (hstop htot (.refl hs _))
      rw [if_pos hlt]
      have hbn : off / 1024 < ndirect + nindirect := by
        unfold maxfileBytes at hoff
        unfold ndirect nindirect
        omega
      refine (bmap_spec hs hbn).bind fun a d₁ hd₁ => ?_
      obtain ⟨r, hr, honly₁, href, -⟩ := hd₁
      have hfirst : ∀ bn, bn = off / 1024 → Left n tot off bn := fun bn hb => by
        unfold Left
        omega
      have honly₁' := honly₁.mono hfirst
      split
      · exact wp_pure.mpr (hstop htot honly₁')
      rename_i ha
      obtain rfl := href ha
      rw [wp_modify_bind]
      generalize hm : min (n - tot) (1024 - off % 1024) = m
      obtain ⟨honly₂, hput⟩ := State.only_setBlk honly₁.sound hr ha
        ((d₁.blk (d₁.ref (i, r))).patch (off % 1024) m fun k => src (tot + k))
      refine (ih honly₂.sound (by omega) (by omega) (by omega)).weaken fun r' d₃ hd₃ => ?_
      obtain ⟨m', rfl, hle, honly₃, hbytes⟩ := hd₃
      have hrest : ∀ bn, Left n (tot + m) (off + m) bn → Left n tot off bn ∧ bn ≠ off / 1024 := by
        unfold Left
        omega
      refine ⟨m + m', by rw [Nat.add_assoc, Nat.add_assoc], by omega, ?_, fun k hk => ?_⟩
      · exact (honly₁'.trans (honly₂.mono hfirst)).trans (honly₃.mono fun bn hbn => (hrest bn hbn).1)
      · by_cases hkm : k < m
        · -- this round's block is not written again
          have hdiv : (off + k) / 1024 = off / 1024 := by omega
          have hmod : (off + k) % 1024 = off % 1024 + k := by omega
          have hcont := (honly₃.content i (off / 1024) fun _ hc => (hrest _ hc).2 rfl).trans hput
          rw [← hdiv] at hcont
          rw [State.byteAt_of_content hcont, Blk.byte_patch (by dsimp only; omega)
            (by dsimp only; omega)]
          dsimp only
          rw [hmod, Nat.add_sub_cancel_left]
        · have := hbytes (k - m) (by omega)
          rwa [show off + m + (k - m) = off + k by omega,
            show tot + m + (k - m) = tot + k by omega] at this

/-- What `writei` leaves of a file system: the blocks of its range and
the inode may have changed. -/
structure Wrote (d : State) (i : Nat) (S : Nat → Prop) (d' : State) : Prop where
  sound : d'.Sound
  content : ∀ j bn, (j = i → ¬ S bn) → d'.content j bn = d.content j bn
  inode : ∀ j, j ≠ i → d'.inode j = d.inode j
  dinode : ∀ j, j ≠ i → d'.dinode j = d.dinode j
  size : (d.inode i).size ≤ (d'.inode i).size

/-- The new size and `iupdate` touch no block. -/
theorem State.Only.finish {S : Nat → Prop} (h : d.Only i S d') (e : Nat) :
    let d₁ := if (d'.inode i).size < e then d'.setInode i { d'.inode i with size := e } else d'
    let d₂ : State := { d₁ with dinode := Function.update d₁.dinode i (d₁.inode i) }
    Wrote d i S d₂ ∧ d₂.content = d'.content ∧ e ≤ (d₂.inode i).size := by
  intro d₁ d₂
  have haddrs : ∀ j, (d₁.inode j).addrs = (d'.inode j).addrs := by
    intro j
    simp only [d₁]
    split
    · by_cases hj : j = i
      · subst hj
        simp [setInode]
      · simp [setInode, hj]
    · rfl
  have hblk : d₁.blk = d'.blk := by
    simp only [d₁]
    split <;> rfl
  have hused : d₁.used = d'.used := by
    simp only [d₁]
    split <;> rfl
  have href : d₂.ref = d'.ref := by
    funext ⟨j, r⟩
    cases r with
    | addr k => exact congrFun (haddrs j) k
    | entry e =>
        show (if (d₁.inode j).addrs 12 = 0 then 0 else (d₁.blk ((d₁.inode j).addrs 12)).uint e) = _
        rw [haddrs, hblk]
        rfl
  have hcont : d₂.content = d'.content := by
    funext j bn
    show ((dataRef bn).bind fun r =>
      if d₂.ref (j, r) = 0 then none else some (d₁.blk (d₂.ref (j, r)))) = _
    rw [href, hblk]
    rfl
  have hsize : e ≤ (d₁.inode i).size ∧ (d'.inode i).size ≤ (d₁.inode i).size := by
    simp only [d₁]
    split
    · simp only [setInode, Function.update_self]
      omega
    · omega
  refine ⟨⟨⟨?_, ?_⟩, ?_, ?_, ?_, ?_⟩, hcont, hsize.1⟩
  · have ho := h.sound.owned
    unfold Owned InUse at ho ⊢
    rw [href, show d₂.used = d'.used from hused]
    exact ho
  · intro b hb
    show d₁.used b = true
    rw [hused]
    exact h.sound.marked b hb
  · intro j bn hj
    rw [hcont]
    exact h.content j bn hj
  · intro j hj
    show d₁.inode j = _
    rw [← h.inode j hj]
    simp only [d₁]
    split
    · exact Function.update_of_ne hj ..
    · rfl
  · intro j hj
    have hd : d₁.dinode = d.dinode := by
      rw [← h.dinode]
      simp only [d₁]
      split <;> rfl
    show Function.update d₁.dinode i (d₁.inode i) j = _
    rw [Function.update_of_ne hj, hd]
  · rw [← h.size]
    exact hsize.2

/-- **`writei`** from kernel memory, at an offset inside the file. -/
theorem writei_spec (hs : d.Sound) (hoff : off ≤ (d.inode i).size)
    (hmax : off + n ≤ maxfileBytes) :
    wp A (writei src i off n) ⟨fun r d' => ∃ m, r = some m ∧ m ≤ n ∧ Wrote d i (Left n 0 off) d' ∧
        off + m ≤ (d'.inode i).size ∧ ∀ k, k < m → d'.byteAt i (off + k) = some (src k),
      fun _ => False, fun _ => False⟩ d := by
  unfold writei
  rw [wp_get_bind, if_neg (by unfold maxfileBytes at *; omega)]
  refine (writeiLoop_spec hs (by omega) (by omega) (Nat.zero_le n)).bind fun r d₁ hd₁ => ?_
  obtain ⟨m, rfl, hle, honly, hbytes⟩ := hd₁
  obtain ⟨hwrote, hcont, hsize⟩ := honly.finish (off + m)
  rw [wp_modify_bind, iupdate, wp_modify_bind]
  refine wp_pure.mpr ⟨m, by rw [Nat.zero_add], by omega, hwrote, hsize, fun k hk => ?_⟩
  have := hbytes k hk
  rw [Nat.zero_add] at this
  rw [← this]
  unfold State.byteAt
  exact congrArg (Option.map _) (congrFun (congrFun hcont i) _)

/-! ## `readi` -/

/-- **The loop of `readi`** over bytes that are there. -/
theorem readiLoop_spec {f : Nat → UInt8} {got : List UInt8} (hs : d.Sound)
    (hoff : off + (n - tot) ≤ maxfileBytes) (hfuel : n - tot ≤ fuel)
    (hf : ∀ k, k < n - tot → d.byteAt i (off + k) = some (f (tot + k))) :
    wp A (readiLoop i n fuel tot off got) ⟨fun r d' => d' = d ∧
        r = got ++ (List.range (n - tot)).map fun k => f (tot + k),
      fun _ => False, fun _ => False⟩ d := by
  have hend : ∀ {tot : Nat} {got : List UInt8}, n - tot = 0 →
      got = got ++ (List.range (n - tot)).map fun k => f (tot + k) := fun h => by
    rw [h, List.range_zero, List.map_nil, List.append_nil]
  induction fuel generalizing tot off got with
  | zero => exact wp_pure.mpr ⟨rfl, hend (by omega)⟩
  | succ fuel ih =>
      rw [readiLoop]
      rcases Nat.lt_or_ge tot n with hlt | hge
      case inr =>
        rw [if_neg (Nat.not_lt.mpr hge)]
        exact wp_pure.mpr ⟨rfl, hend (by omega)⟩
      rw [if_pos hlt]
      have hbn : off / 1024 < ndirect + nindirect := by
        unfold maxfileBytes at hoff
        unfold ndirect nindirect
        omega
      refine (bmap_spec hs hbn).bind fun a d₁ hd₁ => ?_
      obtain ⟨r, hr, -, href, hthere⟩ := hd₁
      obtain ⟨c, hc, -⟩ := Option.map_eq_some_iff.mp (hf 0 (by omega))
      rw [Nat.add_zero] at hc
      obtain ⟨ha, rfl⟩ := hthere (by rw [hc]; exact Option.some_ne_none c)
      obtain rfl := href ha
      have hblk : d₁.blk (d₁.ref (i, r)) = c := by
        rw [State.content_of_ref hr, if_neg ha] at hc
        exact Option.some.inj hc
      rw [if_neg ha, wp_get_bind]
      generalize hm : min (n - tot) (1024 - off % 1024) = m
      dsimp only
      have hbytes : (List.range m).map (fun k =>
          (d₁.blk (d₁.ref (i, r))).byte ⟨(off + k) % 1024, Nat.mod_lt _ (by decide)⟩) =
          (List.range m).map fun k => f (tot + k) := by
        refine List.map_congr_left fun k hk => ?_
        rw [List.mem_range] at hk
        have hdiv : (off + k) / 1024 = off / 1024 := by omega
        have hb := hf k (by omega)
        rw [State.byteAt_of_content (hdiv ▸ hc)] at hb
        rw [hblk]
        exact Option.some.inj hb
      rw [hbytes]
      refine (ih (by omega) (by omega) fun k hk => ?_).weaken fun r' d' hd' => ⟨hd'.1, ?_⟩
      · rw [show off + m + k = off + (m + k) by omega, show tot + m + k = tot + (m + k) by omega]
        exact hf (m + k) (by omega)
      · have hsplit : n - tot = m + (n - (tot + m)) := by omega
        rw [hd'.2, hsplit, List.range_add, List.map_append, List.map_map, List.append_assoc]
        refine congrArg _ (congrArg _ (List.map_congr_left fun k _ => ?_))
        show f (tot + m + k) = f (tot + (m + k))
        rw [Nat.add_assoc]

/-- **`readi`** of bytes that are there. -/
theorem readi_spec {f : Nat → UInt8} (hs : d.Sound) (hsize : off + n ≤ (d.inode i).size)
    (hmax : off + n ≤ maxfileBytes) (hf : ∀ k, k < n → d.byteAt i (off + k) = some (f k)) :
    wp A (readi i off n) ⟨fun r d' => d' = d ∧ r = (List.range n).map f,
      fun _ => False, fun _ => False⟩ d := by
  unfold readi
  rw [wp_get_bind]
  dsimp only
  rw [if_neg (by unfold maxfileBytes at *; omega), if_neg (by omega)]
  refine (readiLoop_spec hs (by omega) (by omega) (f := f) fun k hk => ?_).weaken ?_
  · rw [Nat.zero_add]
    exact hf k hk
  · rintro r d' ⟨rfl, rfl⟩
    refine ⟨rfl, ?_⟩
    simp only [List.nil_append, Nat.sub_zero, Nat.zero_add]

/-! ## Swap slots -/

/-- `MAX_SWAP_PAGES` -/
def maxSwapSlots : Nat := 60

/-- Every other inode is as it was, with all its bytes. -/
structure OthersKept (d : State) (i : Nat) (d' : State) : Prop where
  inode : ∀ j, j ≠ i → d'.inode j = d.inode j
  dinode : ∀ j, j ≠ i → d'.dinode j = d.dinode j
  byteAt : ∀ j k, j ≠ i → d'.byteAt j k = d.byteAt j k

/-- The bytes of every other slot are as they were, and what was inside
the file still is. -/
structure SlotsKept (d : State) (i s : Nat) (d' : State) : Prop where
  size : (d.inode i).size ≤ (d'.inode i).size
  byteAt : ∀ k, k / 4096 ≠ s → d'.byteAt i k = d.byteAt i k

/-- The bytes of a page, in order. -/
theorem page_bytes (page : Page) : (List.range 4096).map (fun k => page (pgoff k)) = List.ofFn page := by
  refine List.ext_getElem ?_ fun k h₁ h₂ => ?_
  · rw [List.length_map, List.length_range, List.length_ofFn]
  · rw [List.length_map, List.length_range] at h₁
    rw [List.getElem_map, List.getElem_range, List.getElem_ofFn]
    exact congrArg page (Fin.ext (Nat.mod_eq_of_lt h₁))

theorem slot_fits {s : Nat} (h : s < maxSwapSlots) : s * 4096 + 4096 ≤ maxfileBytes := by
  unfold maxSwapSlots at h
  unfold maxfileBytes
  omega

/-- **Swap slots are isolated.** Where blocks have one owner and the
metadata area is marked in the free map, `swap_write_page` to any slot at
or below the end of the file returns 0 or -1; the other slots and the
other files keep their bytes, blocks still have one owner, and after a 0
the page is read back. -/
theorem swap_slots_isolated {s : Nat} (ho : d.Owned) (hm : d.MetaMarked) (hslot : s < maxSwapSlots)
    (hsize : s * 4096 ≤ (d.inode i).size) (page : Page) :
    ∃ r d' w, swapWritePage (some i) s page d = .ret r d' w ∧ (r = 0 ∨ r = -1) ∧
      (r = 0 → ∃ w', readi i (s * 4096) 4096 d' = .ret (List.ofFn page) d' w') ∧
      SlotsKept d i s d' ∧ OthersKept d i d' ∧ d'.Owned ∧ d'.MetaMarked := by
  have hmax := slot_fits hslot
  have hwrite : wp (fun _ => True) (swapWritePage (some i) s page) ⟨fun r d' =>
      (r = 0 ∨ r = -1) ∧ Wrote d i (Left 4096 0 (s * 4096)) d' ∧
        (r = 0 → s * 4096 + 4096 ≤ (d'.inode i).size ∧
          ∀ k, k < 4096 → d'.byteAt i (s * 4096 + k) = some (page (pgoff k))),
      fun _ => False, fun _ => False⟩ d := by
    unfold swapWritePage
    refine (writei_spec ⟨ho, hm⟩ hsize hmax).bind fun r d₁ hd₁ => ?_
    obtain ⟨m, rfl, hle, hwrote, hend, hbytes⟩ := hd₁
    refine wp_pure.mpr ?_
    by_cases hfull : m = 4096
    · subst hfull
      exact ⟨.inl (if_pos rfl), hwrote, fun _ => ⟨hend, hbytes⟩⟩
    · rw [if_neg fun he => hfull (Option.some.inj he)]
      exact ⟨.inr rfl, hwrote, fun h => absurd h (by decide)⟩
  obtain ⟨r, d', w, hrun, hr, hwrote, hdone⟩ := wp.exists_ret hwrite
  refine ⟨r, d', w, hrun, hr, fun h0 => ?_, ⟨hwrote.size, fun k hk => ?_⟩,
    ⟨hwrote.inode, hwrote.dinode, fun j k hj => ?_⟩, hwrote.sound.owned, hwrote.sound.marked⟩
  · obtain ⟨hend, hbytes⟩ := hdone h0
    obtain ⟨l, d'', w', hread, hd, hl⟩ :=
      wp.exists_ret (readi_spec (n := 4096) (f := fun k => page (pgoff k)) hwrote.sound hend hmax
        hbytes)
    exact ⟨w', by rw [hread, hd, hl, page_bytes]⟩
  · unfold State.byteAt
    rw [hwrote.content i (k / 1024) fun _ hl => by unfold Left at hl; omega]
  · unfold State.byteAt
    rw [hwrote.content j (k / 1024) fun he => absurd he hj]

end

/-- A disk without files, on which the first `n` blocks are marked. -/
def emptyDisk (n : Nat) : State where
  used b := decide (b < n)
  blk _ := .zero
  inode _ := ⟨0, fun _ => 0⟩
  dinode _ := ⟨0, fun _ => 0⟩

theorem owned_emptyDisk (n : Nat) : (emptyDisk n).Owned := by
  have hnone : ∀ p, (emptyDisk n).ref p = 0 := by
    rintro ⟨i, k | j⟩ <;> rfl
  exact ⟨fun p h => absurd (hnone p) h, fun p _ h => absurd (hnone p) h⟩

/-- The first page that goes to a new swap file. -/
theorem swap_slots_isolated_first :
    (emptyDisk 47).Owned ∧ (emptyDisk 47).MetaMarked ∧
      ∃ d' w w', swapWritePage (some 2) 0 (fun _ => 7) (emptyDisk 47) = .ret 0 d' w ∧
        readi 2 0 4096 d' = .ret (List.ofFn fun _ : Fin 4096 => (7 : UInt8)) d' w' := by
  have hm : (emptyDisk 47).MetaMarked := fun b hb => decide_eq_true (Nat.lt_succ_of_le hb)
  obtain ⟨r, d', w, hrun, -, hread, -⟩ := swap_slots_isolated (owned_emptyDisk 47) hm
    (i := 2) (s := 0) (by decide) (by decide) fun _ => 7
  have hzero : (swapWritePage (some 2) 0 (fun _ => 7) (emptyDisk 47)).returns 0 = true := by
    decide +kernel
  obtain ⟨d'', w'', hrun'⟩ := Out.of_returns hzero
  rw [hrun] at hrun'
  obtain rfl : r = 0 := (Out.ret.inj hrun').1
  obtain ⟨w', hr⟩ := hread rfl
  rw [Nat.zero_mul] at hr
  exact ⟨owned_emptyDisk 47, hm, d', w, w', hrun, hr⟩

/-- **Unmarked metadata is handed out**: no block of the disk is recorded
anywhere, but the super block is free in the map, and it becomes the
first block of the swap file. -/
theorem swap_write_takes_metadata :
    (emptyDisk 1).Owned ∧ ∃ d' w, swapWritePage (some 2) 0 (fun _ => 7) (emptyDisk 1) = .ret 0 d' w ∧
      d'.ref (2, .addr 0) = 1 ∧ ¬ d'.Owned := by
  have hrun : (swapWritePage (some 2) 0 (fun _ => 7) (emptyDisk 1)).passes (fun r d' _ =>
      decide (r = 0 ∧ d'.ref (2, .addr 0) = 1)) = true := by decide +kernel
  obtain ⟨r, d', w, hret, hr⟩ := Out.of_passes hrun
  obtain ⟨rfl, href⟩ := of_decide_eq_true hr
  refine ⟨owned_emptyDisk 1, d', w, hret, href, fun ho => ?_⟩
  have harea := (Sole.sound ho (2, .addr 0) (by rw [href]; decide)).2
  rw [href] at harea
  exact absurd harea (by decide)

end OsSuite.Xv6.Disk
