import OsSuite.Xv6.Fs

/-!
# Files — facts about swap files

What `writei` does to a file when it is called for one page at a page
boundary, and that different processes have different swap files as long
as their names fit into a directory entry.
-/

namespace OsSuite.Xv6

namespace Fs

/-- The difference is in the bytes `lo .. hi` of one file, and in blocks. -/
structure Wrote (ino lo hi : Nat) (fs fs' : Fs) : Prop where
  other : ∀ j, j ≠ ino → fs'.inode j = fs.inode j
  names : fs'.names = fs.names
  freeInodes : fs'.freeInodes = fs.freeInodes
  isFile : (fs'.inode ino).isFile = (fs.inode ino).isFile
  size : (fs'.inode ino).size = (fs.inode ino).size
  data : ∀ k, ¬ (lo ≤ k ∧ k < hi) → (fs'.inode ino).data k = (fs.inode ino).data k

section
variable {ino lo hi : Nat} {fs fs' fs'' : Fs}

theorem Wrote.refl (ino lo hi : Nat) (fs : Fs) : Wrote ino lo hi fs fs :=
  ⟨fun _ _ => rfl, rfl, rfl, rfl, rfl, fun _ _ => rfl⟩

theorem Wrote.trans (h : Wrote ino lo hi fs fs') (h' : Wrote ino lo hi fs' fs'') :
    Wrote ino lo hi fs fs'' where
  other j hj := (h'.other j hj).trans (h.other j hj)
  names := h'.names.trans h.names
  freeInodes := h'.freeInodes.trans h.freeInodes
  isFile := h'.isFile.trans h.isFile
  size := h'.size.trans h.size
  data k hk := (h'.data k hk).trans (h.data k hk)

theorem Wrote.mono (h : Wrote ino lo hi fs fs') {lo' hi' : Nat} (hlo : lo' ≤ lo)
    (hhi : hi ≤ hi') : Wrote ino lo' hi' fs fs' where
  other := h.other
  names := h.names
  freeInodes := h.freeInodes
  isFile := h.isFile
  size := h.size
  data k hk := h.data k fun hin => hk ⟨hlo.trans hin.1, lt_of_lt_of_le hin.2 hhi⟩

end

/-- A block that is allocated is zeroed. -/
theorem balloc_spec (fs : Fs) (ino bn : Nat) :
    Wrote ino (bn * 1024) (bn * 1024 + 1024) fs (fs.balloc ino bn).2 ∧
      ((fs.balloc ino bn).1 = false → (fs.balloc ino bn).2.nfree = 0) := by
  unfold balloc
  split
  · rename_i h0
    exact ⟨.refl _ _ _ _, fun _ => h0⟩
  · refine ⟨⟨fun j hj => ?_, rfl, rfl, ?_, ?_, fun k hk => ?_⟩, fun h => by cases h⟩
    · simp [setInode, Function.update_of_ne hj]
    · simp [setInode]
    · simp [setInode]
    · have hne : ¬ k / 1024 = bn := by omega
      simp [setInode, hne]

theorem bmap_spec (fs : Fs) (ino bn : Nat) :
    Wrote ino (bn * 1024) (bn * 1024 + 1024) fs (fs.bmap ino bn).2 ∧
      ((fs.bmap ino bn).1 = false → (fs.bmap ino bn).2.nfree = 0) := by
  have hid : Wrote ino (bn * 1024) (bn * 1024 + 1024) fs fs := .refl _ _ _ _
  unfold bmap
  dsimp only
  split
  · split
    · exact ⟨hid, fun h => by cases h⟩
    · exact balloc_spec fs ino bn
  · split
    · split
      · exact ⟨hid, fun h => by cases h⟩
      · exact balloc_spec fs ino bn
    · split
      · rename_i h0
        exact ⟨hid, fun _ => h0⟩
      · -- the indirect block comes first
        have hind : Wrote ino (bn * 1024) (bn * 1024 + 1024) fs
            ({ fs with nfree := fs.nfree - 1 }.setInode ino
              { fs.inode ino with indirect := true }) := by
          refine ⟨fun j hj => ?_, rfl, rfl, ?_, ?_, fun k _ => ?_⟩
          · simp [setInode, Function.update_of_ne hj]
          · simp [setInode]
          · simp [setInode]
          · simp [setInode]
        obtain ⟨hw, hn⟩ := balloc_spec ({ fs with nfree := fs.nfree - 1 }.setInode ino
          { fs.inode ino with indirect := true }) ino bn
        exact ⟨hind.trans hw, hn⟩

theorem put_spec (fs : Fs) (ino off m : Nat) (src : Nat → UInt8) :
    Wrote ino off (off + m) fs (fs.put ino off m src) ∧
      ∀ i, i < m → ((fs.put ino off m src).inode ino).data (off + i) = src i := by
  refine ⟨⟨fun j hj => ?_, rfl, rfl, ?_, ?_, fun k hk => ?_⟩, fun i hi => ?_⟩
  · simp [put, setInode, Function.update_of_ne hj]
  · simp [put, setInode]
  · simp [put, setInode]
  · simp [put, setInode, hk]
  · simp [put, setInode, hi]

/-- What the loop of `writei` leaves behind, when it works in whole
blocks: the bytes it got to, and why it stopped. -/
structure LoopPost (ino : Nat) (src : Nat → UInt8) (n : Nat) (fs : Fs) (tot off : Nat)
    (r : Fs × Nat × Nat) : Prop where
  wrote : Wrote ino off (off + (n - tot)) fs r.1
  le : tot ≤ r.2.1 ∧ r.2.1 ≤ n
  off_eq : r.2.2 = off + (r.2.1 - tot)
  data : ∀ i, tot ≤ i → i < r.2.1 → (r.1.inode ino).data (off + (i - tot)) = src i
  stop : r.2.1 < n → r.1.nfree = 0

theorem writeiLoop_spec (ino : Nat) (src : Nat → UInt8) {n fuel : Nat} :
    ∀ {fs : Fs} {tot off : Nat}, tot ≤ n → n - tot ≤ fuel → off % 1024 = 0 →
      (n - tot) % 1024 = 0 → LoopPost ino src n fs tot off (writeiLoop ino src n fuel fs tot off) := by
  induction fuel with
  | zero =>
      intro fs tot off hle hfuel _ _
      exact ⟨.refl _ _ _ _, ⟨Nat.le_refl _, hle⟩, by simp [writeiLoop],
        fun i hi hi' => by simp only [writeiLoop] at hi'; omega,
        fun h => by simp only [writeiLoop] at h; omega⟩
  | succ fuel ih =>
      intro fs tot off hle hfuel hoff hblk
      unfold writeiLoop
      split
      · rename_i hlt
        have hbn : off / 1024 * 1024 = off := by omega
        obtain ⟨hb, hfull⟩ := bmap_spec fs ino (off / 1024)
        rw [hbn] at hb
        dsimp only
        split
        · -- one block is written
          have hm : min (n - tot) (1024 - off % 1024) = 1024 := by omega
          rw [hm]
          obtain ⟨hp, hdata⟩ := put_spec (fs.bmap ino (off / 1024)).2 ino off 1024
            fun i => src (tot + i)
          have hrest := @ih ((fs.bmap ino (off / 1024)).2.put ino off 1024 fun i => src (tot + i))
            (tot + 1024) (off + 1024) (by omega) (by omega) (by omega) (by omega)
          generalize writeiLoop ino src n fuel _ (tot + 1024) (off + 1024) = r at hrest ⊢
          refine ⟨?_, ?_, ?_, fun i hi hi' => ?_, hrest.stop⟩
          · exact ((hb.trans hp).mono (Nat.le_refl _) (by omega)).trans
              (hrest.wrote.mono (by omega) (by omega))
          · have := hrest.le
            omega
          · have := hrest.le
            rw [hrest.off_eq]
            omega
          · by_cases hin : i < tot + 1024
            · have hidx : tot + (i - tot) = i := by omega
              rw [hrest.wrote.data _ (by omega), hdata _ (by omega), hidx]
            · have hidx : off + (i - tot) = off + 1024 + (i - (tot + 1024)) := by omega
              rw [hidx]
              exact hrest.data i (by omega) hi'
        · rename_i hb0
          exact ⟨hb.mono (Nat.le_refl _) (by omega), ⟨Nat.le_refl _, hle⟩, by simp,
            fun i hi hi' => by dsimp only at hi'; omega,
            fun _ => hfull (by simpa using hb0)⟩
      · exact ⟨.refl _ _ _ _, ⟨Nat.le_refl _, hle⟩, by simp,
          fun i hi hi' => by dsimp only at hi'; omega,
          fun h => by dsimp only at h; omega⟩

/-- **Writing one page at a page boundary.** Only this page of this file
changes; the file never shrinks; a full write reads back and covers the
page; a write that was accepted and is not full has used up the disk. -/
structure PageWrite (ino off : Nat) (src : Nat → UInt8) (fs : Fs) (r : Fs × Int) : Prop where
  other : ∀ j, j ≠ ino → r.1.inode j = fs.inode j
  names : r.1.names = fs.names
  freeInodes : r.1.freeInodes = fs.freeInodes
  isFile : (r.1.inode ino).isFile = (fs.inode ino).isFile
  data : ∀ k, ¬ (off ≤ k ∧ k < off + 4096) → (r.1.inode ino).data k = (fs.inode ino).data k
  size : (fs.inode ino).size ≤ (r.1.inode ino).size
  full : r.2 = 4096 → off + 4096 ≤ (r.1.inode ino).size ∧
    ∀ i, i < 4096 → (r.1.inode ino).data (off + i) = src i
  short : writeiAccepts (fs.inode ino) off 4096 = true → r.2 ≠ 4096 → r.1.nfree = 0

theorem writei_spec (fs : Fs) (ino : Nat) (src : Nat → UInt8) {off : Nat}
    (hoff : off % 4096 = 0) : PageWrite ino off src fs (fs.writei ino src off 4096) := by
  unfold writei
  split
  · have h := @writeiLoop_spec ino src 4096 4096 fs 0 off (by omega) (by omega) (by omega)
      (by omega)
    generalize writeiLoop ino src 4096 4096 fs 0 off = r at h ⊢
    obtain ⟨fs', tot, off'⟩ := r
    have hoff' : off' = off + tot := by simpa using h.off_eq
    have hw := h.wrote
    dsimp only at hw ⊢
    refine ⟨fun j hj => ?_, hw.names, hw.freeInodes, ?_, fun k hk => ?_, ?_, fun hr => ?_,
      fun _ hr => ?_⟩
    · simpa [setInode, Function.update_of_ne hj] using hw.other j hj
    · simpa [setInode] using hw.isFile
    · simpa [setInode] using hw.data k (by omega)
    · have := hw.size
      simp only [setInode, Function.update_self]
      split <;> omega
    · replace hr : (tot : Int) = 4096 := hr
      have htot : tot = 4096 := by exact_mod_cast hr
      refine ⟨?_, fun i hi => ?_⟩
      · simp only [setInode, Function.update_self]
        split <;> omega
      · simpa [setInode] using h.data i (Nat.zero_le _) (by dsimp only; omega)
    · refine h.stop ?_
      have := h.le.2
      dsimp only at this ⊢
      omega
  · rename_i hacc
    exact ⟨fun _ _ => rfl, rfl, rfl, rfl, fun _ _ => rfl, Nat.le_refl _, (nomatch ·),
      fun h => absurd h hacc⟩

end Fs

/-! ## The name of a swap file -/

/-- The number behind digits, least significant first. -/
def undigits : List Char → Nat
  | [] => 0
  | c :: cs => (c.toNat - 48) + 10 * undigits cs

theorem undigits_itoaDigits {fuel n : Nat} (h : n ≤ fuel) : undigits (itoaDigits fuel n) = n := by
  induction fuel generalizing n with
  | zero =>
      have : n = 0 := by omega
      subst this
      rfl
  | succ fuel ih =>
      unfold itoaDigits
      split
      · rename_i h0
        subst h0
        rfl
      · have hdigit : (Char.ofNat (n % 10 + 48)).toNat = n % 10 + 48 := by
          have : n % 10 < 10 := Nat.mod_lt _ (by decide)
          interval_cases n % 10 <;> rfl
        rw [undigits, hdigit, ih (by omega)]
        omega

/-- Padding is not seen. -/
theorem undigits_pad (l : List Char) (m : Nat) :
    undigits (l ++ List.replicate m '0') = undigits l := by
  induction l with
  | nil =>
      induction m with
      | zero => rfl
      | succ m ih =>
          rw [List.nil_append] at ih ⊢
          show ('0'.toNat - 48) + 10 * undigits (List.replicate m '0') = 0
          rw [ih]
          rfl
  | cons c cs ih => rw [List.cons_append, undigits, ih, undigits]

theorem length_itoaDigits {fuel n k : Nat} (h : n < 10 ^ k) :
    (itoaDigits fuel n).length ≤ k := by
  induction fuel generalizing n k with
  | zero => exact Nat.zero_le _
  | succ fuel ih =>
      unfold itoaDigits
      split
      · exact Nat.zero_le _
      · rename_i h0
        cases k with
        | zero => omega
        | succ k =>
            have hlt : n / 10 < 10 ^ k := by
              rw [Nat.pow_succ] at h
              omega
            have := ih hlt
            rw [List.length_cons]
            omega

theorem undigits_itoa (n w : Nat) : undigits (itoa n w).reverse = n := by
  unfold itoa
  rw [List.reverse_reverse, undigits_pad]
  split
  · rename_i h0
    rw [h0]
    rfl
  · exact undigits_itoaDigits (Nat.le_refl n)

theorem length_itoa {n : Nat} (h : n < 1000000000) : (itoa n 5).length ≤ 9 := by
  have hd : (itoaDigits n n).length ≤ 9 := length_itoaDigits h
  unfold itoa
  dsimp only
  split
  · simp
  · simp only [List.length_reverse, List.length_append, List.length_replicate]
    omega

/-- **Swap files of different processes have different names**, up to the
first process number that does not fit. -/
theorem swapName_inj {a b : Nat} (ha : a < 1000000000) (hb : b < 1000000000)
    (h : swapName a = swapName b) : a = b := by
  have hname : ∀ n, n < 1000000000 → swapName n = "pgswp".toList ++ itoa n 5 := fun n hn => by
    refine List.take_of_length_le ?_
    have hpre : "pgswp".toList.length = 5 := by decide
    rw [List.length_append, hpre]
    exact Nat.add_le_add_left (length_itoa hn) 5
  rw [hname a ha, hname b hb] at h
  have hi := List.append_cancel_left h
  rw [← undigits_itoa a 5, hi, undigits_itoa]

/-! ## Well-formed directories -/

/-- Inodes on the free list are named by nobody, and no two swap files
share an inode. -/
structure Fs.Wf (fs : Fs) : Prop where
  free : fs.freeInodes.Nodup
  named : ∀ name ino, fs.names name = some ino → ino ∉ fs.freeInodes
  swap : ∀ a b ino, fs.names (swapName a) = some ino → fs.names (swapName b) = some ino →
    swapName a = swapName b

namespace Fs

/-- What `create` can do: the file is there, or it is made from a free
inode. -/
theorem create_some {fs fs' : Fs} {name : List Char} {ok : Bool} {ino : Nat}
    (h : fs.create name ok = some (ino, fs')) :
    (fs.names name = some ino ∧ fs' = fs) ∨
    (fs.names name = none ∧ ∃ rest, fs.freeInodes = ino :: rest ∧
      fs' = { fs with
        freeInodes := rest
        names := Function.update fs.names name (some ino)
        inode := Function.update fs.inode ino Inode.empty }) := by
  unfold create at h
  split at h
  · rename_i i hn
    split at h
    · cases h
      exact .inl ⟨hn, rfl⟩
    · cases h
  · rename_i hn
    split at h
    · cases h
    · rename_i i rest hfree
      split at h
      · cases h
        exact .inr ⟨hn, rest, hfree, rfl⟩
      · cases h

theorem Wf.create {fs fs' : Fs} (hf : fs.Wf) {pid : Nat} {ok : Bool} {ino : Nat}
    (h : fs.create (swapName pid) ok = some (ino, fs')) : fs'.Wf := by
  rcases create_some h with ⟨-, rfl⟩ | ⟨hnone, rest, hfree, rfl⟩
  · exact hf
  · have hnd := hf.free
    rw [hfree] at hnd
    obtain ⟨hnot, hnd'⟩ := List.nodup_cons.mp hnd
    have hold : ∀ name i, fs.names name = some i → i ≠ ino ∧ i ∉ rest := fun name i hi => by
      have := hf.named name i hi
      rw [hfree, List.mem_cons, not_or] at this
      exact this
    refine ⟨hnd', fun name i hi => ?_, fun a b i ha hb => ?_⟩
    · dsimp only at hi ⊢
      rw [Function.update_apply] at hi
      split at hi
      · cases hi
        exact hnot
      · exact (hold name i hi).2
    · dsimp only at ha hb
      rw [Function.update_apply] at ha hb
      split at ha
      · rename_i ha'
        split at hb
        · rename_i hb'
          rw [ha', hb']
        · cases ha
          exact absurd rfl (hold _ _ hb).1
      · split at hb
        · cases hb
          exact absurd rfl (hold _ _ ha).1
        · exact hf.swap a b i ha hb

/-- The directory does not change when a file does. -/
theorem Wf.congr {fs fs' : Fs} (hf : fs.Wf) (hn : fs'.names = fs.names)
    (hi : fs'.freeInodes = fs.freeInodes) : fs'.Wf :=
  ⟨by rw [hi]; exact hf.free, by rw [hi, hn]; exact hf.named, by rw [hn]; exact hf.swap⟩

end Fs

end OsSuite.Xv6
