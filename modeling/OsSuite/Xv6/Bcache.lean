import OsSuite.Lib.Turns

/-!
# Bcache — the buffer cache

`bio.c`. A turn is what a process does under `bcache.lock`; the sleep lock
of a buffer is `SleepLock`. The list through `prev` and `next` is a list of
buffer numbers, from `head.next` to `head.prev`.

Two histories that no turn looks at: `refs`, what `bget` and `bpin` have
given out and `brelse` and `bunpin` have not taken back, with the block it
was given out for; and `stamp`, when `brelse` last moved a buffer to the
front. They say what the cache is for: a reference keeps naming its block,
two references to one block are one buffer, and a miss takes the buffer
that has been free for longest.
-/

namespace OsSuite.Xv6

/-- `NBUF` -/
def nbuf : Nat := 30

/-- `struct buf` -/
structure Buf where
  valid : Bool
  dev : Nat
  blockno : Nat
  refcnt : Nat

/-- A reference to buffer `b`, got for a block. -/
structure BufRef where
  b : Nat
  dev : Nat
  blockno : Nat
  deriving DecidableEq

structure Bcache where
  buf : Nat → Buf
  lru : List Nat
  refs : List BufRef
  stamp : Nat → Nat
  clock : Nat

inductive BcacheTurn where
  | bget (dev blockno : Nat)
  | brelse (r : BufRef)
  | bpin (r : BufRef)
  | bunpin (r : BufRef)

namespace Bcache

/-- `binit`: each buffer goes to the front. -/
def binit : Bcache :=
  ⟨fun _ => ⟨false, 0, 0, 0⟩, (List.range nbuf).foldl (fun l b => b :: l) [], [], id, nbuf⟩

def setBuf (s : Bcache) (b : Nat) (x : Buf) : Bcache :=
  { s with buf := Function.update s.buf b x }

/-- `b->refcnt++` -/
def ref (s : Bcache) (b : Nat) : Bcache :=
  s.setBuf b { s.buf b with refcnt := (s.buf b).refcnt + 1 }

/-- `b->refcnt--` -/
def unref (s : Bcache) (b : Nat) : Bcache :=
  s.setBuf b { s.buf b with refcnt := (s.buf b).refcnt - 1 }

/-- The loop over `next`. -/
def cached (s : Bcache) (dev blockno : Nat) : Option Nat :=
  s.lru.find? fun b => (s.buf b).dev == dev && (s.buf b).blockno == blockno

/-- The loop over `prev`. -/
def unused (s : Bcache) : Option Nat := s.lru.reverse.find? fun b => (s.buf b).refcnt == 0

/-- `bget(dev, blockno)`, up to `acquiresleep`, and the buffer it returns -/
def bget (s : Bcache) (dev blockno : Nat) : Turn (Nat × Bcache) :=
  match s.cached dev blockno with
  | some b => .go (b, s.ref b)
  | none =>
      match s.unused with
      | some b => .go (b, s.setBuf b ⟨false, dev, blockno, 1⟩)
      | none => .halt "bget: no buffers"

/-- `brelse(b)`, after `releasesleep` -/
def brelse (s : Bcache) (b : Nat) : Bcache :=
  let s := s.unref b
  if (s.buf b).refcnt = 0 then
    { s with
      lru := b :: s.lru.erase b, stamp := Function.update s.stamp b s.clock, clock := s.clock + 1 }
  else s

def step (s : Bcache) : BcacheTurn → Turn Bcache
  | .bget dev blockno =>
      (s.bget dev blockno).map fun x => { x.2 with refs := ⟨x.1, dev, blockno⟩ :: s.refs }
  | .brelse r => .go { s.brelse r.b with refs := s.refs.erase r }
  | .bpin r => .go { s.ref r.b with refs := r :: s.refs }
  | .bunpin r => .go { s.unref r.b with refs := s.refs.erase r }

/-- Who pins or gives back has a reference, and no block is on device 0. -/
def proper (s : Bcache) : BcacheTurn → Bool
  | .bget dev _ => dev != 0
  | .brelse r | .bpin r | .bunpin r => s.refs.contains r

/-! ## The invariant -/

/-- The block in a buffer. -/
def block (s : Bcache) (b : Nat) : Nat × Nat := ((s.buf b).dev, (s.buf b).blockno)

structure Wf (s : Bcache) : Prop where
  perm : s.lru.Perm (List.range nbuf)
  count : ∀ b, (s.buf b).refcnt = s.refs.countP (·.b == b)
  named : ∀ r ∈ s.refs, r.b < nbuf ∧ r.dev ≠ 0 ∧ s.block r.b = (r.dev, r.blockno)
  /-- A block is in one buffer; a buffer of device 0 has never been used. -/
  once : ∀ b < nbuf, ∀ c < nbuf, (s.block b).1 ≠ 0 → s.block b = s.block c → b = c
  order : s.lru.Pairwise fun b c => s.stamp c < s.stamp b
  past : ∀ b < nbuf, s.stamp b < s.clock

variable {s s' : Bcache} {b dev blockno : Nat}

theorem Wf.mem (h : Wf s) : b ∈ s.lru ↔ b < nbuf := h.perm.mem_iff.trans List.mem_range

theorem wf_binit : Wf binit where
  perm := by decide
  count _ := rfl
  named _ h := by cases h
  once _ _ _ _ h := absurd rfl h
  order := by decide
  past _ h := h

/-- References come and go, and the buffer keeps its block. -/
theorem Wf.recount (h : Wf s) {n : Nat} {refs : List BufRef}
    (hb : n = refs.countP (·.b == b))
    (hc : ∀ c, c ≠ b → refs.countP (·.b == c) = s.refs.countP (·.b == c))
    (hr : ∀ r ∈ refs, r ∈ s.refs ∨ r.b < nbuf ∧ r.dev ≠ 0 ∧ s.block r.b = (r.dev, r.blockno)) :
    Wf { s.setBuf b { s.buf b with refcnt := n } with refs := refs } := by
  have hblock : ∀ c, ({ s.setBuf b { s.buf b with refcnt := n } with refs := refs } : Bcache).block c =
      s.block c := by
    intro c
    by_cases hcb : c = b <;> simp [block, setBuf, hcb]
  refine ⟨h.perm, ?_, ?_, ?_, h.order, h.past⟩
  · intro c
    by_cases hcb : c = b
    · simp [setBuf, hcb, hb]
    · simp [setBuf, hcb, h.count c, hc c hcb]
  · intro r hm
    rw [hblock]
    exact (hr r hm).elim (h.named r) id
  · intro c hcn d hdn
    rw [hblock, hblock]
    exact h.once c hcn d hdn

theorem Wf.ref (h : Wf s) (hb : b < nbuf) (hdev : dev ≠ 0) (hn : s.block b = (dev, blockno)) :
    Wf { s.ref b with refs := ⟨b, dev, blockno⟩ :: s.refs } := by
  apply h.recount
  · simp [h.count b]
  · intro c hc
    simp [Ne.symm hc]
  · intro r hr
    rcases List.mem_cons.mp hr with rfl | hr
    · exact .inr ⟨hb, hdev, hn⟩
    · exact .inl hr

theorem Wf.unref (h : Wf s) {r : BufRef} (hr : r ∈ s.refs) :
    Wf { s.unref r.b with refs := s.refs.erase r } := by
  apply h.recount
  · rw [h.count r.b, List.countP_erase]
    simp [hr]
  · intro c hc
    simp [List.countP_erase, Ne.symm hc]
  · intro q hq
    exact .inl (List.mem_of_mem_erase hq)

/-- Moving a buffer to the front. -/
theorem Wf.front (h : Wf s) (hb : b < nbuf) :
    Wf { s with
      lru := b :: s.lru.erase b, stamp := Function.update s.stamp b s.clock,
      clock := s.clock + 1 } := by
  have hnodup : s.lru.Nodup := h.perm.nodup_iff.mpr List.nodup_range
  refine ⟨?_, h.count, h.named, h.once, ?_, ?_⟩
  · exact (List.perm_cons_erase (h.mem.mpr hb)).symm.trans h.perm
  · refine List.pairwise_cons.mpr ⟨?_, ?_⟩
    · intro c hc
      obtain ⟨hcb, hc⟩ := (hnodup.mem_erase_iff).mp hc
      simp [hcb, h.past c (h.mem.mp hc)]
    · refine (h.order.sublist List.erase_sublist).imp_of_mem ?_
      intro c d hc hd hlt
      simpa [((hnodup.mem_erase_iff).mp hc).1, ((hnodup.mem_erase_iff).mp hd).1] using hlt
  · intro c hc
    by_cases hcb : c = b
    · simp [hcb]
    · simpa [hcb] using Nat.lt_succ_of_lt (h.past c hc)

/-- A buffer without references takes a block that is in no buffer. -/
theorem Wf.recycle (h : Wf s) (hb : b < nbuf) (h0 : (s.buf b).refcnt = 0) (hdev : dev ≠ 0)
    (hmiss : ∀ c < nbuf, s.block c ≠ (dev, blockno)) :
    Wf { s.setBuf b ⟨false, dev, blockno, 1⟩ with refs := ⟨b, dev, blockno⟩ :: s.refs } := by
  have hfree : ∀ r ∈ s.refs, r.b ≠ b := by
    intro r hr hrb
    have hzero : s.refs.countP (·.b == b) = 0 := (h.count b).symm.trans h0
    exact List.countP_eq_zero.mp hzero r hr (by simp [hrb])
  refine ⟨h.perm, ?_, ?_, ?_, h.order, h.past⟩
  · intro c
    by_cases hcb : c = b
    · subst hcb
      simp [setBuf, ← h.count, h0]
    · simp [setBuf, hcb, Ne.symm hcb, h.count c]
  · intro r hr
    rcases List.mem_cons.mp hr with rfl | hr
    · exact ⟨hb, hdev, by simp [block, setBuf]⟩
    · simpa [block, setBuf, hfree r hr] using h.named r hr
  · intro c hc d hd hc0 hn
    by_cases hcb : c = b <;> by_cases hdb : d = b
    · rw [hcb, hdb]
    · exact absurd (by simpa [block, setBuf, hcb, hdb, eq_comm] using hn) (hmiss d hd)
    · exact absurd (by simpa [block, setBuf, hcb, hdb] using hn) (hmiss c hc)
    · simp only [block, setBuf, Function.update_of_ne hcb, Function.update_of_ne hdb] at hc0 hn
      exact h.once c hc d hd hc0 hn

theorem Wf.cached_some (h : Wf s) (hb : s.cached dev blockno = some b) :
    b < nbuf ∧ s.block b = (dev, blockno) := by
  have hn := List.find?_some hb
  exact ⟨h.mem.mp (List.mem_of_find?_eq_some hb), by simpa [block] using hn⟩

theorem Wf.cached_none (h : Wf s) (hb : s.cached dev blockno = none) :
    ∀ c < nbuf, s.block c ≠ (dev, blockno) := by
  intro c hc hn
  have hno := List.find?_eq_none.mp hb c (h.mem.mpr hc)
  exact hno (by simpa [block] using hn)

theorem Wf.unused_some (h : Wf s) (hb : s.unused = some b) :
    b < nbuf ∧ (s.buf b).refcnt = 0 := by
  have hz := List.find?_some hb
  exact ⟨h.mem.mp (List.mem_reverse.mp (List.mem_of_find?_eq_some hb)), by simpa using hz⟩

theorem Wf.step (h : Wf s) {t : BcacheTurn} (ht : s.proper t) (hs : s.step t = .go s') : Wf s' := by
  cases t with
  | bget dev blockno =>
      have hdev : dev ≠ 0 := by simpa [proper] using ht
      obtain ⟨x, hx, rfl⟩ := Turn.map_eq_go.mp hs
      unfold bget at hx
      cases hc : s.cached dev blockno with
      | some b =>
          simp only [hc, Turn.go.injEq] at hx
          subst hx
          obtain ⟨hb, hn⟩ := h.cached_some hc
          exact h.ref hb hdev hn
      | none =>
          cases hu : s.unused with
          | none => simp [hc, hu] at hx
          | some b =>
              simp only [hc, hu, Turn.go.injEq] at hx
              subst hx
              obtain ⟨hb, h0⟩ := h.unused_some hu
              exact h.recycle hb h0 hdev (h.cached_none hc)
  | brelse r =>
      cases hs
      have hr : r ∈ s.refs := by simpa [proper] using ht
      have hu := h.unref hr
      unfold brelse
      dsimp only
      split
      · exact hu.front (h.named r hr).1
      · exact hu
  | bpin r =>
      cases hs
      obtain ⟨hb, hdev, hn⟩ := h.named r (by simpa [proper] using ht)
      exact h.ref hb hdev hn
  | bunpin r =>
      cases hs
      exact h.unref (by simpa [proper] using ht)

theorem Wf.of_reaches (h : Reaches Bcache.step (proper · ·) binit s) : Wf s :=
  h.invariant wf_binit fun _ _ _ hs ht hgo => hs.step ht hgo

/-! ## The results -/

/-- **A buffer is its block.** In every state reached each reference names a
buffer that holds the block it was got for, and is counted by it; and two
references are to one buffer exactly if they are to one block. -/
theorem references_stay_good (h : Reaches step (proper · ·) binit s) {r q : BufRef} (hr : r ∈ s.refs)
    (hq : q ∈ s.refs) :
    s.block r.b = (r.dev, r.blockno) ∧ (s.buf r.b).refcnt = s.refs.countP (·.b == r.b) ∧
      (r.b = q.b ↔ r.dev = q.dev ∧ r.blockno = q.blockno) := by
  have hs := Wf.of_reaches h
  obtain ⟨hb, hdev, hn⟩ := hs.named r hr
  obtain ⟨hc, -, hm⟩ := hs.named q hq
  refine ⟨hn, hs.count r.b, ?_⟩
  have hblock : s.block r.b = s.block q.b ↔ r.dev = q.dev ∧ r.blockno = q.blockno := by
    rw [hn, hm, Prod.mk.injEq]
  rw [← hblock]
  constructor
  · intro hbc
    rw [hbc]
  · exact hs.once r.b hb q.b hc (by simpa [hn] using hdev)

/-- A block that is pinned, and got once more. -/
theorem references_stay_good_pinned : ∃ s, Reaches step (proper · ·) binit s ∧
    s.refs = [⟨0, 1, 7⟩, ⟨0, 1, 7⟩] ∧ s.block 0 = (1, 7) := by
  obtain ⟨s, hr, hs⟩ := exists_reaches (C := (proper · ·)) step (fun _ _ h => h)
    (fun s => s.refs == [⟨0, 1, 7⟩, ⟨0, 1, 7⟩]) binit
    [.bget 1 7, .bpin ⟨0, 1, 7⟩, .brelse ⟨0, 1, 7⟩, .bget 1 7] (by decide +kernel)
  have hrefs := eq_of_beq hs
  have hmem : ⟨0, 1, 7⟩ ∈ s.refs := by simp [hrefs]
  exact ⟨s, hr, hrefs, (references_stay_good hr hmem hmem).1⟩

/-- From the back of the list the first match has the least stamp. -/
theorem Wf.unused_oldest (h : Wf s) (hb : s.unused = some b) :
    ∀ c < nbuf, (s.buf c).refcnt = 0 → s.stamp b ≤ s.stamp c := by
  intro c hc h0
  obtain ⟨-, as, bs, hrev, has⟩ := List.find?_eq_some_iff_append.mp hb
  have hord := List.pairwise_reverse.mpr h.order
  rw [hrev] at hord
  have hmem : c ∈ as ++ b :: bs := by
    rw [← hrev]
    exact List.mem_reverse.mpr (h.mem.mpr hc)
  rcases List.mem_append.mp hmem with hin | hin
  · exact absurd (has c hin) (by simp [h0])
  · rcases List.mem_cons.mp hin with rfl | hin
    · exact le_refl _
    · exact le_of_lt ((List.pairwise_cons.mp (List.pairwise_append.mp hord).2.1).1 c hin)

/-- If every buffer has a reference, `NBUF` references are out. -/
theorem Wf.unused_none (h : Wf s) (hu : s.unused = none) : nbuf ≤ s.refs.length := by
  have hall : Finset.range nbuf ⊆ (s.refs.map (·.b)).toFinset := by
    intro b hb
    have hin := List.mem_reverse.mpr (h.mem.mpr (Finset.mem_range.mp hb))
    have hne := List.find?_eq_none.mp hu b hin
    simpa [h.count b] using hne
  calc nbuf = (Finset.range nbuf).card := (Finset.card_range _).symm
    _ ≤ (s.refs.map (·.b)).toFinset.card := Finset.card_le_card hall
    _ ≤ (s.refs.map (·.b)).length := List.toFinset_card_le _
    _ = s.refs.length := List.length_map _

/-- **Least recently used.** In every state reached, a block that is not
cached gets the buffer without references that `brelse` moved to the front
before all others without references; and there is one as long as fewer
than `NBUF` references are out. -/
theorem bget_takes_oldest (h : Reaches step (proper · ·) binit s) (hmiss : s.cached dev blockno = none) :
    (∀ b s', s.bget dev blockno = .go (b, s') → (s.buf b).refcnt = 0 ∧
      ∀ c < nbuf, (s.buf c).refcnt = 0 → s.stamp b ≤ s.stamp c) ∧
    (s.refs.length < nbuf → ∃ x, s.bget dev blockno = .go x) := by
  have hs := Wf.of_reaches h
  unfold bget
  rw [hmiss]
  dsimp only
  cases hu : s.unused with
  | none =>
      refine ⟨by simp, fun hlen => ?_⟩
      exact absurd (hs.unused_none hu) (Nat.not_le.mpr hlen)
  | some d =>
      refine ⟨fun b s' hx => ?_, fun _ => ⟨_, rfl⟩⟩
      cases hx
      exact ⟨(hs.unused_some hu).2, hs.unused_oldest hu⟩

/-- Buffer 0 has been used and given back, so the next miss takes buffer 1. -/
theorem bget_takes_oldest_second : ∃ s, Reaches step (proper · ·) binit s ∧ s.cached 1 8 = none ∧
    s.bget 1 8 = .go (1, s.setBuf 1 ⟨false, 1, 8, 1⟩) ∧ s.stamp 1 ≤ s.stamp 0 := by
  obtain ⟨s, hr, hs⟩ := exists_reaches (C := (proper · ·)) step (fun _ _ h => h)
    (fun s => decide (s.cached 1 8 = none ∧ s.unused = some 1 ∧ (s.buf 0).refcnt = 0)) binit
    [.bget 1 7, .brelse ⟨0, 1, 7⟩] (by decide +kernel)
  obtain ⟨hmiss, hu, h0⟩ := of_decide_eq_true hs
  have hget : s.bget 1 8 = .go (1, s.setBuf 1 ⟨false, 1, 8, 1⟩) := by simp [bget, hmiss, hu]
  exact ⟨s, hr, hmiss, hget, ((bget_takes_oldest hr hmiss).1 1 _ hget).2 0 (by decide) h0⟩

end Bcache

end OsSuite.Xv6
