import OsSuite.Lib.Simulation
import OsSuite.Xv6.Steps

/-!
# Fifo — the resident list is a queue

`evict_page` deletes by moving the last entry over the victim, so the
order of `resident_pages` is not the order of insertion. What keeps the
order is `seq`: `Queue` is the list of resident entries in the order they
came in, and `Fifo p q` says that the array is a permutation of it with
increasing numbers. The machine `Queue.step` follows what is observed of
a process; it gets stuck when an entry leaves that is not the head.
-/

namespace OsSuite.Xv6

open Table

/-- A FIFO queue of resident entries. -/
structure Queue where
  entries : List ResidentPage
  /-- Insertions since the last reset. -/
  count : Nat
  deriving DecidableEq

namespace Queue

def empty : Queue := ⟨[], 0⟩

/-- Set the dirty flag of the entry with a number. -/
def mark (seq : Int) (e : ResidentPage) : ResidentPage :=
  if e.seq = seq then { e with dirty := true } else e

/-- What the queue makes of an observation: entries come in at the end
and leave at the head. -/
def step (q : Queue) : Event → Option Queue
  | .inserted va seq dirty => some ⟨q.entries ++ [⟨va, seq, dirty⟩], q.count + 1⟩
  | .removed va seq dirty =>
      match q.entries with
      | [] => none
      | e :: rest => if e = ⟨va, seq, dirty⟩ then some ⟨rest, q.count⟩ else none
  | .marked seq => some ⟨q.entries.map (mark seq), q.count⟩
  | .reset => some empty
  | .alloc _ | .forked _ => none
  | _ => some q

/-- Fewer than 2^31 insertions since the last reset. -/
def fits (q : Queue) : Event → Prop
  | .inserted _ _ _ => q.count + 1 < 2147483648
  | _ => True

instance (q : Queue) : (e : Event) → Decidable (q.fits e)
  | .inserted _ _ _ => inferInstanceAs (Decidable (q.count + 1 < 2147483648))
  | .evict _ | .fault _ _ _ _ | .removed _ _ _ | .marked _ | .swapOut _ _ _ | .swapFull _
  | .swapFail _ | .swapFile | .reset | .alloc _ | .forked _ | .evicted .. => isTrue trivial

end Queue

/-- **The resident list of `p` holds the entries of `q`**, numbered in the
order they came in. -/
structure Fifo (p : Proc) (q : Queue) : Prop where
  nonneg : 0 ≤ p.numResident
  perm : p.residents.Perm q.entries
  sorted : q.entries.Pairwise fun e e' => e.seq < e'.seq
  range : ∀ e ∈ q.entries, 1 ≤ e.seq ∧ e.seq ≤ q.count
  next : p.nextFifoSeq = q.count

section
variable {p : Proc} {q : Queue}

theorem Fifo.congr (h : Fifo p q) {p' : Proc} (hn : p'.numResident = p.numResident)
    (hr : ∀ i, i < p.numResident.toNat → p'.residentPages i = p.residentPages i)
    (hs : p'.nextFifoSeq = p.nextFifoSeq) : Fifo p' q where
  nonneg := by rw [hn]; exact h.nonneg
  perm := by
    have hlive : p'.residents = p.residents := by
      unfold Proc.residents
      rw [hn]
      exact live_congr hr
    rw [hlive]
    exact h.perm
  sorted := h.sorted
  range := h.range
  next := by rw [hs]; exact h.next

/-- Distinct entries have distinct numbers. -/
theorem Fifo.seq_nodup (h : Fifo p q) : (p.residents.map ResidentPage.seq).Nodup := by
  rw [(h.perm.map _).nodup_iff]
  exact List.pairwise_map.mpr (h.sorted.imp fun hlt => ne_of_lt hlt)

theorem Fifo.seq_inj (h : Fifo p q) {i j : Nat} (hi : i < p.numResident.toNat)
    (hj : j < p.numResident.toNat) (heq : (p.residentPages i).seq = (p.residentPages j).seq) :
    i = j := by
  have hnd := h.seq_nodup
  unfold Proc.residents live at hnd
  rw [List.map_map] at hnd
  exact List.inj_on_of_nodup_map hnd (List.mem_range.mpr hi) (List.mem_range.mpr hj) heq

theorem fifo_empty {p : Proc} (hn : p.numResident = 0) (hs : p.nextFifoSeq = 0) :
    Fifo p Queue.empty where
  nonneg := by omega
  perm := by
    unfold Proc.residents
    rw [hn]
    exact List.Perm.nil
  sorted := List.Pairwise.nil
  range _ he := nomatch he
  next := hs

/-- `add_to_resident_set` appends. -/
theorem Fifo.insert (h : Fifo p q) (hfits : q.count + 1 < 2147483648) (va : Nat) (b : Bool) :
    Fifo (p.insertResident va b)
      ⟨q.entries ++ [⟨va, wrap32 (p.nextFifoSeq + 1), b⟩], q.count + 1⟩ := by
  have hn := h.nonneg
  have hwrap : wrap32 (p.nextFifoSeq + 1) = (q.count : Int) + 1 := by
    rw [h.next]
    unfold wrap32
    omega
  refine ⟨?_, ?_, ?_, ?_, ?_⟩
  · show 0 ≤ p.numResident + 1
    omega
  · rw [residents_insertResident hn]
    exact h.perm.append_right _
  · refine List.pairwise_append.mpr ⟨h.sorted, List.pairwise_singleton _ _, ?_⟩
    intro e he e' he'
    rw [List.mem_singleton.mp he']
    have := (h.range e he).2
    show e.seq < wrap32 (p.nextFifoSeq + 1)
    omega
  · intro e he
    rcases List.mem_append.mp he with he | he
    · have := h.range e he
      push_cast
      omega
    · rw [List.mem_singleton.mp he]
      show 1 ≤ wrap32 (p.nextFifoSeq + 1) ∧ wrap32 (p.nextFifoSeq + 1) ≤ _
      push_cast
      omega
  · show wrap32 (p.nextFifoSeq + 1) = _
    push_cast
    omega

/-- **The victim is the head of the queue.** -/
theorem Fifo.victim_head (h : Fifo p q) (hpos : 0 < p.numResident) :
    ∃ rest, q.entries = p.victimPage :: rest := by
  have hmem : p.victimPage ∈ q.entries := h.perm.subset (victimPage_mem hpos)
  cases hq : q.entries with
  | nil => rw [hq] at hmem; cases hmem
  | cons e rest =>
      refine ⟨rest, ?_⟩
      have hsort := h.sorted
      rw [hq] at hsort hmem
      rcases List.mem_cons.mp hmem with heq | hin
      · rw [heq]
      · -- a later entry has a larger number, but the victim's is smallest
        exfalso
        have hgt := (List.pairwise_cons.mp hsort).1 _ hin
        obtain ⟨i, hi, hie⟩ : ∃ i, i < p.numResident.toNat ∧ p.residentPages i = e :=
          mem_live.mp (h.perm.symm.subset (by rw [hq]; exact List.mem_cons_self ..))
        have hle : p.victimPage.seq ≤ (p.residentPages i).seq := argmin_le _ _ hi
        rw [hie] at hle
        omega

/-- `evict_page` removes the head and nothing else. -/
theorem Fifo.remove (h : Fifo p q) (hpos : 0 < p.numResident) {rest : List ResidentPage}
    (hq : q.entries = p.victimPage :: rest) : Fifo p.dropVictim ⟨rest, q.count⟩ := by
  have hsort := h.sorted
  rw [hq] at hsort
  refine ⟨?_, ?_, (List.pairwise_cons.mp hsort).2,
    fun e he => h.range e (by rw [hq]; exact List.mem_cons_of_mem _ he), h.next⟩
  · show 0 ≤ p.numResident - 1
    omega
  · have hp := (residents_dropVictim hpos).trans h.perm
    rw [hq] at hp
    exact hp.cons_inv

/-- The minor fault marks one entry in place. -/
theorem Fifo.mark (h : Fifo p q) {i : Nat} (hi : i < p.numResident.toNat) :
    Fifo (p.markDirty i) ⟨q.entries.map (Queue.mark (p.residentPages i).seq), q.count⟩ := by
  have hseq : ∀ e, (Queue.mark (p.residentPages i).seq e).seq = e.seq := fun e => by
    unfold Queue.mark
    split <;> rfl
  have hlive : (p.markDirty i).residents =
      p.residents.map (Queue.mark (p.residentPages i).seq) := by
    unfold Proc.residents live
    rw [List.map_map]
    refine List.map_congr_left fun j hj => ?_
    show Function.update p.residentPages i _ j = Queue.mark _ (p.residentPages j)
    unfold Queue.mark
    rcases eq_or_ne j i with rfl | hne
    · rw [Function.update_self, if_pos rfl]
    · rw [Function.update_of_ne hne,
        if_neg fun heq => hne (h.seq_inj (List.mem_range.mp hj) hi heq)]
  refine ⟨h.nonneg, ?_, ?_, fun e he => ?_, h.next⟩
  · rw [hlive]
    exact h.perm.map _
  · refine List.pairwise_map.mpr (h.sorted.imp fun hlt => ?_)
    rw [hseq, hseq]
    exact hlt
  · obtain ⟨e', he', rfl⟩ := List.mem_map.mp he
    rw [hseq]
    exact h.range e' he'

end

/-! ## The code of a process follows its queue -/

def fifoLink : Link St Event :=
  simulates Queue.step Queue.fits Event.Nonempty (fun st q => Fifo st.p q) fun _ => True

theorem fifo_tables : TableRel fifoLink where
  composes := simulates_composes _ _ _ _ _
  same _ hs _ q h _ :=
    ⟨q, rfl, h.congr hs.numResident (fun _ _ => by rw [hs.residentPages]) hs.nextFifoSeq⟩
  emptyRet hw hA := absurd hA hw
  emptyExit hw hA := absurd hA hw
  emptyPanic hw hA := absurd hA hw
  exited _ _ _ q _ _ := ⟨q, rfl, trivial⟩
  stop _ _ _ q _ _ := ⟨q, rfl⟩
  observe _ e he _ q h _ := ⟨q, by cases e <;> first | rfl | exact he.elim, h⟩
  evict _ _ q h _ := ⟨q, rfl, h⟩
  swapOut _ _ _ _ _ _ _ _ q h _ := ⟨q, rfl, h.congr rfl (fun _ _ => rfl) rfl⟩
  swapFull _ _ := ⟨fun _ q _ _ => ⟨q, rfl, trivial⟩, fun _ _ q _ _ => ⟨q, rfl⟩⟩
  swapPanic _ _ _ _ _ q _ _ := ⟨q, rfl⟩
  swapFail _ _ _ _ _ _ _ _ := ⟨fun _ q _ _ => ⟨q, rfl, trivial⟩, fun _ _ q _ _ => ⟨q, rfl⟩⟩
  remove st hpos _ q h _ := by
    obtain ⟨rest, hq⟩ := h.victim_head hpos
    exact ⟨⟨rest, q.count⟩, replay_one (by simp [Queue.step, hq]), h.remove hpos hq⟩
  take st va _ q h _ := by
    refine ⟨q, rfl, ?_⟩
    show Fifo (st.p.takeSwapped va).2 q
    unfold Proc.takeSwapped
    split
    · exact h
    · exact h.congr rfl (fun _ _ => rfl) rfl
  insert st va b _ _ _ q h had := ⟨_, rfl, h.insert had.1 va b⟩
  insertNeg st p' va b hneg _ _ _ _ q h _ := absurd h.nonneg (by omega)
  mark st va i hi _ q h _ := ⟨_, rfl, h.mark (firstIdx_some hi).1⟩
  create _ _ _ _ _ _ q h _ := ⟨q, rfl, h.congr rfl (fun _ _ => rfl) rfl⟩
  commit _ _ _ _ _ := ⟨_, rfl, fifo_empty rfl rfl⟩
  env _ _ _ q h _ := ⟨q, rfl, h⟩

/-! ## Runs -/

/-- One queue per process slot; a fork copies the caller's. -/
def queuesStep (qs : Nat → Queue) : Nat × Event → Option (Nat → Queue)
  | (_, .alloc j) => some (Function.update qs j .empty)
  | (i, .forked j) => some (Function.update qs j (qs i))
  | (i, e) => ((qs i).step e).map (Function.update qs i)

def queuesFit (qs : Nat → Queue) (x : Nat × Event) : Prop := (qs x.1).fits x.2

theorem queuesStep_own (qs : Nat → Queue) (i : Nat) (e : Event) (q' : Queue)
    (h : (qs i).step e = some q') : queuesStep qs (i, e) = some (Function.update qs i q') := by
  unfold queuesStep
  split
  · rename_i heq
    cases heq
    cases h
  · rename_i heq
    cases heq
    cases h
  · rename_i heq
    cases heq
    rw [h]
    rfl

/-- Every live process follows its queue. -/
def FifoInv (k : Kern) (qs : Nat → Queue) : Prop := ∀ j, (k.proc j).Live → Fifo (k.proc j) (qs j)

theorem Fifo.forkFrom {p : Proc} {q : Queue} (h : Fifo p q) (np : Proc) (i : Nat) :
    Fifo (np.forkFrom p i) q :=
  h.congr rfl (fun j hj => if_pos (by have := h.nonneg; omega)) rfl

theorem fifo_step {k k' : Kern} {i : Nat} {w : List Event} {qs : Nat → Queue}
    (hi : (k.proc i).state = .runnable) (hw : ∀ e ∈ w, e.Nonempty) (hk : FifoInv k qs)
    (had : Admits queuesStep queuesFit (w.map (Prod.mk i)) qs) (h : KShape fifoLink k i w k') :
    ∃ qs', replay queuesStep (w.map (Prod.mk i)) qs = some qs' ∧ FifoInv k' qs' := by
  have hlive : (k.proc i).Live := by simp [Proc.Live, hi]
  have hown := admits_party queuesStep_own (fun _ _ _ h => h) had
  cases h with
  | own hT hst =>
      obtain ⟨q', hq', hok⟩ := hT hw (qs i) (hk i hlive) hown
      refine ⟨_, replay_party queuesStep_own hq', fun j hj => ?_⟩
      rcases eq_or_ne j i with rfl | hne
      · rwa [Kern.put_self, Function.update_self]
      · rw [Kern.put_ne k hne] at hj ⊢
        rw [Function.update_of_ne hne]
        exact hk j hj
  | @exit w st hT hst =>
      obtain ⟨q', hq', -⟩ := hT hw (qs i) (hk i hlive) hown
      refine ⟨_, replay_party queuesStep_own hq', fun j hj => ?_⟩
      obtain ⟨par, hpar⟩ := reparent_proc i (k.put i st) j
      rw [hpar] at hj ⊢
      rcases eq_or_ne j i with rfl | hne
      · rw [Kern.put_self] at hj
        exact absurd hst hj.2
      · rw [Kern.put_ne k hne] at hj ⊢
        rw [Function.update_of_ne hne]
        exact (hk j hj).congr rfl (fun _ _ => rfl) rfl
  | @forkFail j s hj hc =>
      refine ⟨_, rfl, fun j' hj' => ?_⟩
      rcases eq_or_ne j' j with rfl | hne
      · rw [Kern.setProc_self] at hj'
        exact absurd rfl hj'.1
      · rw [Kern.setProc_ne _ hne] at hj' ⊢
        rw [Function.update_of_ne hne]
        exact hk j' hj'
  | @fork j s tf root hj hc =>
      have hij : i ≠ j := by
        rintro rfl
        rw [hi] at hj
        cases hj
      refine ⟨_, rfl, fun j' hj' => ?_⟩
      rcases eq_or_ne j' j with rfl | hne
      · rw [Kern.setProc_self, Function.update_self, Function.update_of_ne hij]
        exact (hk i hlive).forkFrom _ _
      · rw [Kern.setProc_ne _ hne] at hj' ⊢
        rw [Function.update_of_ne hne, Function.update_of_ne hne]
        exact hk j' hj'
  | @reap w st j s hT hst hj hc =>
      obtain ⟨q', hq', hok⟩ := hT hw (qs i) (hk i hlive) hown
      refine ⟨_, replay_party queuesStep_own hq', fun j' hj' => ?_⟩
      rcases eq_or_ne j' j with rfl | hne
      · rw [Kern.setProc_self] at hj'
        exact absurd rfl hj'.1
      · rw [Kern.setProc_ne _ hne] at hj' ⊢
        change ((k.put i st).proc j').Live at hj'
        show Fifo ((k.put i st).proc j') _
        rcases eq_or_ne j' i with rfl | hne'
        · rwa [Kern.put_self, Function.update_self]
        · rw [Kern.put_ne k hne'] at hj' ⊢
          rw [Function.update_of_ne hne']
          exact hk j' hj'

/-- The queues follow every run. -/
theorem Run.fifo {k : Kern} {tr : List (Nat × Event)} (h : Run EvictsNonempty k tr)
    (had : Admits queuesStep queuesFit tr fun _ => .empty) :
    ∃ qs, replay queuesStep tr (fun _ => .empty) = some qs ∧ FifoInv k qs := by
  induction h with
  | @boot k₀ k w hf hx =>
      obtain ⟨j, s, tf, root, -, rfl, rfl⟩ := (userinit_shape k₀).of_ret hx
      refine ⟨_, rfl, fun j' hj' => ?_⟩
      rcases eq_or_ne j' j with rfl | hne
      · rw [Kern.setProc_self, Function.update_self]
        exact fifo_empty rfl rfl
      · rw [Kern.setProc_ne _ hne] at hj'
        have hz : (k₀.bump.withSys s).proc j' = Proc.zero := hf.proc j'
        rw [hz] at hj'
        exact absurd rfl hj'.1
  | @step k k' i op w tr _ hs hw ih =>
      obtain ⟨had₁, had₂⟩ := admits_append had
      obtain ⟨qs, hqs, hinv⟩ := ih had₁
      have hi : (k.proc i).state = .runnable := by cases hs <;> assumption
      obtain ⟨qs', hqs', hinv'⟩ :=
        fifo_step hi hw hinv (had₂ qs hqs) (hs.shape fifo_tables hw)
      exact ⟨qs', by rw [replay_append, hqs]; exact hqs', hinv'⟩

/-- **`evict_page` is first-in first-out.** Along every run, the entries
that leave a resident list leave it from the head of a queue that they
entered at the end; forks continue with a copy of the caller's queue, and
`kexec` and `allocproc` start an empty one. In the state that is reached
the list of a live process holds the entries of its queue, with distinct
numbers from 1 to `next_fifo_seq`. The last part continues the replay
through one more step, whether it returns, exits or panics. -/
theorem evict_is_fifo {k : Kern} {tr : List (Nat × Event)} (h : Run EvictsNonempty k tr)
    (had : Admits queuesStep queuesFit tr fun _ => .empty) :
    ∃ qs, replay queuesStep tr (fun _ => .empty) = some qs ∧
      (∀ i, (k.proc i).Live → (k.proc i).residents.Perm (qs i).entries ∧
        ((k.proc i).residents.map ResidentPage.seq).Nodup ∧
        (∀ e ∈ (k.proc i).residents, 1 ≤ e.seq ∧ e.seq ≤ (k.proc i).nextFifoSeq) ∧
        (0 < (k.proc i).numResident → ∃ rest, (qs i).entries = (k.proc i).victimPage :: rest ∧
          (k.proc i).dropVictim.residents.Perm rest)) ∧
      ∀ i op, (k.proc i).state = .runnable → (∀ e ∈ (kstep i op k).events, e.Nonempty) →
        Admits queuesStep queuesFit ((kstep i op k).events.map (Prod.mk i)) qs →
        ∃ qs', replay queuesStep ((kstep i op k).events.map (Prod.mk i)) qs = some qs' := by
  obtain ⟨qs, hqs, hinv⟩ := h.fifo had
  refine ⟨qs, hqs, fun i hlive => ?_, fun i op hi => ?_⟩
  · have hp := hinv i hlive
    refine ⟨hp.perm, hp.seq_nodup, fun e he => ?_, fun hpos => ?_⟩
    · rw [hp.next]
      exact hp.range e (hp.perm.subset he)
    · obtain ⟨rest, hq⟩ := hp.victim_head hpos
      exact ⟨rest, hq, (hp.remove hpos hq).perm⟩
  · have hret : ∀ k' w, ((∀ e ∈ w, e.Nonempty) → KShape fifoLink k i w k') →
        (∀ e ∈ w, e.Nonempty) → Admits queuesStep queuesFit (w.map (Prod.mk i)) qs →
        ∃ qs', replay queuesStep (w.map (Prod.mk i)) qs = some qs' := fun k' w hsh hw had' =>
      let ⟨qs', hqs', _⟩ := fifo_step hi hw hinv had' (hsh hw)
      ⟨qs', hqs'⟩
    refine (kstep_shape fifo_tables hi op).events (fun _ k' w => hret k' w)
      (fun k' w => hret _ w) fun _ w hp hw had' => ?_
    rcases hp with hp | ⟨j, -, rfl⟩
    · have hlive : (k.proc i).Live := by simp [Proc.Live, hi]
      obtain ⟨q', hq'⟩ := hp hw (qs i) (hinv i hlive)
        (admits_party queuesStep_own (fun _ _ _ h => h) had')
      exact ⟨_, replay_party queuesStep_own hq'⟩
    · exact ⟨_, rfl⟩

instance (qs : Nat → Queue) (x : Nat × Event) : Decidable (queuesFit qs x) :=
  inferInstanceAs (Decidable ((qs x.1).fits x.2))

/-- The child of a fork evicts the page its parent touched first. -/
theorem evict_is_fifo_forkRun : ∃ k tr qs, Run EvictsNonempty k tr ∧
    replay queuesStep tr (fun _ => .empty) = some qs ∧
    ((k.proc 0).residents.map ResidentPage.va = [28672, 32768]) ∧
    ((k.proc 1).residents.map ResidentPage.va = [32768, 36864]) ∧
    (k.proc 1).residents.Perm (qs 1).entries := by
  obtain ⟨k, tr, hk, hp⟩ := Run.of_check EvictsNonempty smallKern_fresh forkRun
    (fun k tr => decide (Admits queuesStep queuesFit tr (fun _ => .empty) ∧ (k.proc 1).Live ∧
      (k.proc 0).residents.map ResidentPage.va = [28672, 32768] ∧
      (k.proc 1).residents.map ResidentPage.va = [32768, 36864])) (by decide +kernel)
  obtain ⟨had, hlive, h0, h1⟩ := of_decide_eq_true hp
  obtain ⟨qs, hqs, hfifo, -⟩ := evict_is_fifo hk had
  exact ⟨k, tr, qs, hk, hqs, h0, h1, (hfifo 1 hlive).1⟩

end OsSuite.Xv6
