import OsSuite.Lib.Ring
import OsSuite.Lib.Turns

/-!
# Pipe — lossless streams

`pipe.c`. A pipe is a ring of `PIPESIZE` bytes between two counters that
run free and wrap at `2^32`. A turn is what a process does between
getting `pi->lock` and giving it up, by returning or by sleeping; a
sleeper may be woken at any time. What a turn meets on the way — that the
process has been killed, or that the copy of a byte fails — is part of its
label (`PipeEnv`).

Two histories record the bytes accepted from writers and delivered to
readers, each with the number of the call that did it; no turn looks at
them.
-/

namespace OsSuite.Xv6

/-- `PIPESIZE` -/
def pipesize : Nat := 512

/-- `struct pipe` -/
structure Pipe where
  data : Nat → UInt8
  nread : UInt32
  nwrite : UInt32
  readopen : Bool
  writeopen : Bool

/-- The pipe of `pipealloc`, over a page with some contents. -/
def Pipe.init (data : Nat → UInt8) : Pipe := ⟨data, 0, 0, true, true⟩

/-- What a turn meets: `killed(pr)`, `copyin` and `copyout` of byte `i`. -/
structure PipeEnv where
  killed : Nat → Bool
  copyin : Nat → Option UInt8
  copyout : Nat → Bool

namespace Pipe

/-- `pi->data[pi->nwrite++ % PIPESIZE] = ch` -/
def push (pi : Pipe) (ch : UInt8) : Pipe :=
  { pi with
    data := Function.update pi.data (pi.nwrite.toNat % pipesize) ch, nwrite := pi.nwrite + 1 }

/-- `pi->data[pi->nread % PIPESIZE]` -/
def front (pi : Pipe) : UInt8 := pi.data (pi.nread.toNat % pipesize)

/-- `pi->nread++` -/
def pop (pi : Pipe) : Pipe := { pi with nread := pi.nread + 1 }

/-- `pi->nwrite == pi->nread + PIPESIZE` -/
def full (pi : Pipe) : Bool := pi.nwrite == pi.nread + 512

/-- `pi->nread == pi->nwrite` -/
def empty (pi : Pipe) : Bool := pi.nread == pi.nwrite

/-- `pipeclose(pi, writable)`; the page is freed when both ends are
closed. -/
def close (pi : Pipe) (writable : Bool) : Pipe :=
  if writable then { pi with writeopen := false } else { pi with readopen := false }

def freed (pi : Pipe) : Bool := !pi.readopen && !pi.writeopen

end Pipe

/-- How a turn ends: asleep with byte `i` to come, or with a result. -/
inductive PipeStop where
  | sleep (i : Nat)
  | ret (r : Int)
  deriving DecidableEq, Repr

/-- The loop of `pipewrite` with `n - i` bytes to go: the pipe, the bytes
accepted, and how the turn ends. -/
def pipewriteLoop (e : PipeEnv) : Nat → Pipe → Nat → Pipe × List UInt8 × PipeStop
  | 0, pi, i => (pi, [], .ret i)
  | k + 1, pi, i =>
      if !pi.readopen || e.killed i then (pi, [], .ret (-1))
      else if pi.full then (pi, [], .sleep i)
      else
        match e.copyin i with
        | none => (pi, [], .ret i)
        | some ch =>
            let r := pipewriteLoop e k (pi.push ch) (i + 1)
            (r.1, ch :: r.2.1, r.2.2)

/-- The copy loop of `piperead` with `n - i` bytes to go: the pipe, the
bytes delivered, and the result. -/
def pipereadLoop (e : PipeEnv) : Nat → Pipe → Nat → Pipe × List UInt8 × Int
  | 0, pi, i => (pi, [], i)
  | k + 1, pi, i =>
      if pi.empty then (pi, [], i)
      else if e.copyout i then
        let r := pipereadLoop e k pi.pop (i + 1)
        (r.1, pi.front :: r.2.1, r.2.2)
      else (pi, [], if i = 0 then -1 else i)

/-- A turn of `pipewrite(pi, addr, n)` that starts with byte `i`. -/
def pipewrite (e : PipeEnv) (n : Int) (i : Nat) (pi : Pipe) : Pipe × List UInt8 × PipeStop :=
  pipewriteLoop e (n - i).toNat pi i

/-- A turn of `piperead(pi, addr, n)`; a reader sleeps before it has read
anything. -/
def piperead (e : PipeEnv) (n : Int) (pi : Pipe) : Pipe × List UInt8 × PipeStop :=
  if pi.empty && pi.writeopen then
    if e.killed 0 then (pi, [], .ret (-1)) else (pi, [], .sleep 0)
  else
    let r := pipereadLoop e n.toNat pi 0
    (r.1, r.2.1, .ret r.2.2)

/-! ## Readers and writers -/

/-- A call in which a process sleeps. -/
structure PipeCall where
  /-- The number of the call. -/
  id : Nat
  write : Bool
  n : Int
  /-- Bytes done. -/
  i : Nat
  deriving DecidableEq, Repr

/-- A call that returned. -/
structure PipeRet where
  id : Nat
  write : Bool
  result : Int
  deriving DecidableEq, Repr

structure PipeSys (ι : Type) where
  pi : Pipe
  call : ι → Option PipeCall
  /-- Calls made so far. -/
  calls : Nat
  accepted : List (Nat × UInt8)
  delivered : List (Nat × UInt8)
  returns : List PipeRet

/-- `call` is a new system call, `wake` the return from `sleep`. -/
inductive PipeTurn (ι : Type) where
  | call (p : ι) (write : Bool) (n : Int) (e : PipeEnv)
  | wake (p : ι) (e : PipeEnv)
  | pipeclose (writable : Bool)

namespace PipeSys

variable {ι : Type} [DecidableEq ι]

def boot (data : Nat → UInt8) : PipeSys ι := ⟨.init data, fun _ => none, 0, [], [], []⟩

/-- One turn of a call. -/
def work (e : PipeEnv) (c : PipeCall) (pi : Pipe) : Pipe × List UInt8 × PipeStop :=
  if c.write then pipewrite e c.n c.i pi else piperead e c.n pi

/-- Run a turn of call `c` of process `p`. -/
def run (s : PipeSys ι) (p : ι) (e : PipeEnv) (c : PipeCall) : PipeSys ι :=
  let r := work e c s.pi
  let bytes := r.2.1.map fun b => (c.id, b)
  { s with
    pi := r.1
    accepted := if c.write then s.accepted ++ bytes else s.accepted
    delivered := if c.write then s.delivered else s.delivered ++ bytes
    call := Function.update s.call p
      (match r.2.2 with | .sleep i => some { c with i := i } | .ret _ => none)
    returns := match r.2.2 with
      | .sleep _ => s.returns
      | .ret x => s.returns ++ [⟨c.id, c.write, x⟩] }

/-- A turn; nobody has a freed pipe. -/
def step (s : PipeSys ι) (t : PipeTurn ι) : Turn (PipeSys ι) :=
  if s.pi.freed then .wait
  else
    match t with
    | .call p write n e =>
        if s.call p = none then
          .go ({ s with calls := s.calls + 1 }.run p e ⟨s.calls, write, n, 0⟩)
        else .wait
    | .wake p e =>
        match s.call p with
        | none => .wait
        | some c => .go (s.run p e c)
    | .pipeclose writable => .go { s with pi := s.pi.close writable }

end PipeSys

/-! ## The ring -/

/-- The pipe holds the bytes `q`, oldest first. -/
structure Pipe.Holds (pi : Pipe) (q : List UInt8) : Prop where
  count : (pi.nwrite - pi.nread).toNat = q.length
  le : q.length ≤ pipesize
  ring : ring pipesize pi.data pi.nread.toNat q.length = q

namespace Pipe.Holds

variable {pi : Pipe} {q : List UInt8}

theorem init (data : Nat → UInt8) : (Pipe.init data).Holds [] :=
  ⟨by simp [Pipe.init], by decide, rfl⟩

theorem empty_iff (h : pi.Holds q) : pi.empty = true ↔ q = [] := by
  rw [Pipe.empty, beq_iff_eq, ← List.length_eq_zero_iff, ← h.count]
  constructor
  · intro he
    rw [he, UInt32.sub_self]
    rfl
  · intro h0
    have := UInt32.toNat_sub pi.nwrite pi.nread
    have := pi.nwrite.toNat_lt
    have := pi.nread.toNat_lt
    exact UInt32.toNat_inj.mp (by omega)

theorem full_iff (h : pi.Holds q) : pi.full = true ↔ q.length = pipesize := by
  have hsub := UInt32.toNat_sub pi.nwrite pi.nread
  have hadd := UInt32.toNat_add pi.nread 512
  have hlit : (512 : UInt32).toNat = 512 := rfl
  have hw := pi.nwrite.toNat_lt
  have hr := pi.nread.toNat_lt
  rw [Pipe.full, beq_iff_eq, ← h.count, ← UInt32.toNat_inj, pipesize]
  omega

/-- **A byte that is written comes last.** -/
theorem push (h : pi.Holds q) (hfull : pi.full = false) (ch : UInt8) :
    (pi.push ch).Holds (q ++ [ch]) := by
  have hlt : q.length < pipesize := by
    have := h.full_iff
    have := h.le
    rw [hfull] at *
    simp only [Bool.false_eq_true, false_iff] at *
    omega
  have hsub := UInt32.toNat_sub pi.nwrite pi.nread
  have hw := pi.nwrite.toNat_lt
  have hr := pi.nread.toNat_lt
  have hcount := h.count
  refine ⟨?_, by rw [List.length_append]; exact hlt, ?_⟩
  · have hsub' := UInt32.toNat_sub (pi.nwrite + 1) pi.nread
    have hadd := UInt32.toNat_add pi.nwrite 1
    have hlit : (1 : UInt32).toNat = 1 := rfl
    simp only [Pipe.push, List.length_append, List.length_singleton, pipesize] at *
    omega
  · -- the counters differ by a multiple of 2^32, which the ring does not see
    have hcell : pi.nwrite.toNat % pipesize = (pi.nread.toNat + q.length) % pipesize := by
      simp only [pipesize] at *
      omega
    simp only [Pipe.push, List.length_append, List.length_singleton]
    rw [hcell, ring_push hlt, h.ring]

/-- **A byte that is read is the oldest.** -/
theorem pop (h : pi.Holds q) (hempty : pi.empty = false) :
    ∃ rest, q = pi.front :: rest ∧ pi.pop.Holds rest := by
  cases q with
  | nil => simp [h.empty_iff.mpr rfl] at hempty
  | cons b rest =>
      have hring := h.ring
      rw [List.length_cons, ring_pop] at hring
      obtain ⟨hb, hrest⟩ := List.cons.inj hring
      have hcount := h.count
      have hle := h.le
      have hsub := UInt32.toNat_sub pi.nwrite pi.nread
      have hsub' := UInt32.toNat_sub pi.nwrite (pi.nread + 1)
      have hadd := UInt32.toNat_add pi.nread 1
      have hlit : (1 : UInt32).toNat = 1 := rfl
      have hw := pi.nwrite.toNat_lt
      have hr := pi.nread.toNat_lt
      rw [List.length_cons] at hcount hle
      refine ⟨rest, by rw [Pipe.front, hb], ?_, by omega, ?_⟩
      · simp only [Pipe.pop]
        omega
      · simp only [Pipe.pop]
        exact (ring_congr (by rw [hadd, hlit, Nat.ModEq, pipesize]; omega)).trans hrest

theorem close (h : pi.Holds q) (writable : Bool) : (pi.close writable).Holds q := by
  cases writable <;> exact ⟨h.count, h.le, h.ring⟩

end Pipe.Holds

/-- A turn that ends with `m` bytes done in all says so, unless it
reports an error. -/
def PipeStop.Counts (m : Nat) : PipeStop → Prop
  | .sleep i => i = m
  | .ret r => 0 ≤ r → r = m

theorem pipewriteLoop_spec (e : PipeEnv) {k : Nat} : ∀ {pi : Pipe} {i : Nat} {q : List UInt8},
    pi.Holds q → (pipewriteLoop e k pi i).1.Holds (q ++ (pipewriteLoop e k pi i).2.1) ∧
      (pipewriteLoop e k pi i).2.2.Counts (i + (pipewriteLoop e k pi i).2.1.length) := by
  induction k with
  | zero =>
      intro pi i q h
      exact ⟨by simpa [pipewriteLoop] using h, fun _ => rfl⟩
  | succ k ih =>
      intro pi i q h
      unfold pipewriteLoop
      split
      · exact ⟨by simpa using h, fun h0 => by omega⟩
      · split
        · exact ⟨by simpa using h, rfl⟩
        · rename_i hfull
          split
          · exact ⟨by simpa using h, fun _ => rfl⟩
          · rename_i ch _
            obtain ⟨hholds, hcounts⟩ := @ih (pi.push ch) (i + 1) (q ++ [ch])
              (h.push (by simpa using hfull) ch)
            refine ⟨by simpa using hholds, ?_⟩
            simpa [Nat.add_assoc, Nat.add_comm 1] using hcounts

/-- What the copy loop of `piperead` does; byte `k` is not consumed if
its copy fails. -/
structure ReadPost (e : PipeEnv) (i : Nat) (q : List UInt8) (r : Pipe × List UInt8 × Int) :
    Prop where
  stream : ∃ rest, q = r.2.1 ++ rest ∧ r.1.Holds rest
  counts : 0 ≤ r.2.2 → r.2.2 = i + r.2.1.length
  failed : ∀ k, i ≤ k → e.copyout k = false → i + r.2.1.length ≤ k

theorem pipereadLoop_spec (e : PipeEnv) {k : Nat} : ∀ {pi : Pipe} {i : Nat} {q : List UInt8},
    pi.Holds q → ReadPost e i q (pipereadLoop e k pi i) := by
  induction k with
  | zero =>
      intro pi i q h
      exact ⟨⟨q, rfl, h⟩, fun _ => by simp [pipereadLoop], fun _ hk _ => by simpa [pipereadLoop]⟩
  | succ k ih =>
      intro pi i q h
      unfold pipereadLoop
      split
      · exact ⟨⟨q, rfl, h⟩, fun _ => by simp, fun _ hk _ => by simpa⟩
      · rename_i hempty
        split
        · rename_i hok
          obtain ⟨rest, rfl, hpop⟩ := h.pop (by simpa using hempty)
          obtain ⟨⟨rest', rfl, hrest⟩, hcounts, hfailed⟩ := @ih pi.pop (i + 1) rest hpop
          refine ⟨⟨rest', rfl, hrest⟩, fun h0 => ?_, fun j hj hno => ?_⟩
          · have := hcounts h0
            simp only [List.length_cons]
            omega
          · have hne : j ≠ i := fun he => by simp [he, hok] at hno
            have := hfailed j (by omega) hno
            simp only [List.length_cons]
            omega
        · refine ⟨⟨q, rfl, h⟩, fun h0 => ?_, fun _ hk _ => by simpa⟩
          by_cases hi : i = 0
          · simp [hi] at h0
          · simp [hi]

theorem piperead_spec (e : PipeEnv) (n : Int) {pi : Pipe} {q : List UInt8} (h : pi.Holds q) :
    (∃ rest, q = (piperead e n pi).2.1 ++ rest ∧ (piperead e n pi).1.Holds rest) ∧
      (piperead e n pi).2.2.Counts (piperead e n pi).2.1.length ∧
      ∀ k, e.copyout k = false → (piperead e n pi).2.1.length ≤ k := by
  unfold piperead
  split
  · split
    · exact ⟨⟨q, rfl, h⟩, fun h0 => by omega, fun _ _ => by simp⟩
    · exact ⟨⟨q, rfl, h⟩, rfl, fun _ _ => by simp⟩
  · obtain ⟨hstream, hcounts, hfailed⟩ := @pipereadLoop_spec e n.toNat pi 0 q h
    exact ⟨hstream, by simpa [PipeStop.Counts] using hcounts,
      fun k hk => by simpa using hfailed k (Nat.zero_le k) hk⟩

/-- A reader that sleeps has not read anything. -/
theorem piperead_sleep {e : PipeEnv} {n : Int} {pi : Pipe} {i : Nat}
    (h : (piperead e n pi).2.2 = .sleep i) : i = 0 := by
  unfold piperead at h
  split at h
  · split at h
    · cases h
    · cases h
      rfl
  · cases h

/-! ## Whole runs -/

namespace PipeSys

variable {ι : Type} [DecidableEq ι]

/-- The bytes of one call in a history. -/
def count (h : List (Nat × UInt8)) (id : Nat) : Nat := h.countP (·.1 == id)

/-- The bytes that a call has accepted or delivered. -/
def tally (s : PipeSys ι) (write : Bool) (id : Nat) : Nat :=
  count (if write then s.accepted else s.delivered) id

/-- A call in progress. -/
structure Fits (s : PipeSys ι) (c : PipeCall) : Prop where
  made : c.id < s.calls
  read : c.write = false → c.i = 0
  done : s.tally c.write c.id = c.i
  open_ : ∀ r ∈ s.returns, r.id ≠ c.id

structure Inv (s : PipeSys ι) : Prop where
  stream : ∃ q, s.pi.Holds q ∧ s.accepted.map Prod.snd = s.delivered.map Prod.snd ++ q
  asleep : ∀ p c, s.call p = some c → s.Fits c
  distinct : ∀ p q c d, s.call p = some c → s.call q = some d → c.id = d.id → p = q
  accepted : ∀ b ∈ s.accepted, b.1 < s.calls
  delivered : ∀ b ∈ s.delivered, b.1 < s.calls
  returned : ∀ r ∈ s.returns, r.id < s.calls ∧ (0 ≤ r.result → r.result = s.tally r.write r.id)

omit [DecidableEq ι] in
theorem inv_boot (data : Nat → UInt8) : (boot data : PipeSys ι).Inv :=
  ⟨⟨[], .init data, rfl⟩, nofun, nofun, nofun, nofun, nofun⟩

theorem count_append (h h' : List (Nat × UInt8)) (id : Nat) :
    count (h ++ h') id = count h id + count h' id := List.countP_append

theorem count_tag (bs : List UInt8) (id id' : Nat) :
    count (bs.map fun b => (id, b)) id' = if id = id' then bs.length else 0 := by
  induction bs with
  | nil => simp [count]
  | cons b bs ih =>
      simp only [count, List.map_cons, List.countP_cons] at ih ⊢
      rw [ih]
      by_cases h : id = id' <;> simp [h]

/-- A number that was not given yet has no bytes. -/
theorem count_eq_zero {h : List (Nat × UInt8)} {n : Nat} (hlt : ∀ b ∈ h, b.1 < n) :
    count h n = 0 := by
  rw [count, List.countP_eq_zero]
  intro b hb
  have := hlt b hb
  simp
  omega

section
variable {s s' : PipeSys ι} {p : ι} {e : PipeEnv} {c : PipeCall}

/-- The tally of the call that runs grows by the bytes of the turn. -/
theorem tally_run_self : (s.run p e c).tally c.write c.id =
    s.tally c.write c.id + (work e c s.pi).2.1.length := by
  unfold tally run
  cases c.write <;> simp [count_append, count_tag]

/-- No other tally changes. -/
theorem tally_run_ne {write : Bool} {id : Nat} (h : id ≠ c.id) :
    (s.run p e c).tally write id = s.tally write id := by
  unfold tally run
  cases write <;> cases c.write <;> simp [count_append, count_tag, Ne.symm h]

/-- The bytes of a turn go to one history, and into or out of the pipe. -/
theorem stream_run (h : ∃ q, s.pi.Holds q ∧
      s.accepted.map Prod.snd = s.delivered.map Prod.snd ++ q) :
    (∃ q, (s.run p e c).pi.Holds q ∧
      (s.run p e c).accepted.map Prod.snd = (s.run p e c).delivered.map Prod.snd ++ q) := by
  obtain ⟨q, hq, heq⟩ := h
  unfold run work
  cases c.write with
  | true =>
      refine ⟨q ++ (pipewrite e c.n c.i s.pi).2.1, (pipewriteLoop_spec e hq).1, ?_⟩
      simp [heq, Function.comp_def]
  | false =>
      obtain ⟨⟨rest, hbytes, hrest⟩, -, -⟩ := piperead_spec e c.n hq
      refine ⟨rest, hrest, ?_⟩
      simp only [Bool.false_eq_true, if_false, List.map_append, List.map_map, Function.comp_def,
        List.map_id', List.append_assoc]
      rw [heq, ← hbytes]

/-- How the turn ends says how many bytes the call has done. -/
theorem counts_run (hq : ∃ q, s.pi.Holds q ∧
      s.accepted.map Prod.snd = s.delivered.map Prod.snd ++ q) (hc : s.Fits c) :
    (work e c s.pi).2.2.Counts ((s.run p e c).tally c.write c.id) := by
  obtain ⟨q, hq, -⟩ := hq
  rw [tally_run_self, hc.done]
  unfold work
  cases hw : c.write with
  | true => exact (pipewriteLoop_spec e hq).2
  | false => simpa [hc.read hw] using (piperead_spec e c.n hq).2.1

/-- The two endings of a turn. -/
theorem run_ends (s : PipeSys ι) (p : ι) (e : PipeEnv) (c : PipeCall) :
    (∃ i, (work e c s.pi).2.2 = .sleep i ∧ (s.run p e c).returns = s.returns ∧
      (s.run p e c).call = Function.update s.call p (some { c with i := i })) ∨
    ∃ x, (work e c s.pi).2.2 = .ret x ∧
      (s.run p e c).returns = s.returns ++ [⟨c.id, c.write, x⟩] ∧
      (s.run p e c).call = Function.update s.call p none := by
  cases h : (work e c s.pi).2.2 with
  | sleep i => exact .inl ⟨i, rfl, by simp [run, h], by simp [run, h]⟩
  | ret x => exact .inr ⟨x, rfl, by simp [run, h], by simp [run, h]⟩

theorem mem_history_run (hc : c.id < s.calls) :
    ((∀ b ∈ s.accepted, b.1 < s.calls) → ∀ b ∈ (s.run p e c).accepted, b.1 < s.calls) ∧
      ((∀ b ∈ s.delivered, b.1 < s.calls) → ∀ b ∈ (s.run p e c).delivered, b.1 < s.calls) := by
  have hbytes : ∀ b ∈ (work e c s.pi).2.1.map fun b => (c.id, b), b.1 < s.calls := by
    intro b hb
    obtain ⟨x, -, rfl⟩ := List.mem_map.mp hb
    exact hc
  unfold run
  cases c.write with
  | true =>
      exact ⟨fun h b hb => (List.mem_append.mp hb).elim (h b) (hbytes b), fun h => h⟩
  | false =>
      exact ⟨fun h => h, fun h b hb => (List.mem_append.mp hb).elim (h b) (hbytes b)⟩

/-- A call that another process sleeps in is not affected. -/
theorem Fits.run_ne {d : PipeCall} (hd : s.Fits d) (hne : d.id ≠ c.id) : (s.run p e c).Fits d := by
  refine ⟨hd.made, hd.read, by rw [tally_run_ne hne, hd.done], fun r hr => ?_⟩
  rcases run_ends s p e c with ⟨i, -, hret, -⟩ | ⟨x, -, hret, -⟩ <;> rw [hret] at hr
  · exact hd.open_ r hr
  · rcases List.mem_append.mp hr with hr | hr
    · exact hd.open_ r hr
    · rw [List.mem_singleton.mp hr]
      exact Ne.symm hne

theorem Inv.run (h : s.Inv) (hc : s.Fits c)
    (hother : ∀ q d, q ≠ p → s.call q = some d → d.id ≠ c.id) : (s.run p e c).Inv := by
  have hcounts := counts_run (p := p) (e := e) h.stream hc
  have hmem := mem_history_run (p := p) (e := e) hc.made
  have hkeep : ∀ r ∈ s.returns, r.id < s.calls ∧
      (0 ≤ r.result → r.result = (s.run p e c).tally r.write r.id) := fun r hr => by
    rw [tally_run_ne (hc.open_ r hr)]
    exact h.returned r hr
  rcases run_ends s p e c with ⟨i, hstop, hret, hcall⟩ | ⟨x, hstop, hret, hcall⟩
  all_goals rw [hstop] at hcounts
  · -- the process sleeps
    have hself : (s.run p e c).Fits { c with i := i } := by
      refine ⟨hc.made, fun hw => ?_, hcounts.symm, fun r hr => hc.open_ r (hret ▸ hr)⟩
      simp only [work, show c.write = false from hw, Bool.false_eq_true, if_false] at hstop
      exact piperead_sleep hstop
    refine ⟨stream_run h.stream, fun q d hq => ?_, fun q r d d' hq hr hid => ?_,
      hmem.1 h.accepted, hmem.2 h.delivered, fun r hr => hkeep r (hret ▸ hr)⟩
    · rw [hcall] at hq
      by_cases hqp : q = p
      · subst hqp
        rw [Function.update_self] at hq
        cases hq
        exact hself
      · rw [Function.update_of_ne hqp] at hq
        exact (h.asleep q d hq).run_ne (hother q d hqp hq)
    · rw [hcall] at hq hr
      by_cases hqp : q = p <;> by_cases hrp : r = p
      · rw [hqp, hrp]
      · subst hqp
        rw [Function.update_self] at hq
        rw [Function.update_of_ne hrp] at hr
        cases hq
        exact absurd hid.symm (hother r d' hrp hr)
      · subst hrp
        rw [Function.update_of_ne hqp] at hq
        rw [Function.update_self] at hr
        cases hr
        exact absurd hid (hother q d hqp hq)
      · rw [Function.update_of_ne hqp] at hq
        rw [Function.update_of_ne hrp] at hr
        exact h.distinct q r d d' hq hr hid
  · -- the call returns
    have hsleep : ∀ q d, (s.run p e c).call q = some d → q ≠ p ∧ s.call q = some d := by
      intro q d hq
      rw [hcall] at hq
      by_cases hqp : q = p
      · subst hqp
        rw [Function.update_self] at hq
        cases hq
      · rw [Function.update_of_ne hqp] at hq
        exact ⟨hqp, hq⟩
    refine ⟨stream_run h.stream, fun q d hq => ?_, fun q r d d' hq hr hid => ?_,
      hmem.1 h.accepted, hmem.2 h.delivered, fun r hr => ?_⟩
    · obtain ⟨hqp, hq⟩ := hsleep q d hq
      exact (h.asleep q d hq).run_ne (hother q d hqp hq)
    · exact h.distinct q r d d' (hsleep q d hq).2 (hsleep r d' hr).2 hid
    · rw [hret] at hr
      rcases List.mem_append.mp hr with hr | hr
      · exact hkeep r hr
      · rw [List.mem_singleton.mp hr]
        exact ⟨hc.made, hcounts⟩

omit [DecidableEq ι] in
/-- The number of a new call is unused. -/
theorem Inv.fits_new (h : s.Inv) (write : Bool) (n : Int) :
    ({ s with calls := s.calls + 1 } : PipeSys ι).Fits ⟨s.calls, write, n, 0⟩ := by
  refine ⟨Nat.lt_succ_self _, fun _ => rfl, ?_, fun r hr => ?_⟩
  · cases write
    · exact count_eq_zero h.delivered
    · exact count_eq_zero h.accepted
  · exact Nat.ne_of_lt (h.returned r hr).1

omit [DecidableEq ι] in
theorem Inv.new (h : s.Inv) : ({ s with calls := s.calls + 1 } : PipeSys ι).Inv where
  stream := h.stream
  asleep p c hc := by
    have := h.asleep p c hc
    exact ⟨Nat.lt_succ_of_lt this.made, this.read, this.done, this.open_⟩
  distinct := h.distinct
  accepted b hb := Nat.lt_succ_of_lt (h.accepted b hb)
  delivered b hb := Nat.lt_succ_of_lt (h.delivered b hb)
  returned r hr := ⟨Nat.lt_succ_of_lt (h.returned r hr).1, (h.returned r hr).2⟩

/-- What a turn is. -/
theorem step_go {t : PipeTurn ι} (h : s.step t = .go s') :
    (∃ p write n e, t = .call p write n e ∧ s.call p = none ∧
      s' = ({ s with calls := s.calls + 1 } : PipeSys ι).run p e ⟨s.calls, write, n, 0⟩) ∨
    (∃ p e c, t = .wake p e ∧ s.call p = some c ∧ s' = s.run p e c) ∨
    ∃ writable, t = .pipeclose writable ∧ s' = { s with pi := s.pi.close writable } := by
  unfold step at h
  split at h
  · cases h
  · cases t with
    | call p write n e =>
        dsimp only at h
        split at h
        · rename_i hp
          cases h
          exact .inl ⟨p, write, n, e, rfl, hp, rfl⟩
        · cases h
    | wake p e =>
        dsimp only at h
        split at h
        · cases h
        · rename_i c hp
          cases h
          exact .inr (.inl ⟨p, e, c, rfl, hp, rfl⟩)
    | pipeclose writable =>
        cases h
        exact .inr (.inr ⟨writable, rfl, rfl⟩)

theorem Inv.step {t : PipeTurn ι} (h : s.Inv) (hs : s.step t = .go s') : s'.Inv := by
  rcases step_go hs with ⟨p, write, n, e, -, -, rfl⟩ | ⟨p, e, c, -, hp, rfl⟩ | ⟨writable, -, rfl⟩
  · refine h.new.run (h.fits_new write n) fun q d _ hd => ?_
    exact Nat.ne_of_lt (h.asleep q d hd).made
  · refine h.run (h.asleep p c hp) fun q d hq hd hid => ?_
    exact hq (h.distinct q p d c hd hp hid)
  · obtain ⟨q, hq, heq⟩ := h.stream
    exact ⟨⟨q, hq.close writable, heq⟩, fun p c hc => ⟨(h.asleep p c hc).made,
      (h.asleep p c hc).read, (h.asleep p c hc).done, (h.asleep p c hc).open_⟩, h.distinct,
      h.accepted, h.delivered, h.returned⟩

/-- A failed `copyout` of byte `k` ends the turn before that byte is
consumed. -/
theorem Inv.delivered_le (h : s.Inv) {k : Nat} (he : e.copyout k = false) (c : PipeCall) :
    (s.run p e c).delivered.length ≤ s.delivered.length + k := by
  obtain ⟨q, hq, -⟩ := h.stream
  unfold PipeSys.run work
  cases c.write with
  | true => simp
  | false => simpa using (piperead_spec e c.n hq).2.2 k he

end

/-- **Pipes are lossless streams.** In every reachable state the bytes
delivered are a prefix of the bytes accepted, and the counters give the
number of the others; a turn in which the copy of byte `k` fails delivers
at most the `k` bytes before it; and calls that returned without an error
returned the number of bytes they accepted or delivered. -/
theorem pipe_lossless (data : Nat → UInt8) {s : PipeSys ι}
    (h : Reaches PipeSys.step AnyTurn (boot data) s) :
    s.delivered.map Prod.snd <+: s.accepted.map Prod.snd ∧
      s.delivered.length + (s.pi.nwrite - s.pi.nread).toNat = s.accepted.length ∧
      (s.pi.nwrite - s.pi.nread).toNat ≤ pipesize ∧
      (∀ p write n e k s', e.copyout k = false →
        s.step (.call p write n e) = .go s' ∨ s.step (.wake p e) = .go s' →
        s'.delivered.length ≤ s.delivered.length + k) ∧
      ∀ r ∈ s.returns, 0 ≤ r.result → r.result = s.tally r.write r.id := by
  have hinv : s.Inv := h.invariant (inv_boot data) fun _ _ _ h _ hs => h.step hs
  obtain ⟨q, hq, heq⟩ := hinv.stream
  refine ⟨⟨q, heq.symm⟩, ?_, ?_, fun p write n e k s' he hs => ?_,
    fun r hr => (hinv.returned r hr).2⟩
  · have := congrArg List.length heq
    rw [List.length_append, List.length_map, List.length_map] at this
    rw [hq.count, this]
  · rw [hq.count]
    exact hq.le
  · rcases hs with hs | hs
    · rcases step_go hs with ⟨p, write, n, e, ht, -, rfl⟩ | ⟨p, e, c, ht, -, -⟩ | ⟨w, ht, -⟩
      · cases ht
        exact hinv.new.delivered_le he _
      · cases ht
      · cases ht
    · rcases step_go hs with ⟨p, write, n, e, ht, -, -⟩ | ⟨p, e, c, ht, -, rfl⟩ | ⟨w, ht, -⟩
      · cases ht
      · cases ht
        exact hinv.delivered_le he c
      · cases ht

/-- A user buffer that holds the bytes `0, 1, 2, ...`. -/
def wordEnv : PipeEnv := ⟨fun _ => false, fun i => some (UInt8.ofNat i), fun i => i != 2⟩

/-- Three bytes are written; the reader gets two, because the copy of the
third fails. -/
theorem pipe_lossless_two :
    ∃ s : PipeSys (Fin 2), Reaches PipeSys.step AnyTurn (boot fun _ => 0) s ∧
      s.delivered.map Prod.snd = [0, 1] ∧ s.accepted.map Prod.snd = [0, 1, 2] ∧
      (s.pi.nwrite - s.pi.nread).toNat ≤ pipesize := by
  obtain ⟨s, hs, hP⟩ := exists_reaches (σ := PipeSys (Fin 2)) PipeSys.step anyTurn_ok
    (fun s => decide (s.delivered.map Prod.snd = [0, 1] ∧ s.accepted.map Prod.snd = [0, 1, 2]))
    (boot fun _ => 0) [.call 1 false 3 wordEnv, .call 0 true 3 wordEnv, .wake 1 wordEnv]
    (by decide)
  have h := of_decide_eq_true hP
  exact ⟨s, hs, h.1, h.2, (pipe_lossless _ hs).2.2.1⟩

end PipeSys

end OsSuite.Xv6
