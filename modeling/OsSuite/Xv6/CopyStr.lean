import OsSuite.Xv6.Settle
import OsSuite.Xv6.Started
import OsSuite.Xv6.Steps

/-!
# CopyStr — `copyinstr` and user loads

`copyinstr` looks a page up and gives up if it is not there; what the
source has behind that `return -1` is not reached. So it reads the
string that resident user pages hold (`mappedByte`), where the program
itself, by loads, would read the string that its whole address space
holds. `copyinstr_agrees_iff` says when the two are the same.
-/

namespace OsSuite.Xv6

/-! ## The code -/

/-- The inner loop of `copyinstr`, over `n` bytes of a page: whether it
found a NUL, and what it copied, latest first. -/
def scanPage (pg : Page) : Nat → Nat → List UInt8 → Bool × List UInt8
  | _, 0, dst => (false, dst)
  | va, n + 1, dst =>
      if pg (pgoff va) = 0 then (true, 0 :: dst) else scanPage pg (va + 1) n (pg (pgoff va) :: dst)

/-- The loop of `copyinstr`. Every round takes a byte or ends the loop,
so `max` rounds are enough. -/
def copyinstrLoop (root : Frame) : Nat → Nat → Nat → List UInt8 → PProg (Bool × List UInt8)
  | 0, _, _, dst => pure (false, dst)
  | fuel + 1, srcva, max, dst =>
      if max = 0 then pure (false, dst)
      else do
        match ← onSys (walkaddr root (pgrounddown srcva)) with
        | none => pure (false, dst)
        | some pa =>
            let st ← Prog.get
            let n := min (4096 - srcva % 4096) max
            let r := scanPage (st.sys.mem pa).page srcva n dst
            if r.1 then pure r
            else copyinstrLoop root fuel (pgrounddown srcva + 4096) (max - n) r.2

/-- `copyinstr(pagetable, dst, srcva, max)`: whether 0 was returned, and
what was copied to `dst`. -/
def copyinstr (root : Frame) (srcva max : Nat) : PProg (Bool × List UInt8) := do
  let r ← copyinstrLoop root max srcva max []
  pure (r.1, r.2.reverse)

/-- User loads of `n` bytes, one after the other. Three tries are enough
for any access. -/
def userLoads : Nat → Nat → PProg (Option (List UInt8))
  | _, 0 => pure (some [])
  | va, n + 1 => do
      match ← userAccess .load va 0 3 with
      | none => pure none
      | some b =>
          match ← userLoads (va + 1) n with
          | none => pure none
          | some l => pure (some (b :: l))

/-! ## Strings -/

/-- A string with its NUL. -/
def IsStr (l : List UInt8) : Prop := ∃ l', l = l' ++ [0] ∧ 0 ∉ l'

/-- The string of at most `n` bytes at `a`, where bytes may be missing. -/
def strAt (f : Nat → Option UInt8) : Nat → Nat → Option (List UInt8)
  | _, 0 => none
  | a, n + 1 => (f a).bind fun b => if b = 0 then some [0] else (strAt f (a + 1) n).map (b :: ·)

theorem isStr_cons {b : UInt8} {l : List UInt8} (hb : b ≠ 0) : IsStr (b :: l) ↔ IsStr l := by
  constructor
  · rintro ⟨l', he, hno⟩
    cases l' with
    | nil =>
        rw [List.nil_append, List.cons.injEq] at he
        exact absurd he.1 hb
    | cons c l' =>
        rw [List.cons_append, List.cons.injEq] at he
        exact ⟨l', he.2, fun hm => hno (List.mem_cons_of_mem _ hm)⟩
  · rintro ⟨l', rfl, hno⟩
    refine ⟨b :: l', rfl, fun hm => ?_⟩
    rcases List.mem_cons.mp hm with he | hm
    · exact hb he.symm
    · exact hno hm

theorem isStr_zero_cons {l : List UInt8} : IsStr (0 :: l) ↔ l = [] := by
  constructor
  · rintro ⟨l', he, hno⟩
    cases l' with
    | nil => exact (List.cons.injEq .. ▸ he).2
    | cons c l' =>
        rw [List.cons_append, List.cons.injEq] at he
        exact absurd (he.1 ▸ List.mem_cons_self) hno
  · rintro rfl
    exact ⟨[], rfl, List.not_mem_nil⟩

/-- **The string at `a`.** -/
theorem strAt_eq_some {f : Nat → Option UInt8} {a n : Nat} {l : List UInt8} :
    strAt f a n = some l ↔ IsStr l ∧ l.length ≤ n ∧ ∀ i, i < l.length → f (a + i) = l[i]? := by
  induction n generalizing a l with
  | zero =>
      refine ⟨nofun, fun h => ?_⟩
      obtain ⟨⟨l', rfl, -⟩, hlen, -⟩ := h
      rw [List.length_append, List.length_singleton] at hlen
      omega
  | succ n ih =>
      rw [strAt, Option.bind_eq_some_iff]
      cases l with
      | nil =>
          refine ⟨?_, fun h => ?_⟩
          · rintro ⟨b, -, hb⟩
            split at hb
            · cases hb
            · obtain ⟨_, -, hc⟩ := Option.map_eq_some_iff.mp hb
              cases hc
          · obtain ⟨⟨l', he, -⟩, -⟩ := h
            cases l' <;> cases he
      | cons c l =>
          have hsplit : (∀ i, i < (c :: l).length → f (a + i) = (c :: l)[i]?) ↔
              f a = some c ∧ ∀ i, i < l.length → f (a + 1 + i) = l[i]? := by
            constructor
            · intro h
              refine ⟨h 0 (Nat.succ_pos _), fun i hi => ?_⟩
              have := h (i + 1) (Nat.succ_lt_succ hi)
              rw [show a + (i + 1) = a + 1 + i by omega] at this
              exact this
            · rintro ⟨h0, h⟩ i hi
              cases i with
              | zero => exact h0
              | succ i =>
                  rw [show a + (i + 1) = a + 1 + i by omega]
                  exact h i (Nat.lt_of_succ_lt_succ hi)
          rw [hsplit, List.length_cons, Nat.add_le_add_iff_right]
          constructor
          · rintro ⟨b, hb, hcase⟩
            split at hcase
            · rename_i h0
              cases hcase
              exact ⟨isStr_zero_cons.mpr rfl, Nat.zero_le _, h0 ▸ hb, nofun⟩
            · rename_i h0
              obtain ⟨l', hl, he⟩ := Option.map_eq_some_iff.mp hcase
              cases he
              obtain ⟨hstr, hlen, hbytes⟩ := ih.mp hl
              exact ⟨(isStr_cons h0).mpr hstr, hlen, hb, hbytes⟩
          · rintro ⟨hstr, hlen, hb, hbytes⟩
            refine ⟨c, hb, ?_⟩
            split
            · rename_i h0
              subst h0
              rw [isStr_zero_cons.mp hstr]
            · rename_i h0
              rw [ih.mpr ⟨(isStr_cons h0).mp hstr, hlen, hbytes⟩]
              rfl

/-! ## What `copyinstr` reads -/

/-- The byte at `a`, if `walkaddr` finds its page. -/
def mappedByte (m : Mem) (root : Frame) (a : Nat) : Option UInt8 :=
  (userPa m root (pgrounddown a)).map fun pa => (m pa).page (pgoff a)

/-- The inner loop over bytes that are there. -/
theorem scanPage_spec {pg : Page} {f : Nat → Option UInt8} {va n : Nat} {dst : List UInt8}
    (hf : ∀ i, i < n → f (va + i) = some (pg (pgoff (va + i)))) :
    ((scanPage pg va n dst).1 = true → ∀ k, ∃ l, strAt f va (n + k) = some l ∧
        (scanPage pg va n dst).2 = l.reverse ++ dst) ∧
      ((scanPage pg va n dst).1 = false → ∃ l₀, (scanPage pg va n dst).2 = l₀.reverse ++ dst ∧
        ∀ k, strAt f va (n + k) = (strAt f (va + n) k).map (l₀ ++ ·)) := by
  induction n generalizing va dst with
  | zero =>
      refine ⟨nofun, fun _ => ⟨[], rfl, fun k => ?_⟩⟩
      rw [Nat.zero_add, Nat.add_zero]
      simp
  | succ n ih =>
      have h0 := hf 0 (Nat.succ_pos n)
      rw [Nat.add_zero] at h0
      have hrest : ∀ i, i < n → f (va + 1 + i) = some (pg (pgoff (va + 1 + i))) := fun i hi => by
        rw [show va + 1 + i = va + (i + 1) by omega]
        exact hf (i + 1) (Nat.succ_lt_succ hi)
      obtain ⟨htrue, hfalse⟩ := @ih (va + 1) (pg (pgoff va) :: dst) hrest
      have hstep : ∀ k, strAt f va (n + 1 + k) =
          if pg (pgoff va) = 0 then some [0]
          else (strAt f (va + 1) (n + k)).map (pg (pgoff va) :: ·) := fun k => by
        rw [show n + 1 + k = n + k + 1 by omega, strAt, h0]
        rfl
      rw [scanPage]
      by_cases hz : pg (pgoff va) = 0
      · rw [if_pos hz]
        refine ⟨fun _ k => ⟨[0], ?_, rfl⟩, nofun⟩
        rw [hstep, if_pos hz]
      · rw [if_neg hz]
        refine ⟨fun hr k => ?_, fun hr => ?_⟩
        · obtain ⟨l, hl, he⟩ := htrue hr k
          refine ⟨pg (pgoff va) :: l, ?_, ?_⟩
          · rw [hstep, if_neg hz, hl]
            rfl
          · rw [he, List.reverse_cons, List.append_assoc]
            rfl
        · obtain ⟨l₀, he, hk⟩ := hfalse hr
          refine ⟨pg (pgoff va) :: l₀, ?_, fun k => ?_⟩
          · rw [he, List.reverse_cons, List.append_assoc]
            rfl
          · rw [hstep, if_neg hz, hk, show va + (n + 1) = va + 1 + n by omega, Option.map_map]
            rfl

section
variable {A : Event → Prop} {root : Frame} {role : Frame → Role} {st : St} {va max : Nat}

/-- **`copyinstr` reads the string in the mapped user pages.** -/
theorem copyinstrLoop_spec {fuel : Nat} {dst : List UInt8} (hfuel : max ≤ fuel) :
    wp A (copyinstrLoop root fuel va max dst) ⟨fun r st' => st' = st ∧
        (r.1 = true → ∃ l, strAt (mappedByte st.sys.mem root) va max = some l ∧
          r.2 = l.reverse ++ dst) ∧
        (r.1 = false → strAt (mappedByte st.sys.mem root) va max = none),
      fun _ => False, fun _ => False⟩ st := by
  induction fuel generalizing va max dst with
  | zero =>
      obtain rfl : max = 0 := by omega
      exact wp_pure.mpr ⟨rfl, nofun, fun _ => rfl⟩
  | succ fuel ih =>
      rw [copyinstrLoop]
      split
      · rename_i h0
        subst h0
        exact wp_pure.mpr ⟨rfl, nofun, fun _ => rfl⟩
      · rename_i h0
        simp only [wp_bind, onSys, wp_zoom, wp_walkaddr]
        cases hpa : userPa st.sys.mem root (pgrounddown va) with
        | none =>
            refine wp_pure.mpr ⟨rfl, nofun, fun _ => ?_⟩
            obtain ⟨n, rfl⟩ : ∃ n, max = n + 1 := ⟨max - 1, by omega⟩
            rw [strAt, mappedByte, hpa]
            rfl
        | some pa =>
            simp only [wp_bind, wp_get]
            generalize hn : min (4096 - va % 4096) max = n
            have hpos := pgrounddown_add_pgoff va
            have hoff : (pgoff va).val = va % 4096 := rfl
            have hf : ∀ i, i < n → mappedByte st.sys.mem root (va + i) =
                some ((st.sys.mem pa).page (pgoff (va + i))) := by
              intro i hi
              have hpage : pgrounddown (va + i) = pgrounddown va := by
                unfold pgrounddown
                omega
              rw [mappedByte, hpage, hpa]
              rfl
            obtain ⟨htrue, hfalse⟩ := @scanPage_spec _ _ va n dst hf
            have hmax : n + (max - n) = max := by omega
            split
            · rename_i hr
              refine wp_pure.mpr ⟨rfl, fun _ => ?_, fun hc => ?_⟩
              · have := htrue hr (max - n)
                rwa [hmax] at this
              · rw [hr] at hc
                cases hc
            · rename_i hr
              obtain ⟨l₀, he, hk⟩ := hfalse (by simpa using hr)
              have hstr := hk (max - n)
              rw [hmax] at hstr
              -- the next round starts where the page ends, or has nothing left to do
              have hnext : strAt (mappedByte st.sys.mem root) (va + n) (max - n) =
                  strAt (mappedByte st.sys.mem root) (pgrounddown va + 4096) (max - n) := by
                by_cases hend : max - n = 0
                · rw [hend]
                  rfl
                · rw [show va + n = pgrounddown va + 4096 by omega]
              rw [hnext] at hstr
              refine (ih (by omega)).weaken ?_
              rintro r st' ⟨rfl, h1, h2⟩
              refine ⟨rfl, fun hr => ?_, fun hr => ?_⟩
              · obtain ⟨l, hl, hrl⟩ := h1 hr
                refine ⟨l₀ ++ l, ?_, ?_⟩
                · rw [hstr, hl]
                  rfl
                · rw [hrl, he, List.reverse_append, List.append_assoc]
              · rw [hstr, h2 hr]
                rfl

theorem copyinstr_spec : wp A (copyinstr root va max) ⟨fun r st' => st' = st ∧
      (r.1 = true → strAt (mappedByte st.sys.mem root) va max = some r.2) ∧
      (r.1 = false → strAt (mappedByte st.sys.mem root) va max = none),
    fun _ => False, fun _ => False⟩ st := by
  unfold copyinstr
  rw [wp_bind]
  refine (copyinstrLoop_spec (Nat.le_refl max)).weaken ?_
  rintro r st' ⟨rfl, h1, h2⟩
  refine wp_pure.mpr ⟨rfl, fun hr => ?_, h2⟩
  obtain ⟨l, hl, he⟩ := h1 hr
  rw [hl, he, List.append_nil, List.reverse_reverse]

/-- `copyinstr` returns 0 with the string, and -1 if there is none. -/
theorem copyinstr_returns (root : Frame) (va max : Nat) (st : St) : ∃ r st' w,
    copyinstr root va max st = .ret r st' w ∧
      (r.1 = true → strAt (mappedByte st.sys.mem root) va max = some r.2) ∧
      (r.1 = false → strAt (mappedByte st.sys.mem root) va max = none) := by
  obtain ⟨r, st', w, hrun, -, hr⟩ := wp.exists_ret (@copyinstr_spec (fun _ => True) root st va max)
  exact ⟨r, st', w, hrun, hr⟩

/-! ## What loads read -/

/-- No page was evicted: the frames that were needed were free. -/
def Event.Direct : Event → Prop
  | .evict _ => False
  | .evicted .. => False
  | _ => True

theorem Event.Direct.spares {e : Event} (h : e.Direct) (va : Nat) : e.Spares va := by
  cases e <;> first | exact h.elim | exact trivial

/-- A load that the hardware permits. -/
theorem userAccess_permitted {b : UInt8} {n : Nat} (hroot : st.p.pagetable = root) (hva : va < maxva)
    (hp : (leaf st.sys.mem root va).permits .load = true) :
    userAccess .load va b (n + 1) st =
      .ret (some ((st.sys.mem (leaf st.sys.mem root va).pa).page (pgoff va))) st [] := by
  rw [userAccess, Prog.get_bind, hroot, if_pos ⟨hva, hp⟩, if_neg (by decide)]
  rfl

/-- **On a mapped page only a permitted load gets through**: the handler
does not map a page twice. -/
theorem Own.load_permitted (h : Own root role st) (hv : (leaf st.sys.mem root va).v = true)
    (b : UInt8) (n : Nat) :
    ends (userAccess .load va b n)
      (fun r _ w => r.isSome → (∀ e ∈ w, e.Direct) →
        va < maxva ∧ (leaf st.sys.mem root va).permits .load = true)
      (fun _ _ => True) (fun _ _ => True) st := by
  cases n with
  | zero => exact ends_pure.mpr nofun
  | succ n =>
      rw [userAccess, ends_bind, ends_get]
      dsimp only
      simp only [List.nil_append]
      rw [h.root_eq]
      split
      · rename_i hc
        exact ends_of_forall (fun _ _ _ _ _ => hc) (fun _ _ => trivial) fun _ _ => trivial
      · rw [ends_bind]
        refine ends.mono (runs_usertrapFault_progress h) (fun _ st₁ w hq => ?_) (fun _ _ _ => trivial)
          fun _ _ _ => trivial
        refine ends_of_forall (fun _ _ w' _ hw => ?_) (fun _ _ => trivial) fun _ _ => trivial
        have hw : ∀ e ∈ w, e.Spares (pgrounddown va) := fun e he =>
          (hw e (List.mem_append_left _ he)).spares _
        obtain ⟨⟨role₁, -, -, hm₁⟩, hprog⟩ := hq fun e he => (hw e he).nonempty
        cases (hprog.minor h hm₁ hw hv).1.1

/-- A byte can be loaded, and what `loadAt` says is loaded. -/
theorem permits_of_loadAt {b : UInt8} (h : loadAt st.sys.mem root va = some b) :
    (leaf st.sys.mem root va).permits .load = true ∧
      (st.sys.mem (leaf st.sys.mem root va).pa).page (pgoff va) = b := by
  unfold loadAt at h
  split at h
  · rename_i hp
    exact ⟨hp, Option.some.inj h⟩
  · cases h

/-- Bytes that can be loaded are loaded. -/
theorem userLoads_of_loadAt {l : List UInt8} (hroot : st.p.pagetable = root)
    (hl : ∀ i, i < l.length → va + i < maxva ∧ loadAt st.sys.mem root (va + i) = l[i]?) :
    userLoads va l.length st = .ret (some l) st [] := by
  induction l generalizing va with
  | nil => rfl
  | cons b l ih =>
      obtain ⟨hva, hb⟩ : va < maxva ∧ loadAt st.sys.mem root va = some b :=
        hl 0 (Nat.succ_pos _)
      obtain ⟨hp, hbyte⟩ := permits_of_loadAt hb
      have hrest : userLoads (va + 1) l.length st = .ret (some l) st [] := by
        refine ih fun i hi => ?_
        rw [show va + 1 + i = va + (i + 1) by omega]
        exact hl (i + 1) (Nat.succ_lt_succ hi)
      have hfirst : userAccess .load va 0 3 st = .ret (some b) st [] := by
        rw [userAccess_permitted hroot hva hp]
        exact congrArg (fun c => Out.ret (some c) st []) hbyte
      rw [List.length_cons, userLoads, Prog.bind_ret hfirst]
      dsimp only
      rw [Prog.bind_ret hrest]
      rfl

/-- **Loads from mapped pages** find what is there. -/
theorem Own.loads_mapped (h : Own root role st) {n : Nat}
    (hv : ∀ i, i < n → (leaf st.sys.mem root (va + i)).v = true) :
    ends (userLoads va n)
      (fun r _ w => ∀ l, r = some l → (∀ e ∈ w, e.Direct) → l.length = n ∧
        ∀ i, i < n → loadAt st.sys.mem root (va + i) = l[i]?)
      (fun _ _ => True) (fun _ _ => True) st := by
  induction n generalizing va with
  | zero =>
      refine ends_pure.mpr ?_
      rintro l he -
      cases he
      exact ⟨rfl, fun i hi => absurd hi (Nat.not_lt_zero i)⟩
  | succ n ih =>
      have hv₀ : (leaf st.sys.mem root va).v = true := hv 0 (Nat.succ_pos n)
      have hrest := @ih (va + 1) fun i hi => by
        rw [show va + 1 + i = va + (i + 1) by omega]
        exact hv (i + 1) (Nat.succ_lt_succ hi)
      rw [userLoads, ends_bind]
      by_cases hp : va < maxva ∧ (leaf st.sys.mem root va).permits .load = true
      · rw [ends_of_eq (userAccess_permitted h.root_eq hp.1 hp.2)]
        dsimp only
        rw [ends_bind]
        refine hrest.mono (fun r _ w hr => ?_) (fun _ _ _ => trivial) fun _ _ _ => trivial
        cases r with
        | none => exact ends_pure.mpr (by simp)
        | some l =>
            refine ends_pure.mpr ?_
            rintro _ he hw
            cases he
            obtain ⟨hlen, hbytes⟩ := hr l rfl fun e he => hw e (by simpa using he)
            refine ⟨by rw [List.length_cons, hlen], fun i hi => ?_⟩
            cases i with
            | zero =>
                show loadAt st.sys.mem root va = _
                rw [loadAt, if_pos hp.2]
                rfl
            | succ i =>
                rw [show va + (i + 1) = va + 1 + i by omega]
                exact hbytes i (Nat.lt_of_succ_lt_succ hi)
      · -- the first load does not get through
        refine (h.load_permitted hv₀ 0 3).mono (fun r _ w hr => ?_) (fun _ _ _ => trivial)
          fun _ _ _ => trivial
        cases r with
        | none => exact ends_pure.mpr (by simp)
        | some b =>
            refine ends_of_forall (fun _ _ w' l _ hw => ?_) (fun _ _ => trivial) fun _ _ => trivial
            exact absurd (hr rfl fun e he => hw e (List.mem_append_left _ he)) hp

/-! ## When the two agree -/

/-- User loads from `va` on read the string `l`, within `max` bytes. -/
def LoadsStr (st : St) (va max : Nat) (l : List UInt8) : Prop :=
  IsStr l ∧ l.length ≤ max ∧ ∃ st' w, userLoads va l.length st = .ret (some l) st' w

/-- Loads from `va` on find the frames they need. -/
def LoadsDirect (st : St) (va max : Nat) : Prop :=
  ∀ n r st' w, n ≤ max → userLoads va n st = .ret r st' w → ∀ e ∈ w, Event.Direct e

/-- **`copyinstr` agrees with user loads**: it copies the string that
loads would read, and fails if there is none. -/
def StrAgrees (root : Frame) (st : St) (va max : Nat) : Prop :=
  (∀ l, LoadsStr st va max l → ∃ st' w, copyinstr root va max st = .ret (true, l) st' w) ∧
    ((¬ ∃ l, LoadsStr st va max l) →
      ∃ dst st' w, copyinstr root va max st = .ret (false, dst) st' w)

theorem strAgrees_iff : StrAgrees root st va max ↔
    (∀ l, LoadsStr st va max l → strAt (mappedByte st.sys.mem root) va max = some l) ∧
      ((¬ ∃ l, LoadsStr st va max l) → strAt (mappedByte st.sys.mem root) va max = none) := by
  obtain ⟨⟨ok, dst⟩, st', w, hrun, htrue, hfalse⟩ := copyinstr_returns root va max st
  unfold StrAgrees
  rw [hrun]
  cases ok with
  | true =>
      rw [htrue rfl]
      constructor
      · rintro ⟨h1, h2⟩
        refine ⟨fun l hl => ?_, fun hno => ?_⟩
        · obtain ⟨_, _, he⟩ := h1 l hl
          cases he
          rfl
        · obtain ⟨_, _, _, he⟩ := h2 hno
          cases he
      · rintro ⟨h1, h2⟩
        refine ⟨fun l hl => ?_, fun hno => ?_⟩
        · cases h1 l hl
          exact ⟨st', w, rfl⟩
        · cases h2 hno
  | false =>
      rw [hfalse rfl]
      constructor
      · rintro ⟨h1, -⟩
        refine ⟨fun l hl => ?_, fun _ => rfl⟩
        obtain ⟨_, _, he⟩ := h1 l hl
        cases he
      · rintro ⟨h1, -⟩
        refine ⟨fun l hl => ?_, fun _ => ⟨dst, st', w, rfl⟩⟩
        cases h1 l hl

/-- Where `walkaddr` finds a page, it is the page of the address. -/
theorem userPa_isSome {a : Nat} : (userPa st.sys.mem root (pgrounddown a)).isSome = true ↔
    a < maxva ∧ (leaf st.sys.mem root a).v = true ∧ (leaf st.sys.mem root a).perm.u = true := by
  have hmax : pgrounddown a < maxva ↔ a < maxva := by
    unfold pgrounddown maxva
    omega
  unfold userPa
  rw [leaf_pgrounddown, ← hmax]
  split
  · rename_i h
    exact ⟨fun _ => h, fun _ => rfl⟩
  · rename_i h
    exact ⟨nofun, fun hc => absurd hc h⟩

theorem mappedByte_eq {a : Nat} (h : (userPa st.sys.mem root (pgrounddown a)).isSome = true) :
    mappedByte st.sys.mem root a =
      some ((st.sys.mem (leaf st.sys.mem root a).pa).page (pgoff a)) := by
  unfold mappedByte userPa at *
  rw [leaf_pgrounddown] at *
  split at h
  · rename_i hc
    rw [if_pos hc]
    rfl
  · cases h

theorem isSome_of_mappedByte {a : Nat} {b : UInt8} (h : mappedByte st.sys.mem root a = some b) :
    (userPa st.sys.mem root (pgrounddown a)).isSome = true := by
  obtain ⟨pa, hpa, -⟩ := Option.map_eq_some_iff.mp h
  rw [hpa]
  rfl

/-- On a page that `walkaddr` finds, a load finds the same byte, if the
page is readable. -/
theorem loadAt_mapped {a : Nat} (h : (userPa st.sys.mem root (pgrounddown a)).isSome = true) :
    loadAt st.sys.mem root a =
      if (leaf st.sys.mem root a).perm.r = true then mappedByte st.sys.mem root a else none := by
  obtain ⟨-, hv, hu⟩ := userPa_isSome.mp h
  rw [mappedByte_eq h, loadAt]
  simp only [Pte.permits, hv, hu, Bool.true_and]

/-- A loaded string whose pages `walkaddr` finds: what loads read, byte by byte. -/
theorem LoadsStr.loadAt_eq {l : List UInt8} (h : Own root role st) (hframes : LoadsDirect st va max)
    (hl : LoadsStr st va max l)
    (hpa : ∀ i, i < l.length → (userPa st.sys.mem root (pgrounddown (va + i))).isSome = true) :
    ∀ i, i < l.length → loadAt st.sys.mem root (va + i) = l[i]? := by
  obtain ⟨-, hlen, st', w, hrun⟩ := hl
  have hv : ∀ i, i < l.length → (leaf st.sys.mem root (va + i)).v = true :=
    fun i hi => (userPa_isSome.mp (hpa i hi)).2.1
  exact ((h.loads_mapped hv).of_ret hrun l rfl (hframes _ _ _ _ hlen hrun)).2

/-- **`copyinstr` agrees with user loads exactly where the string is
resident and readable**: every string that loads read is in pages that
`walkaddr` finds, and every string in pages that `walkaddr` finds is
readable. For every process that owns its page table, every address and
every `max`, with frames for the loads. -/
theorem copyinstr_agrees_iff (h : Own root role st) (hframes : LoadsDirect st va max) :
    StrAgrees root st va max ↔
      (∀ l, LoadsStr st va max l → ∀ i, i < l.length →
        (userPa st.sys.mem root (pgrounddown (va + i))).isSome = true) ∧
      (∀ l, strAt (mappedByte st.sys.mem root) va max = some l → ∀ i, i < l.length →
        (leaf st.sys.mem root (va + i)).perm.r = true) := by
  rw [strAgrees_iff]
  have hmapped : ∀ {l}, strAt (mappedByte st.sys.mem root) va max = some l → ∀ i, i < l.length →
      (userPa st.sys.mem root (pgrounddown (va + i))).isSome = true := by
    intro l hl i hi
    obtain ⟨-, -, hbytes⟩ := strAt_eq_some.mp hl
    exact isSome_of_mappedByte ((hbytes i hi).trans (List.getElem?_eq_getElem hi))
  constructor
  · rintro ⟨hcopy, hnone⟩
    refine ⟨fun l hl => hmapped (hcopy l hl), fun l hl i hi => ?_⟩
    -- the string is one that loads read, and they read it from these pages
    have hload : LoadsStr st va max l := by
      by_contra hno
      have : ¬ ∃ l, LoadsStr st va max l := fun ⟨l', hl'⟩ => by
        have := hcopy l' hl'
        rw [hl] at this
        cases this
        exact hno hl'
      rw [hnone this] at hl
      cases hl
    have hbyte := hload.loadAt_eq h hframes (hmapped hl) i hi
    rw [loadAt_mapped (hmapped hl i hi), List.getElem?_eq_getElem hi] at hbyte
    by_contra hr
    rw [if_neg hr] at hbyte
    cases hbyte
  · rintro ⟨hpa, hread⟩
    refine ⟨fun l hl => ?_, fun hno => ?_⟩
    · refine strAt_eq_some.mpr ⟨hl.1, hl.2.1, fun i hi => ?_⟩
      have hbyte := hl.loadAt_eq h hframes (hpa l hl) i hi
      rw [loadAt_mapped (hpa l hl i hi), List.getElem?_eq_getElem hi] at hbyte
      rw [List.getElem?_eq_getElem hi]
      split at hbyte
      · exact hbyte
      · cases hbyte
    · by_contra hc
      obtain ⟨l, hl⟩ := Option.ne_none_iff_exists'.mp hc
      obtain ⟨hstr, hlen, hbytes⟩ := strAt_eq_some.mp hl
      refine hno ⟨l, hstr, hlen, st, [], userLoads_of_loadAt h.root_eq fun i hi => ?_⟩
      refine ⟨(userPa_isSome.mp (hmapped hl i hi)).1, ?_⟩
      rw [loadAt_mapped (hmapped hl i hi), if_pos (hread l hl i hi)]
      exact hbytes i hi

end

/-! ## The string at the start of the small executable -/

instance : (e : Event) → Decidable e.Direct
  | .evict _ | .evicted .. => isFalse id
  | .fault _ _ _ _ | .inserted _ _ _ | .removed _ _ _ | .marked _ | .swapOut _ _ _ | .swapFull _
  | .swapFail _ | .swapFile | .reset | .alloc _ | .forked _ => isTrue trivial

/-- Whether loads from `va` on find the frames they need. -/
def loadsDirect (st : St) (va max : Nat) : Bool :=
  (List.range (max + 1)).all fun n => match userLoads va n st with
    | .ret _ _ w => w.all fun e => decide e.Direct
    | _ => true

theorem LoadsDirect.of_check {st : St} {va max : Nat} (h : loadsDirect st va max = true) :
    LoadsDirect st va max := by
  intro n r st' w hn hrun e he
  have := List.all_eq_true.mp h n (List.mem_range.mpr (Nat.lt_succ_of_le hn))
  rw [hrun] at this
  exact of_decide_eq_true (List.all_eq_true.mp this e he)

/-- The bytes of the executable `a`, with the NUL after them. -/
def stringA : List UInt8 := [1, 2, 3, 4, 5, 6, 7, 8, 0]

theorem loadsStr_stringA {st : St} (h : (userLoads 0 9 st).returns (some stringA) = true) :
    LoadsStr st 0 9 stringA :=
  ⟨⟨[1, 2, 3, 4, 5, 6, 7, 8], rfl, by decide⟩, Nat.le_refl 9, Out.of_returns h⟩

/-- A string in the first page of the executable, once the page is loaded. -/
theorem copyinstr_agrees_iff_loaded : ∃ st w, handlePgfault 524300 0 startedSt = .ret 0 st w ∧
    LoadsStr st 0 9 stringA ∧ StrAgrees 524300 st 0 9 := by
  have hfault : (handlePgfault 524300 0 startedSt).passes (fun r st w =>
      decide ((r = 0 ∧ ∀ e ∈ w, e.Nonempty) ∧ loadsDirect st 0 9 = true ∧
        (userLoads 0 9 st).returns (some stringA) = true ∧
        (userPa st.sys.mem 524300 0).isSome = true ∧
        (leaf st.sys.mem 524300 0).perm.r = true)) = true := by decide +kernel
  obtain ⟨role, hown⟩ := own_startedSt.1
  obtain ⟨r, st, w, hx, hr⟩ := Out.of_passes hfault
  obtain ⟨⟨rfl, hw⟩, hdirect, hloads, hpa, hread⟩ := of_decide_eq_true hr
  obtain ⟨⟨role', hown', -, -⟩, -, -⟩ := (runs_handlePgfault hown 0).of_ret hx hw
  have hpage : ∀ {i}, i < 9 → pgrounddown (0 + i) = 0 := fun hi => by
    unfold pgrounddown
    omega
  refine ⟨st, w, hx, loadsStr_stringA hloads,
    (copyinstr_agrees_iff hown' (.of_check hdirect)).mpr ⟨fun l hl i hi => ?_, fun l hl i hi => ?_⟩⟩
  · rw [hpage (Nat.lt_of_lt_of_le hi hl.2.1)]
    exact hpa
  · rw [← leaf_pgrounddown, hpage (Nat.lt_of_lt_of_le hi (strAt_eq_some.mp hl).2.1)]
    exact hread

/-- A process that has just executed `a` could load that string, but
`copyinstr` does not find it. -/
theorem copyinstr_misses_unloaded : ∃ k tr, Run EvictsNonempty k tr ∧
    LoadsDirect (k.at 0) 0 9 ∧ LoadsStr (k.at 0) 0 9 stringA ∧
    (∃ st w, copyinstr (k.proc 0).pagetable 0 9 (k.at 0) = .ret (false, []) st w) ∧
    ¬ StrAgrees (k.proc 0).pagetable (k.at 0) 0 9 := by
  obtain ⟨k, tr, hrun, hp⟩ := Run.of_check EvictsNonempty smallKern_fresh [(0, execA)]
    (fun k _ => decide (loadsDirect (k.at 0) 0 9 = true ∧
      (userLoads 0 9 (k.at 0)).returns (some stringA) = true ∧
      (copyinstr (k.proc 0).pagetable 0 9 (k.at 0)).returns (false, []) = true)) (by decide +kernel)
  obtain ⟨hdirect, hloads, hcopy⟩ := of_decide_eq_true hp
  obtain ⟨st, w, hret⟩ := Out.of_returns hcopy
  have hstr := loadsStr_stringA hloads
  refine ⟨k, tr, hrun, .of_check hdirect, hstr, ⟨st, w, hret⟩, fun hagrees => ?_⟩
  obtain ⟨_, _, hc⟩ := hagrees.1 _ hstr
  rw [hret] at hc
  cases hc

end OsSuite.Xv6
