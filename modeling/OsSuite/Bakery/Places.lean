import OsSuite.Bakery.Shop

/-!
# Places — every customer is somewhere, once

A customer inside the bakery is a token that threads hand to each other:
from its own thread to a queue, from a queue to a chef, back to a queue,
and in the end back to its own thread. `places` counts where it is. That
the count is one for everybody inside and zero for everybody else is all
that is needed: the queues hold different customers, at most
`BAKERY_CAPACITY` are inside, so there is always room in the rings.
-/

namespace OsSuite.Bakery

/-- Between `sem_trywait(&num_of_cus)` and `sem_post(&num_of_cus)`. -/
def Visit.inside : Visit → Bool
  | .arriving | .turnedAway | .gone => false
  | _ => true

/-- Past the queueing. -/
def Visit.queued : Visit → Bool
  | .arriving | .turnedAway | .entering | .sitting => false
  | _ => true

/-- The customer is with its own thread: on the way to a queue, or
finished once the payment has been taken. -/
def Visit.own : Visit → Bool → Nat
  | .entering, _ | .sitting, _ => 1
  | .waitingCake, paid | .waitingPay, paid | .leaving, paid | .leavingSeat, paid => paid.toNat
  | .arriving, _ | .turnedAway, _ | .gone, _ => 0

/-- Who has paid and is still inside is finished. -/
theorem Visit.own_true (v : Visit) : v.own true = v.inside.toNat := by
  cases v <;> rfl

/-- Who is inside but not with the own thread has queued, and not paid. -/
theorem Visit.of_own_eq_zero {v : Visit} {paid : Bool} (h : v.own paid = 0)
    (hin : v.inside = true) : v.queued = true ∧ paid = false := by
  cases v <;> simp_all [own, inside, queued]

variable {γ χ : Type} [DecidableEq γ]

/-- The chef has `c` in hand. -/
def Task.holds : Task γ → γ → Bool
  | .baking d, c | .charging d, c | .paying d, c | .paid d, c | .moving d, c => d = c
  | .idle, _ | .next, _ => false

/-- The chef has baked for `c`, who is still in hand. -/
def Task.hasCake : Task γ → γ → Bool
  | .charging d, c | .paying d, c | .paid d, c => d = c
  | _, _ => false

/-- The chef has charged `c`, who is still in hand. -/
def Task.hasPaid : Task γ → γ → Bool
  | .paying d, c | .paid d, c => d = c
  | _, _ => false

/-- The queue from the first in line to the last. -/
def Queue.items (q : Queue γ) : List (Option γ) := ring queueMax q.data q.head q.count

variable [Fintype χ]

/-- In how many hands `c` is, in the sense of `f`. -/
def hands (f : Task γ → γ → Bool) (task : χ → Task γ) (c : γ) : Nat := ∑ k, (f (task k) c).toNat

/-- **The places of a customer**: entering, sitting down or finished; in
the sofa queue; in the standing queue; in the hands of a chef. -/
def Shop.places (s : Shop γ χ) (c : γ) : Nat :=
  (s.visit c).own (s.isPaying c) + s.sofa.items.count (some c) + s.standing.items.count (some c) +
    hands Task.holds s.task c

variable [DecidableEq χ]

omit [DecidableEq γ] in
theorem hands_update (f : Task γ → γ → Bool) (task : χ → Task γ) (k : χ) (t : Task γ) (c : γ) :
    hands f (Function.update task k t) c + (f (task k) c).toNat = hands f task c + (f t c).toNat :=
  sum_update task (fun t => (f t c).toNat) k t

omit [DecidableEq γ] [DecidableEq χ] in
/-- A chef with `c` in hand is one of the hands. -/
theorem le_hands (f : Task γ → γ → Bool) (task : χ → Task γ) (k : χ) (c : γ) :
    (f (task k) c).toNat ≤ hands f task c :=
  le_sum task (fun t => (f t c).toNat) k

omit [DecidableEq γ] [DecidableEq χ] in
/-- Who has been baked for is in hand. -/
theorem hands_le {f g : Task γ → γ → Bool} (h : ∀ t c, f t c = true → g t c = true)
    (task : χ → Task γ) (c : γ) : hands f task c ≤ hands g task c :=
  Finset.sum_le_sum fun k _ => by
    cases hf : f (task k) c with
    | false => exact Nat.zero_le _
    | true => rw [h _ _ hf]

theorem hasCake_holds (t : Task γ) (c : γ) (h : t.hasCake c = true) : t.holds c = true := by
  cases t <;> simp_all [Task.hasCake, Task.holds]

theorem hasPaid_holds (t : Task γ) (c : γ) (h : t.hasPaid c = true) : t.holds c = true := by
  cases t <;> simp_all [Task.hasPaid, Task.holds]

namespace Shop

variable [Fintype γ]

/-- The number of customers inside. -/
def inside (s : Shop γ χ) : Nat := ∑ c, (s.visit c).inside.toNat

omit [Fintype χ] [DecidableEq χ] in
/-- The number of people inside, after one of them moves. -/
theorem inside_setVisit (s : Shop γ χ) (c : γ) (v : Visit) :
    (s.setVisit c v).inside + (s.visit c).inside.toNat = s.inside + v.inside.toNat :=
  sum_update s.visit (fun v => v.inside.toNat) c v

/-- **Conservation.** `sitters` and `standers` are the lines in the two
rings. -/
structure Inv (s : Shop γ χ) (sitters standers : List γ) : Prop where
  sofa : s.sofa.Holds sitters
  standing : s.standing.Holds standers
  place : ∀ c, (s.visit c).own (s.isPaying c) + sitters.count c + standers.count c +
    hands Task.holds s.task c = (s.visit c).inside.toNat
  paying : ∀ c, s.isPaying c = true → (s.visit c).queued = true
  leaving : ∀ c, s.visit c = .leaving ∨ s.visit c = .leavingSeat → s.isPaying c = true
  capacity : s.numOfCus + s.inside = bakeryCapacity
  failed : s.failed = 0
  baked : ∀ c, s.baked c = hands Task.hasCake s.task c + (s.isPaying c).toNat
  charged : ∀ c, s.charged c = hands Task.hasPaid s.task c + (s.isPaying c).toNat

omit [DecidableEq χ] in
theorem inv_init : (init : Shop γ χ).Inv [] [] where
  sofa := Queue.holds_init
  standing := Queue.holds_init
  place c := by simp [init, Visit.own, Visit.inside, hands, Task.holds]
  paying := nofun
  leaving := by simp [init]
  capacity := by simp [init, inside, Visit.inside]
  failed := rfl
  baked c := by simp [init, hands, Task.hasCake]
  charged c := by simp [init, hands, Task.hasPaid]

section
variable {s : Shop γ χ} {sitters standers : List γ} {c : γ} {k : χ}

omit [DecidableEq χ] in
/-- **There is room** in a line that holds only people inside, and those
once, for somebody inside who is not in it. -/
theorem Inv.room (h : s.Inv sitters standers) {l : List γ}
    (hl : ∀ d, l.count d + (if d = c then 1 else 0) ≤ (s.visit d).inside.toNat) :
    l.length < queueMax := by
  have hsum : ∑ d, (l.count d + if d = c then 1 else 0) ≤ s.inside :=
    Finset.sum_le_sum fun d _ => hl d
  have hcount : ∑ d, l.count d = l.length := by
    have := Multiset.sum_count_eq_card (s := Finset.univ) (m := (l : Multiset γ))
      fun a _ => Finset.mem_univ a
    simpa using this
  rw [Finset.sum_add_distrib, hcount, Finset.sum_ite_eq', if_pos (Finset.mem_univ c)] at hsum
  have hcap := h.capacity
  simp only [bakeryCapacity, queueMax] at *
  omega

omit [DecidableEq χ] in
/-- Somebody with the own thread or in the hands of a chef is in no line. -/
theorem Inv.count_add (h : s.Inv sitters standers)
    (hc : 1 ≤ (s.visit c).own (s.isPaying c) + hands Task.holds s.task c) (d : γ) :
    sitters.count d + standers.count d + (if d = c then 1 else 0) ≤ (s.visit d).inside.toNat := by
  have hd := h.place d
  split
  · subst d
    omega
  · omega

omit [DecidableEq χ] in
theorem Inv.room_sofa (h : s.Inv sitters standers)
    (hc : 1 ≤ (s.visit c).own (s.isPaying c) + hands Task.holds s.task c) :
    sitters.length < queueMax :=
  h.room (c := c) fun d => by
    have := h.count_add hc d
    omega

omit [DecidableEq χ] in
theorem Inv.room_standing (h : s.Inv sitters standers)
    (hc : 1 ≤ (s.visit c).own (s.isPaying c) + hands Task.holds s.task c) :
    standers.length < queueMax :=
  h.room (c := c) fun d => by
    have := h.count_add hc d
    omega

/-! ## What a customer and a chef can change -/

omit [DecidableEq χ] in
/-- A customer moves on, and what its places lose or gain it gains or
loses in the lines. -/
theorem Inv.setVisit (h : s.Inv sitters standers) {v : Visit} {n m : Nat} {q₁ q₂ : Queue γ}
    {l₁ l₂ : List γ} (h₁ : q₁.Holds l₁) (h₂ : q₂.Holds l₂)
    (hown : v.own (s.isPaying c) + l₁.count c + l₂.count c + (s.visit c).inside.toNat =
      (s.visit c).own (s.isPaying c) + sitters.count c + standers.count c + v.inside.toNat)
    (hrest : ∀ d, d ≠ c → l₁.count d + l₂.count d = sitters.count d + standers.count d)
    (hpay : s.isPaying c = true → v.queued = true)
    (hleave : v = .leaving ∨ v = .leavingSeat → s.isPaying c = true)
    (hn : n + v.inside.toNat = s.numOfCus + (s.visit c).inside.toNat) :
    ({ s with numOfCus := n, numOfSeats := m, sofa := q₁, standing := q₂ }.setVisit c v).Inv
      l₁ l₂ where
  sofa := h₁
  standing := h₂
  place d := by
    have hd := h.place d
    show (Function.update s.visit c v d).own (s.isPaying d) + _ + _ + hands Task.holds s.task d =
      (Function.update s.visit c v d).inside.toNat
    rcases eq_or_ne d c with rfl | hne
    · rw [Function.update_self]
      omega
    · have := hrest d hne
      rw [Function.update_of_ne hne]
      omega
  paying d hd := by
    show (Function.update s.visit c v d).queued = true
    rcases eq_or_ne d c with rfl | hne
    · rw [Function.update_self]
      exact hpay hd
    · rw [Function.update_of_ne hne]
      exact h.paying d hd
  leaving d hd := by
    change Function.update s.visit c v d = _ ∨ Function.update s.visit c v d = _ at hd
    rcases eq_or_ne d c with rfl | hne
    · rw [Function.update_self] at hd
      exact hleave hd
    · rw [Function.update_of_ne hne] at hd
      exact h.leaving d hd
  capacity := by
    have hin := inside_setVisit s c v
    have hcap := h.capacity
    show n + (s.setVisit c v).inside = bakeryCapacity
    omega
  failed := h.failed
  baked := h.baked
  charged := h.charged

/-- A chef goes on to the next task, and whom it puts down or picks up is
put into or taken out of the lines. -/
theorem Inv.setTask (h : s.Inv sitters standers) {t : Task γ} {q₁ q₂ : Queue γ} {l₁ l₂ : List γ}
    {cash : Option χ} {isBaking : γ → Bool} {baked charged : γ → Nat}
    (h₁ : q₁.Holds l₁) (h₂ : q₂.Holds l₂)
    (hlines : ∀ d, (t.holds d).toNat + l₁.count d + l₂.count d =
      ((s.task k).holds d).toNat + sitters.count d + standers.count d)
    (hbaked : ∀ d, baked d + ((s.task k).hasCake d).toNat = s.baked d + (t.hasCake d).toNat)
    (hcharged : ∀ d, charged d + ((s.task k).hasPaid d).toNat = s.charged d + (t.hasPaid d).toNat) :
    ({ s with
        sofa := q₁, standing := q₂, cash := cash, isBaking := isBaking
        baked := baked, charged := charged }.setTask k t).Inv l₁ l₂ where
  sofa := h₁
  standing := h₂
  place d := by
    have hd := h.place d
    have hk := hands_update Task.holds s.task k t d
    have hl := hlines d
    show (s.visit d).own (s.isPaying d) + _ + _ +
      hands Task.holds (Function.update s.task k t) d = (s.visit d).inside.toNat
    omega
  paying := h.paying
  leaving := h.leaving
  capacity := h.capacity
  failed := h.failed
  baked d := by
    have hd := h.baked d
    have hk := hands_update Task.hasCake s.task k t d
    have hb := hbaked d
    show baked d = hands Task.hasCake (Function.update s.task k t) d + (s.isPaying d).toNat
    omega
  charged d := by
    have hd := h.charged d
    have hk := hands_update Task.hasPaid s.task k t d
    have hb := hcharged d
    show charged d = hands Task.hasPaid (Function.update s.task k t) d + (s.isPaying d).toNat
    omega

/-- **The customer in the chef's hands has paid**, and is finished: the
chef lets go of them. -/
theorem Inv.setPaying (h : s.Inv sitters standers) (hk : s.task k = .paid c) :
    ({ s with isPaying := Function.update s.isPaying c true }.setTask k .next).Inv
      sitters standers := by
  have hheld := le_hands Task.holds s.task k c
  have hplace := h.place c
  simp only [hk, Task.holds, decide_true, Bool.toNat_true] at hheld
  have hone : (s.visit c).inside.toNat ≤ 1 := Bool.toNat_le _
  -- in the chef's hands: not with its own thread, and inside
  have hown : (s.visit c).own (s.isPaying c) = 0 := by omega
  have hin : (s.visit c).inside = true := by
    cases hv : (s.visit c).inside with
    | true => rfl
    | false =>
        rw [hv, Bool.toNat_false] at hplace
        omega
  obtain ⟨hqueued, hpay⟩ := Visit.of_own_eq_zero hown hin
  have hpaid : ∀ d, (Function.update s.isPaying c true d).toNat =
      (s.isPaying d).toNat + (decide (c = d)).toNat := by
    intro d
    rcases eq_or_ne c d with rfl | hne
    · simp [hpay]
    · simp [Function.update_of_ne hne.symm, hne]
  refine
    { sofa := h.sofa
      standing := h.standing
      place := ?_
      paying := ?_
      leaving := ?_
      capacity := h.capacity
      failed := h.failed
      baked := ?_
      charged := ?_ }
  · intro d
    have hd := h.place d
    have hu := hands_update Task.holds s.task k .next d
    simp only [hk, Task.holds, Bool.toNat_false] at hu
    show (s.visit d).own (Function.update s.isPaying c true d) + _ + _ +
      hands Task.holds (Function.update s.task k .next) d = (s.visit d).inside.toNat
    rcases eq_or_ne c d with rfl | hne
    · simp only [decide_true, Bool.toNat_true] at hu
      rw [Function.update_self, Visit.own_true]
      omega
    · simp only [hne, decide_false, Bool.toNat_false] at hu
      rw [Function.update_of_ne hne.symm]
      omega
  · intro d hd
    rcases eq_or_ne d c with rfl | hne
    · exact hqueued
    · exact h.paying d (by simpa [Shop.setTask, Function.update_of_ne hne] using hd)
  · intro d hd
    have := h.leaving d hd
    show Function.update s.isPaying c true d = true
    rcases eq_or_ne d c with rfl | hne
    · exact Function.update_self ..
    · rw [Function.update_of_ne hne]
      exact this
  · intro d
    have hd := h.baked d
    have hu := hands_update Task.hasCake s.task k .next d
    have hp := hpaid d
    simp only [hk, Task.hasCake, Bool.toNat_false] at hu
    show s.baked d = hands Task.hasCake (Function.update s.task k .next) d +
      (Function.update s.isPaying c true d).toNat
    omega
  · intro d
    have hd := h.charged d
    have hu := hands_update Task.hasPaid s.task k .next d
    have hp := hpaid d
    simp only [hk, Task.hasPaid, Bool.toNat_false] at hu
    show s.charged d = hands Task.hasPaid (Function.update s.task k .next) d +
      (Function.update s.isPaying c true d).toNat
    omega

/-! ## The turns -/

omit [Fintype γ] [Fintype χ] [DecidableEq γ] [DecidableEq χ] in
/-- With room in the ring the ignored result of `my_enqueue` is 1. -/
theorem toSofa_eq (h : s.sofa.Holds sitters) (hroom : sitters.length < queueMax) (c : γ) :
    s.toSofa c = { s with sofa := (s.sofa.enqueue c).1 } := by
  unfold toSofa
  rw [if_pos (h.enqueue hroom c).2]

omit [Fintype γ] [Fintype χ] [DecidableEq γ] [DecidableEq χ] in
theorem toStanding_eq (h : s.standing.Holds standers) (hroom : standers.length < queueMax)
    (c : γ) : s.toStanding c = { s with standing := (s.standing.enqueue c).1 } := by
  unfold toStanding
  rw [if_pos (h.enqueue hroom c).2]

omit [Fintype γ] in
theorem count_first (l : List γ) (c d : γ) :
    (c :: l).count d = l.count d + (decide (c = d)).toNat := by
  rcases eq_or_ne c d with rfl | hne <;> simp [*]

omit [Fintype γ] in
theorem count_last (l : List γ) (c d : γ) :
    (l ++ [c]).count d = l.count d + (decide (c = d)).toNat := by
  rw [List.count_append, count_first, List.count_nil, Nat.zero_add]

omit [Fintype γ] in
theorem update_succ (f : γ → Nat) (c d : γ) :
    Function.update f c (f c + 1) d = f d + (decide (c = d)).toNat := by
  rcases eq_or_ne c d with rfl | hne
  · simp
  · simp [Function.update_of_ne hne.symm, hne]

omit [DecidableEq χ] in
theorem Inv.customer (h : s.Inv sitters standers) {s' : Shop γ χ}
    (hgo : s.customer c = .go s') : ∃ l₁ l₂, s'.Inv l₁ l₂ := by
  have hunpaid : (s.visit c).queued = false → s.isPaying c = false := fun hq => by
    cases hp : s.isPaying c with
    | false => rfl
    | true => rw [h.paying c hp] at hq; cases hq
  unfold Shop.customer at hgo
  cases hv : s.visit c with
  | arriving =>
      have hp := hunpaid (by rw [hv]; rfl)
      simp only [hv] at hgo
      split at hgo
      all_goals
        cases hgo
        refine ⟨_, _, h.setVisit h.sofa h.standing ?_ (fun _ _ => rfl) ?_ ?_ ?_⟩
      all_goals simp [hv, hp, Visit.own, Visit.inside]
      all_goals omega
  | entering =>
      have hp := hunpaid (by rw [hv]; rfl)
      have hroom := h.room_standing (c := c) (by rw [hv]; exact Nat.le_add_right 1 _)
      simp only [hv] at hgo
      split at hgo
      · cases hgo
        refine ⟨_, _, h.setVisit h.sofa h.standing ?_ (fun _ _ => rfl) ?_ ?_ ?_⟩
        all_goals simp [hv, hp, Visit.own, Visit.inside]
      · cases hgo
        rw [toStanding_eq h.standing hroom]
        refine ⟨_, _, h.setVisit h.sofa (h.standing.enqueue hroom c).1 ?_ ?_ ?_ ?_ ?_⟩
        all_goals simp [hv, hp, Visit.own, Visit.inside]
        · omega
        · exact fun d hne => List.count_eq_zero.mpr (by simp [hne])
  | sitting =>
      have hp := hunpaid (by rw [hv]; rfl)
      have hroom := h.room_sofa (c := c) (by rw [hv]; exact Nat.le_add_right 1 _)
      simp only [hv] at hgo
      cases hgo
      rw [toSofa_eq h.sofa hroom]
      refine ⟨_, _, h.setVisit (h.sofa.enqueue hroom c).1 h.standing ?_ ?_ ?_ ?_ ?_⟩
      all_goals simp [hv, hp, Visit.own, Visit.inside]
      · omega
      · exact fun d hne => List.count_eq_zero.mpr (by simp [hne])
  | waitingCake =>
      simp only [hv] at hgo
      split at hgo <;> cases hgo
      refine ⟨_, _, h.setVisit h.sofa h.standing ?_ (fun _ _ => rfl) ?_ ?_ ?_⟩
      all_goals simp [hv, Visit.own, Visit.inside, Visit.queued]
  | waitingPay =>
      simp only [hv] at hgo
      split at hgo <;> cases hgo
      refine ⟨_, _, h.setVisit h.sofa h.standing ?_ (fun _ _ => rfl) ?_ ?_ ?_⟩
      all_goals simp [*, Visit.own, Visit.inside, Visit.queued]
  | leaving =>
      have hp := h.leaving c (.inl hv)
      simp only [hv] at hgo
      cases hgo
      refine ⟨_, _, h.setVisit h.sofa h.standing ?_ (fun _ _ => rfl) ?_ ?_ ?_⟩
      all_goals simp [hv, hp, Visit.own, Visit.inside, Visit.queued]
  | leavingSeat =>
      have hp := h.leaving c (.inr hv)
      simp only [hv] at hgo
      cases hgo
      refine ⟨_, _, h.setVisit h.sofa h.standing ?_ (fun _ _ => rfl) ?_ ?_ ?_⟩
      all_goals simp [hv, hp, Visit.own, Visit.inside, Visit.queued]
      omega
  | turnedAway | gone =>
      simp only [hv] at hgo
      cases hgo

theorem Inv.chef (h : s.Inv sitters standers) {s' : Shop γ χ}
    (hgo : s.chef k = .go s') : ∃ l₁ l₂, s'.Inv l₁ l₂ := by
  unfold Shop.chef at hgo
  cases hk : s.task k with
  | idle =>
      simp only [hk] at hgo
      rcases h.sofa.dequeue with ⟨_, hq⟩ | ⟨c, rest, q, rfl, hq, hrest⟩ <;>
        simp only [hq] at hgo <;> cases hgo
      · exact ⟨_, _, h⟩
      · refine ⟨_, _, h.setTask hrest h.standing ?_ (fun _ => ?_) (fun _ => ?_)⟩
        · intro d
          simp only [hk, Task.holds, count_first, Bool.toNat_false]
          omega
        all_goals simp [hk, Task.hasCake, Task.hasPaid]
  | baking c =>
      simp only [hk] at hgo
      cases hgo
      refine ⟨_, _, h.setTask h.sofa h.standing ?_ ?_ ?_⟩
      · intro d
        simp [hk, Task.holds]
      · intro d
        simp [hk, Task.hasCake, update_succ]
      · intro d
        simp [hk, Task.hasPaid]
  | charging c =>
      simp only [hk] at hgo
      split at hgo <;> cases hgo
      refine ⟨_, _, h.setTask h.sofa h.standing ?_ ?_ ?_⟩
      · intro d
        simp [hk, Task.holds]
      · intro d
        simp [hk, Task.hasCake]
      · intro d
        simp [hk, Task.hasPaid, update_succ]
  | paying c =>
      simp only [hk] at hgo
      cases hgo
      refine ⟨_, _, h.setTask h.sofa h.standing ?_ ?_ ?_⟩ <;> intro d
      all_goals simp [hk, Task.holds, Task.hasCake, Task.hasPaid]
  | paid c =>
      simp only [hk] at hgo
      cases hgo
      exact ⟨_, _, h.setPaying hk⟩
  | next =>
      simp only [hk] at hgo
      rcases h.standing.dequeue with ⟨_, hq⟩ | ⟨c, rest, q, rfl, hq, hrest⟩ <;>
        simp only [hq] at hgo <;> cases hgo
      · refine ⟨_, _, h.setTask h.sofa h.standing ?_ ?_ ?_⟩ <;> intro d
        all_goals simp [hk, Task.holds, Task.hasCake, Task.hasPaid]
      · refine ⟨_, _, h.setTask h.sofa hrest ?_ (fun _ => ?_) (fun _ => ?_)⟩
        · intro d
          simp only [hk, Task.holds, count_first, Bool.toNat_false]
          omega
        all_goals simp [hk, Task.hasCake, Task.hasPaid]
  | moving c =>
      simp only [hk] at hgo
      cases hgo
      have hroom : sitters.length < queueMax := by
        refine h.room_sofa (c := c) ?_
        have := le_hands Task.holds s.task k c
        simp only [hk, Task.holds, decide_true, Bool.toNat_true] at this
        omega
      rw [toSofa_eq h.sofa hroom]
      refine ⟨_, _, h.setTask (h.sofa.enqueue hroom c).1 h.standing ?_ ?_ ?_⟩ <;> intro d
      · simp only [hk, Task.holds, count_last, Bool.toNat_false]
        omega
      all_goals simp [hk, Task.hasCake, Task.hasPaid]

end

/-- In every state that `main` leads to, whoever moves, customers are conserved. -/
theorem inv_reaches {s : Shop γ χ} (h : Reaches step AnyTurn init s) :
    ∃ sitters standers, s.Inv sitters standers :=
  h.invariant (I := fun s => ∃ l₁ l₂, s.Inv l₁ l₂) ⟨_, _, inv_init⟩
    fun s i s' ⟨_, _, hs⟩ _ hgo => by
      cases i with
      | customer c => exact hs.customer hgo
      | chef k => exact hs.chef hgo

omit [DecidableEq χ] in
theorem Inv.places {s : Shop γ χ} {sitters standers : List γ} (h : s.Inv sitters standers) (c : γ) :
    s.places c = (s.visit c).inside.toNat := by
  have hcount : ∀ l : List γ, (l.map some).count (some c) = l.count c := fun l =>
    List.count_map_of_injective _ _ (Option.some_injective γ) _
  rw [← h.place c]
  unfold Shop.places Queue.items
  rw [h.sofa.ring, h.standing.ring, hcount, hcount]

omit [DecidableEq χ] in
/-- Who has paid is in no chef's hands. -/
theorem Inv.hands_add_paying {s : Shop γ χ} {sitters standers : List γ}
    (h : s.Inv sitters standers) (c : γ) :
    hands Task.holds s.task c + (s.isPaying c).toNat ≤ 1 := by
  have hplace := h.place c
  have hone : (s.visit c).inside.toNat ≤ 1 := Bool.toNat_le _
  cases hp : s.isPaying c with
  | false =>
      rw [Bool.toNat_false]
      omega
  | true =>
      rw [hp, Visit.own_true] at hplace
      rw [Bool.toNat_true]
      omega

/-- The thread is about to call `my_enqueue`. -/
def aboutToEnqueue (s : Shop γ χ) : Thread γ χ → Prop
  | .customer c => s.visit c = .entering ∨ s.visit c = .sitting
  | .chef k => ∃ c, s.task k = .moving c

omit [DecidableEq χ] in
theorem Inv.room_of_aboutToEnqueue {s : Shop γ χ} {sitters standers : List γ}
    (h : s.Inv sitters standers) {i : Thread γ χ} (hi : s.aboutToEnqueue i) :
    s.sofa.count < queueMax ∧ s.standing.count < queueMax := by
  have key : ∃ c, 1 ≤ (s.visit c).own (s.isPaying c) + hands Task.holds s.task c := by
    cases i with
    | customer c =>
        refine ⟨c, ?_⟩
        rcases hi with hv | hv <;> rw [hv] <;> exact Nat.le_add_right 1 _
    | chef k =>
        obtain ⟨c, hk⟩ := hi
        refine ⟨c, ?_⟩
        have := le_hands Task.holds s.task k c
        simp only [hk, Task.holds, decide_true, Bool.toNat_true] at this
        omega
  obtain ⟨c, hc⟩ := key
  rw [h.sofa.count, h.standing.count]
  exact ⟨h.room_sofa hc, h.room_standing hc⟩

/-- **Nobody is lost, duplicated or over capacity.** For any customers and
chefs, in every state that any order of their turns leads to, at most
`BAKERY_CAPACITY` customers are inside and each of them is in exactly one
place. Nobody is baked for or charged twice, a thread that is about to
join a queue finds room in it, and no `my_enqueue` has failed. -/
theorem customers_conserved {s : Shop γ χ} (h : Reaches step AnyTurn init s) :
    s.inside ≤ bakeryCapacity ∧
    (∀ c, (s.visit c).inside = true → s.places c = 1) ∧
    (∀ c, s.baked c ≤ 1 ∧ s.charged c ≤ 1) ∧
    (∀ i, s.aboutToEnqueue i → s.sofa.count < queueMax ∧ s.standing.count < queueMax) ∧
    s.failed = 0 := by
  obtain ⟨sitters, standers, hinv⟩ := inv_reaches h
  refine ⟨?_, fun c hc => ?_, fun c => ?_, fun i hi => hinv.room_of_aboutToEnqueue hi, hinv.failed⟩
  · have := hinv.capacity
    omega
  · rw [hinv.places c, hc]
    rfl
  · have hsum := hinv.hands_add_paying c
    have hcake := hands_le hasCake_holds s.task c
    have hpaid := hands_le hasPaid_holds s.task c
    rw [hinv.baked c, hinv.charged c]
    omega

/-- One chef serves the first of two customers, who leaves, while the
second has sat down: a run of the threads that `customers_conserved`
speaks about. -/
theorem customers_conserved_two :
    ∃ s : Shop (Fin 2) (Fin 1), Reaches step AnyTurn init s ∧ s.visit 0 = .gone ∧
      s.baked 0 = 1 ∧ (s.visit 1).inside = true ∧ s.places 1 = 1 ∧ s.failed = 0 := by
  obtain ⟨s, hs, hP⟩ := exists_reaches step anyTurn_ok
    (fun s : Shop (Fin 2) (Fin 1) =>
      decide (s.visit 0 = .gone) && decide (s.baked 0 = 1) && (s.visit 1).inside)
    init
    [.customer 0, .customer 1, .customer 0, .customer 0, .chef 0, .chef 0, .customer 1, .customer 0,
      .chef 0, .chef 0, .customer 1, .chef 0, .customer 0, .customer 0, .customer 0]
    (by decide)
  simp only [Bool.and_eq_true, decide_eq_true_eq] at hP
  obtain ⟨⟨hgone, hbaked⟩, hin⟩ := hP
  obtain ⟨-, hplaces, -, -, hfailed⟩ := customers_conserved hs
  exact ⟨s, hs, hgone, hbaked, hin, hplaces 1 hin, hfailed⟩

end Shop

end OsSuite.Bakery
