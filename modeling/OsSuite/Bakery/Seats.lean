import OsSuite.Bakery.Hall

/-!
# Seats — who is on the sofa

A seat is taken in two ways: the customer's own thread waits for the
semaphore, or a chef hands over the seat of the customer it has finished
with. It is given back in one way: every customer posts the semaphore on
leaving, the one whose seat was handed over too. So each hand-over adds a
seat: `seats_sum`.
-/

namespace OsSuite.Bakery

/-- Whom a line announces on the sofa. -/
def Note.seating {γ χ : Type} : Note γ χ → Option γ
  | .sits c | .moves c => some c
  | _ => none

/-- Who was announced on the sofa, in this order. -/
def seatings {γ χ : Type} (log : List (Note γ χ)) : List γ := log.filterMap Note.seating

/-- A hand-over of a seat by a chef. -/
def Note.isMove {γ χ : Type} : Note γ χ → Bool
  | .moves _ => true
  | _ => false

/-- How many seats were handed over. -/
def handOvers {γ χ : Type} (log : List (Note γ χ)) : Nat := log.countP Note.isMove

/-- The own thread has posted the seat. -/
def Errand.posted : Errand → Bool
  | .leavingSeat | .gone => true
  | _ => false

section
variable {γ χ : Type} [DecidableEq γ]

/-- The customer has taken a seat and not yet posted it. -/
def hasSeat (log : List (Note γ χ)) (errand : γ → Errand) (c : γ) : Bool :=
  decide (c ∈ seatings log) && !(errand c).posted

variable [Fintype γ]

/-- The number of customers on the sofa, those not counted who have paid
and are about to leave. -/
def seated (log : List (Note γ χ)) (errand : γ → Errand) (paid : γ → Bool) : Nat :=
  ∑ c, (hasSeat log errand c && !paid c).toNat

/-- The number of customers in the act of leaving the sofa. -/
def leavers (log : List (Note γ χ)) (errand : γ → Errand) (paid : γ → Bool) : Nat :=
  ∑ c, (hasSeat log errand c && paid c).toNat

theorem seated_add_leavers (log : List (Note γ χ)) (errand : γ → Errand) (paid : γ → Bool) :
    seated log errand paid + leavers log errand paid = ∑ c, (hasSeat log errand c).toNat := by
  unfold seated leavers
  rw [← Finset.sum_add_distrib]
  refine Finset.sum_congr rfl fun c _ => ?_
  cases hasSeat log errand c <;> cases paid c <;> rfl

end

namespace Day

variable {Q : Type → Type} {γ χ : Type} [DecidableEq γ] [Fintype γ]

/-- **The sofa is in balance**: no more than `SOFA_SEATS` customers sit on
it, and the semaphore counts the free seats, up to those of customers in
the act of leaving. -/
structure Balanced (d : Day Q γ χ) : Prop where
  seated : seated d.log d.errand d.isPaying ≤ sofaSeats
  upper : d.numOfSeats + Bakery.seated d.log d.errand d.isPaying ≤ sofaSeats
  lower : sofaSeats ≤ d.numOfSeats + Bakery.seated d.log d.errand d.isPaying +
    leavers d.log d.errand d.isPaying

/-- A seat is handed over, and a customer posts a seat, only while more
customers are in the act of leaving than seats have been handed over. -/
def HandsOver (d : Day Q γ χ) : Thread γ χ → Prop
  | .customer c => d.errand c = .leaving →
      handOvers d.log < leavers d.log d.errand d.isPaying
  | .chef k => ∀ x, d.duty k = .moving x → handOvers d.log < leavers d.log d.errand d.isPaying

end Day

/-- The customer has taken a seat. -/
def Tok.hasSeat {χ : Type} : Tok χ → Bool
  | .hand _ .seen => false
  | .sitting | .queued | .hand _ _ | .done => true
  | _ => false

/-! ## What an act does to the sofa -/

section
variable {γ χ : Type} [DecidableEq γ] {log : List (Note γ χ)} {errand : γ → Errand} {c : γ}

omit [DecidableEq γ] in
/-- A line that announces nobody. -/
theorem seatings_quiet {n : Note γ χ} (h : n.seating = none) :
    seatings (log ++ [n]) = seatings log := by
  simp [seatings, h]

omit [DecidableEq γ] in
theorem seatings_concat {n : Note γ χ} (h : n.seating = some c) :
    seatings (log ++ [n]) = seatings log ++ [c] := by
  simp [seatings, h]

omit [DecidableEq γ] in
theorem handOvers_concat (n : Note γ χ) :
    handOvers (log ++ [n]) = handOvers log + n.isMove.toNat := by
  rw [handOvers, List.countP_append, List.countP_singleton]
  cases n.isMove <;> rfl

/-- A thread that goes on and neither posts nor un-posts. -/
theorem hasSeat_goes {e : Errand} (h : e.posted = (errand c).posted) :
    hasSeat log (Function.update errand c e) = hasSeat log errand := by
  funext x
  unfold hasSeat
  by_cases hx : x = c
  · subst hx
    rw [Function.update_self, h]
  · rw [Function.update_of_ne hx]

omit [DecidableEq γ] in
theorem hasSeat_congr [DecidableEq γ] {log' : List (Note γ χ)} (h : seatings log' = seatings log) :
    hasSeat log' errand = hasSeat log errand := by
  unfold hasSeat
  rw [h]

/-- Somebody takes a seat. -/
theorem hasSeat_concat {n : Note γ χ} (h : n.seating = some c) (hc : (errand c).posted = false) :
    hasSeat (log ++ [n]) errand = Function.update (hasSeat log errand) c true := by
  funext x
  unfold hasSeat
  rw [seatings_concat h]
  by_cases hx : x = c
  · subst hx
    simp [hc]
  · rw [Function.update_of_ne hx]
    simp [hx]

/-- Somebody posts a seat. -/
theorem hasSeat_post {e : Errand} (h : e.posted = true) :
    hasSeat log (Function.update errand c e) = Function.update (hasSeat log errand) c false := by
  funext x
  unfold hasSeat
  by_cases hx : x = c
  · subst hx
    simp [h]
  · rw [Function.update_of_ne hx, Function.update_of_ne hx]

end

namespace Hall

variable {γ χ : Type} [DecidableEq γ] {v : Hall γ χ} {a : Act γ χ} {c : γ}

/-- The customer has taken a seat and not yet posted it. -/
def seat (v : Hall γ χ) : γ → Bool := hasSeat v.log v.errand

/-- What an act does to the seats. -/
def seatAfter (v : Hall γ χ) : Act γ χ → γ → Bool
  | .sit c | .move _ c => Function.update v.seat c true
  | .post c => Function.update v.seat c false
  | _ => v.seat

omit [DecidableEq γ] in
/-- Nobody who is on the way to a seat has posted one. -/
theorem Ok.posted (h : v.Ok) (hc : (v.tok c).late = false) : (v.errand c).posted = false := by
  cases he : v.errand c with
  | leavingSeat | gone =>
      have hpaid := h.late c (by rw [he]; rfl)
      rw [h.paid c hpaid] at hc
      cases hc
  | _ => rfl

/-- **What an act does to the seats.** -/
theorem seat_act (hok : v.Ok) (hm : v.May a) : (v.act a).seat = v.seatAfter a := by
  cases a with
  | letIn c | join c =>
      exact hasSeat_goes (by rw [hm]; rfl)
  | stand c => exact hasSeat_goes (by rw [hm]; rfl)
  | refuse c | ask c | enter c =>
      refine (hasSeat_congr (seatings_quiet rfl)).trans (hasSeat_goes ?_)
      show _ = (v.errand c).posted
      rw [hm]
      rfl
  | walk c e =>
      refine hasSeat_goes ?_
      rcases hm with ⟨he, rfl⟩ | ⟨he, rfl⟩ | ⟨he, rfl, _⟩ | ⟨he, rfl⟩ <;> rw [he] <;> rfl
  | post c => exact hasSeat_post rfl
  | take k c | bake k c | serve k c | accept k c | leave k c | order k c =>
      exact hasSeat_congr (seatings_quiet rfl)
  | pay k c | glance k c | fetch k c x | bring k c => rfl
  | sit c =>
      have hgoes : hasSeat v.log (Function.update v.errand c .sitting) = v.seat :=
        hasSeat_goes (by rw [hm.1]; rfl)
      have hsits : hasSeat (v.log ++ [.sits c]) (Function.update v.errand c .sitting) =
          Function.update (hasSeat v.log (Function.update v.errand c .sitting)) c true :=
        hasSeat_concat rfl (by rw [Function.update_self]; rfl)
      rw [hgoes] at hsits
      exact hsits
  | move k c => exact hasSeat_concat rfl (hok.posted (by rw [hm]; rfl))

/-- The token says who has taken a seat. -/
def Took (v : Hall γ χ) : Prop := ∀ c, c ∈ seatings v.log ↔ (v.tok c).hasSeat = true

omit [DecidableEq γ] in
theorem Took.quiet (h : v.Took) {v' : Hall γ χ} (hlog : seatings v'.log = seatings v.log)
    (htok : ∀ x, (v'.tok x).hasSeat = (v.tok x).hasSeat) : v'.Took := by
  intro x
  rw [hlog, htok x]
  exact h x

/-- A token that moves between places with a seat, or between places
without one. -/
theorem hasSeat_update {p t : Tok χ} (hp : v.tok c = p) (h : p.hasSeat = t.hasSeat) (x : γ) :
    (Function.update v.tok c t x).hasSeat = (v.tok x).hasSeat := by
  by_cases hx : x = c
  · subst hx
    rw [Function.update_self, hp, h]
  · rw [Function.update_of_ne hx]

/-- Somebody who is announced on the sofa takes a seat. -/
theorem Took.seat (h : v.Took) {n : Note γ χ} {t : Tok χ} (hn : n.seating = some c)
    (ht : t.hasSeat = true) (x : γ) :
    x ∈ seatings (v.log ++ [n]) ↔ (Function.update v.tok c t x).hasSeat = true := by
  rw [seatings_concat hn, List.mem_append, List.mem_singleton, h x]
  by_cases hx : x = c
  · subst hx
    rw [Function.update_self]
    exact iff_of_true (.inr rfl) ht
  · rw [Function.update_of_ne hx]
    exact or_iff_left hx

theorem Took.act (h : v.Took) (hok : v.Ok) (hm : v.May a) : (v.act a).Took := by
  cases a with
  | letIn c =>
      have hout := hok.tok_of_own (c := c) (o := .outside) (by rw [hm]; rfl)
      exact h.quiet rfl (hasSeat_update hout rfl)
  | enter c =>
      have hout := hok.tok_of_own (c := c) (o := .admitted) (by rw [hm]; rfl)
      exact h.quiet (seatings_quiet rfl) (hasSeat_update hout rfl)
  | stand c =>
      have hout := hok.tok_of_own (c := c) (o := .entering) (by rw [hm]; rfl)
      exact h.quiet rfl (hasSeat_update hout rfl)
  | sit c => exact h.seat rfl rfl
  | move k c => exact h.seat rfl rfl
  | join c =>
      have hsit := hok.tok_of_own (c := c) (o := .sitting) (by rw [hm]; rfl)
      exact h.quiet rfl (hasSeat_update hsit rfl)
  | refuse c | ask c => exact h.quiet (seatings_quiet rfl) fun _ => rfl
  | walk c e | post c | pay k c => exact h.quiet rfl fun _ => rfl
  | take k c =>
      have hq : v.tok c = .queued := (hok.queued c).mp (List.mem_of_mem_head? hm)
      exact h.quiet (seatings_quiet rfl) (hasSeat_update hq rfl)
  | bake k c | serve k c | accept k c | leave k c | order k c =>
      exact h.quiet (seatings_quiet rfl) (hasSeat_update hm rfl)
  | bring k c => exact h.quiet rfl (hasSeat_update hm rfl)
  | glance k c => exact h.quiet rfl (hasSeat_update hm.1 rfl)
  | fetch k c x =>
      have hx := hok.fetched hm (.hand k .finishing)
      refine h.quiet rfl fun y => ?_
      exact (hasSeat_update (t := .hand k .seen) hx rfl y).trans
        (hasSeat_update (t := .hand k .finishing) hm.1 rfl y)

/-- Whoever is leaving has a seat. -/
theorem Took.seat_of_leaving (h : v.Took) (hok : v.Ok) (hc : v.errand c = .leaving) :
    v.seat c = true ∧ v.paid c = true := by
  have hpaid := hok.late c (by rw [hc]; rfl)
  have hlate := hok.paid c hpaid
  have hseat : (v.tok c).hasSeat = true := by
    cases ht : v.tok c with
    | hand k g => cases g <;> rw [ht] at hlate <;> first | rfl | cases hlate
    | done => rfl
    | outside | admitted | entering | sitting | stands | queued =>
        rw [ht] at hlate
        cases hlate
  refine ⟨?_, hpaid⟩
  simp [Hall.seat, hasSeat, (h c).mpr hseat, hc, Errand.posted]

/-! ## The books -/

variable [Fintype γ]

/-- **Every hand-over adds a seat.** -/
def Counted (v : Hall γ χ) : Prop :=
  v.seats + ∑ c, (v.seat c).toNat = sofaSeats + handOvers v.log

theorem Counted.act (h : v.Counted) (htook : v.Took) (hok : v.Ok) (hm : v.May a) :
    (v.act a).Counted := by
  -- somebody without a seat has none to count
  have hnone : ∀ c, (v.tok c).hasSeat = false → v.seat c = false := by
    intro c hc
    have hnot : c ∉ seatings v.log := fun hmem => by
      rw [(htook c).mp hmem] at hc
      cases hc
    simp [Hall.seat, hasSeat, hnot]
  have hsum := sum_update v.seat Bool.toNat
  unfold Counted at *
  rw [seat_act hok hm]
  cases a with
  | sit c =>
      have hout := hok.tok_of_own (c := c) (o := .entering) (by rw [hm.1]; rfl)
      have hc := hnone c (by rw [hout]; rfl)
      have hup := hsum c true
      rw [hc, Bool.toNat_false, Bool.toNat_true] at hup
      have hpos := hm.2.2
      show v.seats - 1 + ∑ x, (Function.update v.seat c true x).toNat =
        sofaSeats + handOvers (v.log ++ [.sits c])
      rw [handOvers_concat]
      show _ = _ + (_ + 0)
      omega
  | move k c =>
      have hc := hnone c (by rw [hm]; rfl)
      have hup := hsum c true
      rw [hc, Bool.toNat_false, Bool.toNat_true] at hup
      show v.seats + ∑ x, (Function.update v.seat c true x).toNat =
        sofaSeats + handOvers (v.log ++ [.moves c])
      rw [handOvers_concat]
      show _ = _ + (_ + 1)
      omega
  | post c =>
      have hc := (htook.seat_of_leaving hok hm).1
      have hup := hsum c false
      rw [hc, Bool.toNat_false, Bool.toNat_true] at hup
      show v.seats + 1 + ∑ x, (Function.update v.seat c false x).toNat =
        sofaSeats + handOvers v.log
      omega
  | letIn c | stand c | join c | walk c e | pay k c | glance k c | fetch k c x | bring k c => exact h
  | refuse c | enter c | ask c | take k c | bake k c | serve k c | accept k c | leave k c
  | order k c =>
      show _ = sofaSeats + handOvers (v.log ++ [_])
      rw [handOvers_concat]
      exact h

/-- The number of customers in the act of leaving. -/
def leavers (v : Hall γ χ) : Nat := Bakery.leavers v.log v.errand v.paid

/-- Only a customer who posts a seat stops being one who leaves. -/
theorem leavers_mono (hok : v.Ok) (hm : v.May a) (hpost : ∀ c, a ≠ .post c) :
    v.leavers ≤ (v.act a).leavers := by
  have hseat : ∀ x, v.seat x = true → (v.act a).seat x = true := by
    intro x hx
    rw [seat_act hok hm]
    cases a with
    | post c => exact absurd rfl (hpost c)
    | sit c | move k c =>
        show Function.update v.seat c true x = true
        by_cases hxc : x = c
        · subst hxc
          exact Function.update_self ..
        · rw [Function.update_of_ne hxc]
          exact hx
    | _ => exact hx
  have hpaid : ∀ x, v.paid x = true → (v.act a).paid x = true := by
    intro x hx
    cases a with
    | pay k c =>
        show Function.update v.paid c true x = true
        by_cases hxc : x = c
        · subst hxc
          exact Function.update_self ..
        · rw [Function.update_of_ne hxc]
          exact hx
    | _ => exact hx
  refine Finset.sum_le_sum fun x _ => ?_
  cases hs : v.seat x && v.paid x with
  | false =>
      change (v.seat x && v.paid x).toNat ≤ _
      rw [hs]
      exact Nat.zero_le _
  | true =>
      obtain ⟨h₁, h₂⟩ := Bool.and_eq_true_iff.mp hs
      change _ ≤ ((v.act a).seat x && (v.act a).paid x).toNat
      rw [hseat x h₁, hpaid x h₂]
      exact Bool.toNat_le _

/-- A customer who posts a seat does. -/
theorem leavers_post (htook : v.Took) (hok : v.Ok) (hm : v.May (.post c)) :
    (v.act (.post c)).leavers + 1 = v.leavers := by
  obtain ⟨hseat, hpaid⟩ := htook.seat_of_leaving hok hm
  have hsum := sum_update (fun x => v.seat x && v.paid x) Bool.toNat c false
  rw [hseat, hpaid] at hsum
  have hact : (v.act (.post c)).leavers =
      ∑ x, (Function.update (fun x => v.seat x && v.paid x) c false x).toNat := by
    refine Finset.sum_congr rfl fun x _ => congrArg Bool.toNat ?_
    show ((v.act (.post c)).seat x && v.paid x) = _
    rw [seat_act hok hm]
    show (Function.update v.seat c false x && v.paid x) = _
    by_cases hxc : x = c
    · subst hxc
      simp
    · rw [Function.update_of_ne hxc, Function.update_of_ne hxc]
  rw [hact]
  exact hsum

def HandsOver (v : Hall γ χ) : Act γ χ → Prop
  | .post _ | .move _ _ => handOvers v.log < v.leavers
  | _ => True

/-- Every seat that was handed over is that of somebody who is leaving. -/
def Covered (v : Hall γ χ) : Prop := handOvers v.log ≤ v.leavers

theorem Covered.act (h : v.Covered) (htook : v.Took) (hok : v.Ok) (hm : v.May a)
    (hc : v.HandsOver a) : (v.act a).Covered := by
  unfold Covered at *
  cases a with
  | post c =>
      have hpost := leavers_post htook hok hm
      change handOvers v.log < v.leavers at hc
      show handOvers v.log ≤ _
      omega
  | move k c =>
      have hmono := leavers_mono hok hm nofun
      change handOvers v.log < v.leavers at hc
      show handOvers (v.log ++ [.moves c]) ≤ _
      rw [handOvers_concat]
      exact Nat.le_trans hc hmono
  | letIn c | stand c | join c | walk c e | pay k c | glance k c | fetch k c x | bring k c =>
      exact Nat.le_trans h (leavers_mono hok hm nofun)
  | sit c | refuse c | enter c | ask c | take k c | bake k c | serve k c | accept k c | leave k c
  | order k c =>
      refine Nat.le_trans ?_ (leavers_mono hok hm nofun)
      show handOvers (v.log ++ [_]) ≤ _
      rw [handOvers_concat]
      exact h

/-- What holds in every run. -/
structure Booked (v : Hall γ χ) : Prop where
  ok : v.Ok
  took : v.Took
  counted : v.Counted

theorem booked_init : (init : Hall γ χ).Booked :=
  ⟨ok_init, by simp [Took, init, seatings, Tok.hasSeat], by
    simp [Counted, init, seat, hasSeat, seatings, handOvers]⟩

theorem Booked.act (h : v.Booked) (hm : v.May a) : (v.act a).Booked :=
  ⟨h.ok.act hm, h.took.act h.ok hm, h.counted.act h.took h.ok hm⟩

theorem booked_reaches {C : Hall γ χ → Act γ χ → Prop} (h : Reaches step C init v) : v.Booked :=
  h.invariant booked_init fun _ _ _ hv _ hgo => by
    obtain ⟨hm, rfl⟩ := step_eq_go.mp hgo
    exact hv.act hm

theorem covered_reaches (h : Reaches step HandsOver init v) : v.Covered := by
  have hboth : v.Booked ∧ v.Covered := by
    refine h.invariant (I := fun v => v.Booked ∧ v.Covered) ⟨booked_init, Nat.zero_le _⟩
      fun v a v' hv hc hgo => ?_
    obtain ⟨hm, rfl⟩ := step_eq_go.mp hgo
    exact ⟨hv.1.act hm, hv.2.act hv.1.took hv.1.ok hm hc⟩
  exact hboth.2

end Hall

namespace Day

variable {γ χ : Type} [DecidableEq γ] [DecidableEq χ] [Fintype γ]

/-- The books of the day. -/
theorem seats_sum {d : Day List γ χ} {C : Day List γ χ → Thread γ χ → Prop}
    (h : Reaches step C init d) :
    d.numOfSeats + seated d.log d.errand d.isPaying + leavers d.log d.errand d.isPaying =
      sofaSeats + handOvers d.log := by
  obtain ⟨tok, hhall, -⟩ := hall_reaches_any h
  have hcount := (Hall.booked_reaches hhall).counted
  have hsplit := seated_add_leavers d.log d.errand d.isPaying
  change d.numOfSeats + ∑ c, (hasSeat d.log d.errand c).toNat = _ at hcount
  change _ = sofaSeats + handOvers d.log at hcount
  omega

omit [DecidableEq χ] in
theorem handsOver_hall {d : Day List γ χ} {tok : γ → Tok χ} {i : Thread γ χ} {a : Act γ χ}
    (hc : d.HandsOver i) (ha : d.acts i = some a) : (d.hall tok).HandsOver a := by
  cases a with
  | post c =>
      obtain ⟨rfl, he⟩ := makes_of_acts ha
      exact hc he
  | move k x =>
      obtain ⟨rfl, hk⟩ := makes_of_acts ha
      exact hc x hk
  | _ => trivial

/-- The books of the day, in the words of `Balanced`. -/
theorem balanced_iff_list {d : Day List γ χ} {C : Day List γ χ → Thread γ χ → Prop}
    (h : Reaches step C init d) :
    d.Balanced ↔ handOvers d.log ≤ leavers d.log d.errand d.isPaying := by
  have hsum := seats_sum h
  constructor
  · intro hb
    have := hb.upper
    omega
  · intro hle
    exact ⟨by omega, by omega, by omega⟩

omit [DecidableEq χ] in
theorem handsOver_over {d : Day Queue γ χ} {l₁ l₂ : List γ} {i : Thread γ χ}
    (hc : d.HandsOver i) : (d.onLists l₁ l₂).HandsOver i := by
  cases i with
  | customer c => exact hc
  | chef k => exact hc

variable [Fintype χ]

/-- **At most four on the sofa**, and the semaphore counts the free seats,
in every run in which seats are handed over and posted only while more
customers are in the act of leaving than seats have been handed over. -/
theorem sofa_balanced {d : Day Queue γ χ} (h : Reaches step HandsOver init d) : d.Balanced := by
  obtain ⟨l₁, l₂, hlist, -⟩ := stands_reaches (fun _ hc => handsOver_over hc) h
  obtain ⟨tok, hhall, -⟩ := hall_reaches (fun _ _ hc ha => handsOver_hall hc ha) hlist
  have hb := (balanced_iff_list hlist).mpr (Hall.covered_reaches hhall)
  exact ⟨hb.seated, hb.upper, hb.lower⟩

instance (d : Day Queue γ χ) (i : Thread γ χ) : Decidable (d.HandsOver i) :=
  match i with
  | .customer c => inferInstanceAs (Decidable (d.errand c = .leaving → _ < _))
  | .chef k => inferInstanceAs (Decidable (∀ x, d.duty k = .moving x → _ < _))

theorem sofa_balanced_five : ∃ d : Day Queue (Fin 5) (Fin 4), Reaches step HandsOver init d ∧
    handOvers d.log = 1 ∧ seated d.log d.errand d.isPaying = 4 ∧ d.Balanced := by
  obtain ⟨d, hd, hP⟩ := exists_reaches step
    (fun (d : Day Queue (Fin 5) (Fin 4)) i (h : decide (d.HandsOver i) = true) =>
      of_decide_eq_true h)
    (fun d : Day Queue (Fin 5) (Fin 4) => decide (handOvers d.log = 1) &&
      decide (seated d.log d.errand d.isPaying = 4)) init (handOverSchedule 5 (by omega))
    (by decide +kernel)
  obtain ⟨h₁, h₂⟩ := Bool.and_eq_true_iff.mp hP
  exact ⟨d, hd, of_decide_eq_true h₁, of_decide_eq_true h₂, sofa_balanced hd⟩

/-- **Five on the sofa.** The first customer posts the seat that was handed
over, and a sixth one takes it. -/
theorem sofa_overfull : ∃ d : Day Queue (Fin 6) (Fin 4), Reaches step AnyTurn init d ∧
    seated d.log d.errand d.isPaying = 5 ∧ ¬ d.Balanced := by
  obtain ⟨d, hd, hP⟩ := exists_reaches step anyTurn_ok
    (fun d : Day Queue (Fin 6) (Fin 4) => decide (seated d.log d.errand d.isPaying = 5)) init
    (handOverSchedule 6 (by omega) ++ List.replicate 3 (.customer 0) ++
      List.replicate 3 (.customer 5)) (by decide +kernel)
  have hfive := of_decide_eq_true hP
  refine ⟨d, hd, hfive, fun hb => ?_⟩
  have hle := hb.seated
  rw [hfive] at hle
  exact absurd hle (by decide)

end Day

end OsSuite.Bakery
