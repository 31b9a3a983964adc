import OsSuite.Bakery.Places

/-!
# Day — the bakery with what it prints

`Concurrent-Bakery-Sim/main.c` once more, now with the lines that the
threads print. A line is an action of its own: between the statement
before it and the statement after it any other thread may run. So the
places of a thread are finer here than in `Shop`, which is what remains
of a day when the output is taken away (`Day.Shows`).

The section of `customer` that tests for a free seat is one action
together with the line it prints. It runs under `sofa_access_lock`; the
only thing in it that another thread may touch meanwhile is the
semaphore, and a `sem_post` before or after the `sem_trywait` makes no
difference to a `sem_trywait` that succeeds.

A day is written once for any implementation of its two queues. `Queue`
is the ring of the source; `List` is what a ring stands for, as long as
there is room in it — and there always is (`Day.Stands`).
-/

namespace OsSuite.Bakery

/-- What is seen of the threads. All but `takes` are lines of the output. -/
inductive Note (γ χ : Type) where
  /-- `leaves, bakery is full.` -/
  | full (c : γ)
  | enters (c : γ)
  /-- `sits on the sofa` -/
  | sits (c : γ)
  /-- `moves from standing to sofa` -/
  | moves (c : γ)
  | requests (c : γ)
  /-- Not printed: `my_dequeue(&sofa)` gave `c` to the chef. -/
  | takes (k : χ) (c : γ)
  | bakes (k : χ) (c : γ)
  /-- `got cake, ready to pay` -/
  | gotCake (c : γ)
  | accepts (k : χ) (c : γ)
  | leaves (c : γ)
  deriving DecidableEq, Repr

/-- Where the thread of a customer is. -/
inductive Errand where
  /-- Before `sem_trywait(&num_of_cus)`. -/
  | arriving
  /-- The bakery was full; before that is printed. -/
  | refused
  | turnedAway
  /-- Before `enters` is printed. -/
  | admitted
  | entering
  /-- Has a seat, and is about to join the sofa queue. -/
  | sitting
  /-- In the sofa queue; before `requests cake` is printed. -/
  | asking
  /-- Polls `is_baking`. -/
  | waitingCake
  /-- Polls `is_paying`. -/
  | waitingPay
  /-- Before `sem_post(&num_of_seats)`. -/
  | leaving
  /-- Before `sem_post(&num_of_cus)`. -/
  | leavingSeat
  | gone
  deriving DecidableEq, Repr

/-- Where the thread of a chef is, and whom it deals with. -/
inductive Duty (γ : Type) where
  /-- Before `my_dequeue(&sofa)`. -/
  | idle
  /-- Before `is baking` is printed. -/
  | took (c : γ)
  /-- Before `is_baking = 1`. -/
  | baking (c : γ)
  /-- Before `got cake` is printed. -/
  | baked (c : γ)
  /-- Before the cash register is locked. -/
  | charging (c : γ)
  /-- Before `accepts the payment` is printed. -/
  | atCash (c : γ)
  /-- Before the cash register is unlocked. -/
  | paying (c : γ)
  /-- Before `is_paying = 1`. -/
  | paid (c : γ)
  /-- Before `my_dequeue(&standing)`. -/
  | next (c : γ)
  /-- Before `leaves` is printed, with what the standing queue gave. -/
  | seeing (c : γ) (d : Option γ)
  /-- Before `moves from standing to sofa` is printed. -/
  | moving (d : γ)
  /-- Before `requests cake` is printed. -/
  | ordering (d : γ)
  /-- Before `my_enqueue(&sofa, d)`. -/
  | bringing (d : γ)
  deriving DecidableEq, Repr

/-- An implementation of `Queue`: `my_init`, `my_enqueue` with its result
ignored, `my_dequeue` and `get_count`. -/
class Line (Q : Type → Type) where
  init {γ : Type} : Q γ
  enqueue {γ : Type} : Q γ → γ → Q γ
  dequeue {γ : Type} : Q γ → Option γ × Q γ
  count {γ : Type} : Q γ → Nat

instance : Line Queue where
  init := .init
  enqueue q c := (q.enqueue c).1
  dequeue := Queue.dequeue
  count := Queue.count

instance : Line List where
  init := []
  enqueue l c := l ++ [c]
  dequeue
    | [] => (none, [])
    | c :: l => (some c, l)
  count := List.length

structure Day (Q : Type → Type) (γ χ : Type) where
  /-- The semaphores. -/
  numOfCus : Nat
  numOfSeats : Nat
  sofa : Q γ
  standing : Q γ
  /-- The chef that holds `cash_register_lock`. -/
  cash : Option χ
  isBaking : γ → Bool
  isPaying : γ → Bool
  errand : γ → Errand
  duty : χ → Duty γ
  log : List (Note γ χ)

namespace Day

variable {Q : Type → Type} [Line Q] {γ χ : Type}

/-- The state that `main` sets up. -/
def init : Day Q γ χ where
  numOfCus := bakeryCapacity
  numOfSeats := sofaSeats
  sofa := Line.init
  standing := Line.init
  cash := none
  isBaking _ := false
  isPaying _ := false
  errand _ := .arriving
  duty _ := .idle
  log := []

/-- Print a line. -/
def say (d : Day Q γ χ) (n : Note γ χ) : Day Q γ χ := { d with log := d.log ++ [n] }

variable [DecidableEq γ] [DecidableEq χ]

def setErrand (d : Day Q γ χ) (c : γ) (e : Errand) : Day Q γ χ :=
  { d with errand := Function.update d.errand c e }

def setDuty (d : Day Q γ χ) (k : χ) (t : Duty γ) : Day Q γ χ :=
  { d with duty := Function.update d.duty k t }

/-- The test of `customer` for a seat. -/
def mayNotSit (d : Day Q γ χ) : Prop := ¬ (Line.count d.standing = 0 ∧ 0 < d.numOfSeats)

instance (d : Day Q γ χ) : Decidable d.mayNotSit := inferInstanceAs (Decidable (¬ _))

/-- A turn of `customer`. -/
def customer (d : Day Q γ χ) (c : γ) : Turn (Day Q γ χ) :=
  match d.errand c with
  | .arriving =>
      if 0 < d.numOfCus then .go ({ d with numOfCus := d.numOfCus - 1 }.setErrand c .admitted)
      else .go (d.setErrand c .refused)
  | .refused => .go ((d.say (.full c)).setErrand c .turnedAway)
  | .admitted => .go ((d.say (.enters c)).setErrand c .entering)
  | .entering =>
      -- one section under sofa_access_lock
      if d.mayNotSit then
        .go ({ d with standing := Line.enqueue d.standing c }.setErrand c .waitingCake)
      else .go (({ d with numOfSeats := d.numOfSeats - 1 }.say (.sits c)).setErrand c .sitting)
  | .sitting => .go ({ d with sofa := Line.enqueue d.sofa c }.setErrand c .asking)
  | .asking => .go ((d.say (.requests c)).setErrand c .waitingCake)
  | .waitingCake => if d.isBaking c then .go (d.setErrand c .waitingPay) else .wait
  | .waitingPay => if d.isPaying c then .go (d.setErrand c .leaving) else .wait
  | .leaving => .go ({ d with numOfSeats := d.numOfSeats + 1 }.setErrand c .leavingSeat)
  | .leavingSeat => .go ({ d with numOfCus := d.numOfCus + 1 }.setErrand c .gone)
  | .turnedAway => .wait
  | .gone => .wait

/-- A turn of `Chef`. -/
def chef (d : Day Q γ χ) (k : χ) : Turn (Day Q γ χ) :=
  match d.duty k with
  | .idle =>
      match Line.dequeue d.sofa with
      | (none, q) => .go { d with sofa := q }
      | (some c, q) => .go (({ d with sofa := q }.say (.takes k c)).setDuty k (.took c))
  | .took c => .go ((d.say (.bakes k c)).setDuty k (.baking c))
  | .baking c =>
      .go ({ d with isBaking := Function.update d.isBaking c true }.setDuty k (.baked c))
  | .baked c => .go ((d.say (.gotCake c)).setDuty k (.charging c))
  | .charging c =>
      if d.cash = none then .go ({ d with cash := some k }.setDuty k (.atCash c)) else .wait
  | .atCash c => .go ((d.say (.accepts k c)).setDuty k (.paying c))
  | .paying c => .go ({ d with cash := none }.setDuty k (.paid c))
  | .paid c => .go ({ d with isPaying := Function.update d.isPaying c true }.setDuty k (.next c))
  | .next c =>
      match Line.dequeue d.standing with
      | (x, q) => .go ({ d with standing := q }.setDuty k (.seeing c x))
  | .seeing c none => .go ((d.say (.leaves c)).setDuty k .idle)
  | .seeing c (some x) => .go ((d.say (.leaves c)).setDuty k (.moving x))
  | .moving x => .go ((d.say (.moves x)).setDuty k (.ordering x))
  | .ordering x => .go ((d.say (.requests x)).setDuty k (.bringing x))
  | .bringing x => .go ({ d with sofa := Line.enqueue d.sofa x }.setDuty k .idle)

def step (d : Day Q γ χ) : Thread γ χ → Turn (Day Q γ χ)
  | .customer c => d.customer c
  | .chef k => d.chef k

end Day

/-! ## Without the output -/

/-- The place of a customer's thread in `Shop`. -/
def Errand.visit : Errand → Visit
  | .arriving => .arriving
  | .refused | .turnedAway => .turnedAway
  | .admitted | .entering => .entering
  | .sitting => .sitting
  | .asking | .waitingCake => .waitingCake
  | .waitingPay => .waitingPay
  | .leaving => .leaving
  | .leavingSeat => .leavingSeat
  | .gone => .gone

/-- The place of a chef's thread in `Shop`. -/
def Duty.task {γ : Type} : Duty γ → Task γ
  | .idle | .seeing _ none => .idle
  | .took c | .baking c => .baking c
  | .baked c | .charging c => .charging c
  | .atCash c | .paying c => .paying c
  | .paid c => .paid c
  | .next _ => .next
  | .seeing _ (some x) | .moving x | .ordering x | .bringing x => .moving x

namespace Day

variable {γ χ : Type}

/-- `s` is the day without its output. -/
structure Shows (d : Day Queue γ χ) (s : Shop γ χ) : Prop where
  numOfCus : s.numOfCus = d.numOfCus
  numOfSeats : s.numOfSeats = d.numOfSeats
  sofa : s.sofa = d.sofa
  standing : s.standing = d.standing
  cash : s.cash = d.cash
  isBaking : s.isBaking = d.isBaking
  isPaying : s.isPaying = d.isPaying
  visit : ∀ c, s.visit c = (d.errand c).visit
  task : ∀ k, s.task k = (d.duty k).task

theorem shows_init : (init : Day Queue γ χ).Shows Shop.init :=
  ⟨rfl, rfl, rfl, rfl, rfl, rfl, rfl, fun _ => rfl, fun _ => rfl⟩

section
variable [DecidableEq γ] [DecidableEq χ] {d d' : Day Queue γ χ} {s : Shop γ χ} {c : γ} {k : χ}

omit [DecidableEq χ] in
theorem Shows.setErrand (h : d.Shows s) {e : Errand} {v : Visit} (hv : e.visit = v) :
    (d.setErrand c e).Shows (s.setVisit c v) :=
  { h with
    visit := by
      intro x
      show Function.update s.visit c v x = (Function.update d.errand c e x).visit
      by_cases hx : x = c
      · subst hx
        rw [Function.update_self, Function.update_self, hv]
      · rw [Function.update_of_ne hx, Function.update_of_ne hx, h.visit x] }

omit [DecidableEq γ] in
theorem Shows.setDuty (h : d.Shows s) {t : Duty γ} {u : Task γ} (ht : t.task = u) :
    (d.setDuty k t).Shows (s.setTask k u) :=
  { h with
    task := by
      intro x
      show Function.update s.task k u x = (Function.update d.duty k t x).task
      by_cases hx : x = k
      · subst hx
        rw [Function.update_self, Function.update_self, ht]
      · rw [Function.update_of_ne hx, Function.update_of_ne hx, h.task x] }

omit [DecidableEq χ] in
/-- A customer that moves on within one place of the shop. -/
theorem Shows.setErrand_same (h : d.Shows s) {e : Errand} (hv : e.visit = (d.errand c).visit) :
    (d.setErrand c e).Shows s := by
  have hself : s.setVisit c (d.errand c).visit = s := by
    rw [← h.visit c, Shop.setVisit, Function.update_eq_self]
  rw [← hself]
  exact h.setErrand hv

omit [DecidableEq γ] in
/-- A chef that moves on within one place of the shop. -/
theorem Shows.setDuty_same (h : d.Shows s) {t : Duty γ} (ht : t.task = (d.duty k).task) :
    (d.setDuty k t).Shows s := by
  have hself : s.setTask k (d.duty k).task = s := by
    rw [← h.task k, Shop.setTask, Function.update_eq_self]
  rw [← hself]
  exact h.setDuty ht

omit [DecidableEq γ] [DecidableEq χ] in
theorem Shows.say (h : d.Shows s) (n : Note γ χ) : (d.say n).Shows s := { h with }

/-- A turn of the shop, as a run of one turn. -/
theorem shop_turn {i : Thread γ χ} {s' : Shop γ χ} (hgo : s.step i = .go s') :
    Reaches Shop.step AnyTurn s s' := .turn .refl trivial hgo

/-- **A turn of a customer is a turn of the shop, or none.** -/
theorem Shows.customer (h : d.Shows s) (hgo : d.customer c = .go d') :
    ∃ s', Reaches Shop.step AnyTurn s s' ∧ d'.Shows s' := by
  have hv := h.visit c
  have hturn : ∀ {s' : Shop γ χ}, s.customer c = .go s' → Reaches Shop.step AnyTurn s s' :=
    fun hs => shop_turn (i := .customer c) hs
  unfold Day.customer at hgo
  cases he : d.errand c with
  | arriving =>
      rw [he] at hv
      simp only [he, ← h.numOfCus] at hgo
      split at hgo
      · rename_i hpos
        cases hgo
        refine ⟨{ s with numOfCus := s.numOfCus - 1 }.setVisit c .entering, hturn ?_, ?_⟩
        · simp [Shop.customer, hv, Errand.visit, hpos]
        · refine Shows.setErrand ?_ rfl
          exact { h with numOfCus := rfl }
      · rename_i hpos
        cases hgo
        refine ⟨s.setVisit c .turnedAway, hturn ?_, h.setErrand rfl⟩
        simp [Shop.customer, hv, Errand.visit, hpos]
  | refused | admitted | asking =>
      -- a line is printed: the shop stands still
      simp only [he] at hgo
      cases hgo
      exact ⟨s, .refl, (h.say _).setErrand_same (congrArg Errand.visit he).symm⟩
  | entering =>
      rw [he] at hv
      simp only [he] at hgo
      split at hgo
      · rename_i hsit
        cases hgo
        have hsit : ¬ (s.standing.count = 0 ∧ 0 < s.numOfSeats) := by
          rw [h.standing, h.numOfSeats]
          exact hsit
        refine ⟨(s.toStanding c).setVisit c .waitingCake, hturn ?_, ?_⟩
        · simp [Shop.customer, hv, Errand.visit, hsit]
        · refine Shows.setErrand ?_ rfl
          exact { h with standing := by rw [← h.standing]; rfl }
      · rename_i hsit
        cases hgo
        have hsit : s.standing.count = 0 ∧ 0 < s.numOfSeats := by
          rw [h.standing, h.numOfSeats]
          exact not_not.mp hsit
        refine ⟨{ s with numOfSeats := s.numOfSeats - 1 }.setVisit c .sitting, hturn ?_, ?_⟩
        · simp [Shop.customer, hv, Errand.visit, hsit]
        · refine Shows.setErrand ?_ rfl
          exact { h with numOfSeats := by rw [h.numOfSeats]; rfl }
  | sitting =>
      rw [he] at hv
      simp only [he] at hgo
      cases hgo
      refine ⟨(s.toSofa c).setVisit c .waitingCake, hturn ?_, ?_⟩
      · simp [Shop.customer, hv, Errand.visit]
      · refine Shows.setErrand ?_ rfl
        exact { h with sofa := by rw [← h.sofa]; rfl }
  | waitingCake =>
      rw [he] at hv
      simp only [he, ← h.isBaking] at hgo
      split at hgo <;> cases hgo
      rename_i hcake
      refine ⟨s.setVisit c .waitingPay, hturn ?_, h.setErrand rfl⟩
      simp [Shop.customer, hv, Errand.visit, hcake]
  | waitingPay =>
      rw [he] at hv
      simp only [he, ← h.isPaying] at hgo
      split at hgo <;> cases hgo
      rename_i hpay
      refine ⟨s.setVisit c .leaving, hturn ?_, h.setErrand rfl⟩
      simp [Shop.customer, hv, Errand.visit, hpay]
  | leaving =>
      rw [he] at hv
      simp only [he] at hgo
      cases hgo
      refine ⟨{ s with numOfSeats := s.numOfSeats + 1 }.setVisit c .leavingSeat, hturn ?_, ?_⟩
      · simp [Shop.customer, hv, Errand.visit]
      · refine Shows.setErrand ?_ rfl
        exact { h with numOfSeats := by rw [h.numOfSeats] }
  | leavingSeat =>
      rw [he] at hv
      simp only [he] at hgo
      cases hgo
      refine ⟨{ s with numOfCus := s.numOfCus + 1 }.setVisit c .gone, hturn ?_, ?_⟩
      · simp [Shop.customer, hv, Errand.visit]
      · refine Shows.setErrand ?_ rfl
        exact { h with numOfCus := by rw [h.numOfCus] }
  | turnedAway | gone =>
      simp only [he] at hgo
      cases hgo

/-- **A turn of a chef is a turn of the shop, or none.** -/
theorem Shows.chef (h : d.Shows s) (hgo : d.chef k = .go d') :
    ∃ s', Reaches Shop.step AnyTurn s s' ∧ d'.Shows s' := by
  have ht := h.task k
  have hturn : ∀ {s' : Shop γ χ}, s.chef k = .go s' → Reaches Shop.step AnyTurn s s' :=
    fun hs => shop_turn (i := .chef k) hs
  -- a chef that only prints stays where it is in the shop
  have hsay : ∀ {n : Note γ χ} {t : Duty γ}, d' = (d.say n).setDuty k t →
      t.task = (d.duty k).task → ∃ s', Reaches Shop.step AnyTurn s s' ∧ d'.Shows s' := by
    rintro n t rfl htask
    exact ⟨s, .refl, (h.say n).setDuty_same htask⟩
  unfold Day.chef at hgo
  cases hk : d.duty k with
  | idle =>
      rw [hk] at ht
      simp only [hk] at hgo
      split at hgo
      · rename_i q hq
        cases hgo
        have hq : s.sofa.dequeue = (none, q) := by rw [h.sofa]; exact hq
        refine ⟨{ s with sofa := q }, hturn ?_, { h with sofa := rfl }⟩
        simp [Shop.chef, ht, Duty.task, hq]
      · rename_i c q hq
        cases hgo
        have hq : s.sofa.dequeue = (some c, q) := by rw [h.sofa]; exact hq
        refine ⟨{ s with sofa := q }.setTask k (.baking c), hturn ?_, ?_⟩
        · simp [Shop.chef, ht, Duty.task, hq]
        · refine Shows.setDuty ?_ rfl
          exact { h with sofa := rfl }
  | took c | baked c | atCash c | moving c | ordering c =>
      simp only [hk] at hgo
      cases hgo
      exact hsay rfl (by rw [hk]; rfl)
  | baking c =>
      rw [hk] at ht
      simp only [hk] at hgo
      cases hgo
      refine ⟨{ s with
        isBaking := Function.update s.isBaking c true
        baked := Function.update s.baked c (s.baked c + 1) }.setTask k (.charging c), hturn ?_, ?_⟩
      · simp [Shop.chef, ht, Duty.task]
      · refine Shows.setDuty ?_ rfl
        exact { h with isBaking := by rw [h.isBaking] }
  | charging c =>
      rw [hk] at ht
      simp only [hk, ← h.cash] at hgo
      split at hgo <;> cases hgo
      rename_i hcash
      refine ⟨{ s with
        cash := some k
        charged := Function.update s.charged c (s.charged c + 1) }.setTask k (.paying c),
        hturn ?_, ?_⟩
      · simp [Shop.chef, ht, Duty.task, hcash]
      · refine Shows.setDuty ?_ rfl
        exact { h with cash := rfl }
  | paying c =>
      rw [hk] at ht
      simp only [hk] at hgo
      cases hgo
      refine ⟨{ s with cash := none }.setTask k (.paid c), hturn ?_, ?_⟩
      · simp [Shop.chef, ht, Duty.task]
      · refine Shows.setDuty ?_ rfl
        exact { h with cash := rfl }
  | paid c =>
      rw [hk] at ht
      simp only [hk] at hgo
      cases hgo
      refine ⟨{ s with isPaying := Function.update s.isPaying c true }.setTask k .next,
        hturn ?_, ?_⟩
      · simp [Shop.chef, ht, Duty.task]
      · refine Shows.setDuty ?_ rfl
        exact { h with isPaying := by rw [h.isPaying] }
  | next c =>
      rw [hk] at ht
      simp only [hk] at hgo
      cases hgo
      have hq : s.standing.dequeue = Line.dequeue d.standing := by rw [h.standing]; rfl
      cases hx : Line.dequeue d.standing with
      | mk x q =>
          rw [hx] at hq
          cases x with
          | none =>
              refine ⟨{ s with standing := q }.setTask k .idle, hturn ?_, ?_⟩
              · simp [Shop.chef, ht, Duty.task, hq]
              · refine Shows.setDuty ?_ rfl
                exact { h with standing := rfl }
          | some x =>
              refine ⟨{ s with standing := q }.setTask k (.moving x), hturn ?_, ?_⟩
              · simp [Shop.chef, ht, Duty.task, hq]
              · refine Shows.setDuty ?_ rfl
                exact { h with standing := rfl }
  | seeing c x =>
      cases x with
      | none | some x =>
          simp only [hk] at hgo
          cases hgo
          exact hsay rfl (by rw [hk]; rfl)
  | bringing c =>
      rw [hk] at ht
      simp only [hk] at hgo
      cases hgo
      refine ⟨(s.toSofa c).setTask k .idle, hturn ?_, ?_⟩
      · simp [Shop.chef, ht, Duty.task]
      · refine Shows.setDuty ?_ rfl
        exact { h with sofa := by rw [← h.sofa]; rfl }

/-- **The shop is a day without its output.** -/
theorem Shows.step (h : d.Shows s) {i : Thread γ χ} (hgo : d.step i = .go d') :
    ∃ s', Reaches Shop.step AnyTurn s s' ∧ d'.Shows s' := by
  cases i with
  | customer c => exact h.customer hgo
  | chef k => exact h.chef hgo

/-! ## With lists for rings -/

/-- The day, with lists in the place of its rings. -/
def onLists (d : Day Queue γ χ) (sitters standers : List γ) : Day List γ χ where
  numOfCus := d.numOfCus
  numOfSeats := d.numOfSeats
  sofa := sitters
  standing := standers
  cash := d.cash
  isBaking := d.isBaking
  isPaying := d.isPaying
  errand := d.errand
  duty := d.duty
  log := d.log

/-- The lists are what is in the rings. -/
structure Stands (d : Day Queue γ χ) (sitters standers : List γ) : Prop where
  sofa : d.sofa.Holds sitters
  standing : d.standing.Holds standers

variable {sitters standers : List γ}

omit [DecidableEq γ] [DecidableEq χ] in
/-- The two implementations agree on whether a customer may sit down. -/
theorem Stands.mayNotSit (h : d.Stands sitters standers) :
    (d.onLists sitters standers).mayNotSit ↔ d.mayNotSit := by
  show ¬ (standers.length = 0 ∧ 0 < d.numOfSeats) ↔ ¬ (d.standing.count = 0 ∧ 0 < d.numOfSeats)
  rw [h.standing.count]

omit [DecidableEq χ] in
/-- **A turn of the day is the same turn on lists**, if there is room for
whoever joins a queue. -/
theorem Stands.customer (h : d.Stands sitters standers)
    (hroom : d.errand c = .entering ∨ d.errand c = .sitting →
      sitters.length < queueMax ∧ standers.length < queueMax)
    (hgo : d.customer c = .go d') :
    ∃ l₁ l₂, (d.onLists sitters standers).customer c = .go (d'.onLists l₁ l₂) ∧ d'.Stands l₁ l₂ := by
  have hover : (d.onLists sitters standers).errand = d.errand := rfl
  have hsit := h.mayNotSit
  unfold Day.customer at hgo ⊢
  rw [hover]
  cases he : d.errand c with
  | arriving =>
      simp only [he] at hgo ⊢
      split at hgo
      all_goals
        rename_i hpos
        cases hgo
        have hpos' : (d.onLists sitters standers).numOfCus = d.numOfCus := rfl
        rw [hpos']
      · exact ⟨sitters, standers, if_pos hpos, ⟨h.sofa, h.standing⟩⟩
      · exact ⟨sitters, standers, if_neg hpos, ⟨h.sofa, h.standing⟩⟩
  | refused | admitted | asking | leaving | leavingSeat =>
      simp only [he] at hgo ⊢
      cases hgo
      exact ⟨sitters, standers, rfl, ⟨h.sofa, h.standing⟩⟩
  | entering =>
      simp only [he] at hgo ⊢
      split at hgo
      · rename_i hno
        cases hgo
        refine ⟨sitters, standers ++ [c], ?_, ⟨h.sofa, ?_⟩⟩
        · rw [if_pos (hsit.mpr hno)]
          rfl
        · exact (h.standing.enqueue (hroom (.inl he)).2 c).1
      · rename_i hyes
        cases hgo
        refine ⟨sitters, standers, ?_, ⟨h.sofa, h.standing⟩⟩
        rw [if_neg (mt hsit.mp hyes)]
        rfl
  | sitting =>
      simp only [he] at hgo ⊢
      cases hgo
      refine ⟨sitters ++ [c], standers, rfl, ⟨?_, h.standing⟩⟩
      exact (h.sofa.enqueue (hroom (.inr he)).1 c).1
  | waitingCake | waitingPay =>
      simp only [he] at hgo ⊢
      split at hgo <;> cases hgo
      rename_i hflag
      exact ⟨sitters, standers, if_pos hflag, ⟨h.sofa, h.standing⟩⟩
  | turnedAway | gone =>
      simp only [he] at hgo
      cases hgo

theorem Stands.chef (h : d.Stands sitters standers)
    (hroom : ∀ x, d.duty k = .bringing x → sitters.length < queueMax)
    (hgo : d.chef k = .go d') :
    ∃ l₁ l₂, (d.onLists sitters standers).chef k = .go (d'.onLists l₁ l₂) ∧ d'.Stands l₁ l₂ := by
  have hover : (d.onLists sitters standers).duty = d.duty := rfl
  unfold Day.chef at hgo ⊢
  rw [hover]
  cases hk : d.duty k with
  | idle =>
      simp only [hk] at hgo ⊢
      rcases h.sofa.dequeue with ⟨rfl, hq⟩ | ⟨c, rest, q, rfl, hq, hrest⟩
      · change Line.dequeue d.sofa = _ at hq
        rw [hq] at hgo
        cases hgo
        exact ⟨[], standers, rfl, ⟨h.sofa, h.standing⟩⟩
      · change Line.dequeue d.sofa = _ at hq
        rw [hq] at hgo
        cases hgo
        exact ⟨rest, standers, rfl, ⟨hrest, h.standing⟩⟩
  | took c | baking c | baked c | atCash c | paying c | paid c | moving c | ordering c =>
      simp only [hk] at hgo ⊢
      cases hgo
      exact ⟨sitters, standers, rfl, ⟨h.sofa, h.standing⟩⟩
  | charging c =>
      simp only [hk] at hgo ⊢
      split at hgo <;> cases hgo
      rename_i hcash
      exact ⟨sitters, standers, if_pos hcash, ⟨h.sofa, h.standing⟩⟩
  | next c =>
      simp only [hk] at hgo ⊢
      rcases h.standing.dequeue with ⟨rfl, hq⟩ | ⟨x, rest, q, rfl, hq, hrest⟩
      · change Line.dequeue d.standing = _ at hq
        rw [hq] at hgo
        cases hgo
        exact ⟨sitters, [], rfl, ⟨h.sofa, h.standing⟩⟩
      · change Line.dequeue d.standing = _ at hq
        rw [hq] at hgo
        cases hgo
        exact ⟨sitters, rest, rfl, ⟨h.sofa, hrest⟩⟩
  | seeing c x =>
      cases x with
      | none | some x =>
          simp only [hk] at hgo ⊢
          cases hgo
          exact ⟨sitters, standers, rfl, ⟨h.sofa, h.standing⟩⟩
  | bringing c =>
      simp only [hk] at hgo ⊢
      cases hgo
      refine ⟨sitters ++ [c], standers, rfl, ⟨?_, h.standing⟩⟩
      exact (h.sofa.enqueue (hroom c hk) c).1

/-- The thread is about to call `my_enqueue`. -/
def aboutToEnqueue (d : Day Queue γ χ) : Thread γ χ → Prop
  | .customer c => d.errand c = .entering ∨ d.errand c = .sitting
  | .chef k => ∃ x, d.duty k = .bringing x

theorem Stands.step (h : d.Stands sitters standers) {i : Thread γ χ}
    (hroom : d.aboutToEnqueue i → sitters.length < queueMax ∧ standers.length < queueMax)
    (hgo : d.step i = .go d') :
    ∃ l₁ l₂, (d.onLists sitters standers).step i = .go (d'.onLists l₁ l₂) ∧ d'.Stands l₁ l₂ := by
  cases i with
  | customer c => exact h.customer hroom hgo
  | chef k => exact h.chef (fun x hx => (hroom ⟨x, hx⟩).1) hgo

variable [Fintype γ] [Fintype χ]

/-- There is room, because there is room in the shop. -/
theorem Stands.room (h : d.Stands sitters standers) (hs : d.Shows s)
    (hreach : Reaches Shop.step AnyTurn Shop.init s) {i : Thread γ χ} (hi : d.aboutToEnqueue i) :
    sitters.length < queueMax ∧ standers.length < queueMax := by
  have hshop : s.aboutToEnqueue i := by
    cases i with
    | customer c =>
        rcases hi with he | he
        · exact .inl (by rw [hs.visit c, he]; rfl)
        · exact .inr (by rw [hs.visit c, he]; rfl)
    | chef k =>
        obtain ⟨x, hx⟩ := hi
        exact ⟨x, by rw [hs.task k, hx]; rfl⟩
  obtain ⟨l₁, l₂, hinv⟩ := Shop.inv_reaches hreach
  have hroom := hinv.room_of_aboutToEnqueue hshop
  rw [hs.sofa, hs.standing, h.sofa.count, h.standing.count] at hroom
  exact hroom

/-- **Every run of the day is a run on lists.** -/
theorem stands_reaches {C : Day Queue γ χ → Thread γ χ → Prop}
    {C' : Day List γ χ → Thread γ χ → Prop}
    (hC : ∀ {d : Day Queue γ χ} {l₁ l₂ i}, d.Stands l₁ l₂ → C d i → C' (d.onLists l₁ l₂) i)
    (h : Reaches step C init d) :
    ∃ l₁ l₂, Reaches step C' init (d.onLists l₁ l₂) ∧ d.Stands l₁ l₂ := by
  -- the shop runs along: it is what makes room
  let R : Day Queue γ χ → Day List γ χ → Prop := fun d l => ∃ l₁ l₂ s,
    l = d.onLists l₁ l₂ ∧ d.Stands l₁ l₂ ∧ Reaches Shop.step AnyTurn Shop.init s ∧ d.Shows s
  have h0 : R init init :=
    ⟨[], [], Shop.init, rfl, ⟨Queue.holds_init, Queue.holds_init⟩, .refl, shows_init⟩
  have hstep : ∀ d i d' l, R d l → C d i → d.step i = .go d' →
      ∃ l', Reaches step C' l l' ∧ R d' l' := by
    rintro d i d' _ ⟨l₁, l₂, s, rfl, hst, hreach, hs⟩ hc hgo
    obtain ⟨s', hs', hshow⟩ := hs.step hgo
    obtain ⟨l₁', l₂', hgo', hst'⟩ := hst.step (hst.room hs hreach) hgo
    exact ⟨_, .turn .refl (hC hst hc) hgo', l₁', l₂', s', rfl, hst', hreach.trans hs', hshow⟩
  obtain ⟨_, hl, l₁, l₂, _, rfl, hst, _⟩ := h.refines h0 hstep
  exact ⟨l₁, l₂, hl, hst⟩

end

/-- Four customers sit down and a fifth one goes to stand. The chef
finishes with the first of the four and moves the fifth to the sofa. -/
def handOverSchedule (n : Nat) (h : 5 ≤ n) : List (Thread (Fin n) (Fin 4)) :=
  (List.finRange 4).flatMap (fun c => List.replicate 5 (.customer (c.castLE (by omega)))) ++
    List.replicate 3 (.customer ⟨4, by omega⟩) ++ List.replicate 13 (.chef 0)

end Day

end OsSuite.Bakery
