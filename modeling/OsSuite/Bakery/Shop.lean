import OsSuite.Lib.Ring
import OsSuite.Lib.Turns

/-!
# Shop — chefs and customers as threads

`Concurrent-Bakery-Sim/main.c`. Every customer and every chef is a
thread. A turn is one atomic action of a thread: a semaphore operation, a
section under `sofa_access_lock`, the acquisition or release of the cash
register, or the write of a flag; the time that passes between two of
them (`sleep`) is not modelled. A customer that polls a flag waits.

The two queues are the ring buffers of the source. `my_enqueue` reports a
full queue by a result that no caller looks at; the model counts such
failures. It also counts how often a cake is baked for a customer and how
often a payment is taken from them.
-/

namespace OsSuite.Bakery

/-- `QUEUE_MAX` -/
def queueMax : Nat := 25

/-- `BAKERY_CAPACITY` -/
def bakeryCapacity : Nat := 25

/-- `SOFA_SEATS` -/
def sofaSeats : Nat := 4

/-- `Queue`, with `event` pointers to customers. -/
structure Queue (γ : Type) where
  data : Nat → Option γ
  head : Nat
  tail : Nat
  count : Nat

namespace Queue

variable {γ : Type}

/-- `my_init` -/
def init : Queue γ := ⟨fun _ => none, 0, 0, 0⟩

/-- `my_enqueue`: the queue, and whether there was room. -/
def enqueue (q : Queue γ) (c : γ) : Queue γ × Bool :=
  if q.count < queueMax then
    (⟨Function.update q.data q.tail (some c), q.head, (q.tail + 1) % queueMax, q.count + 1⟩, true)
  else (q, false)

/-- `my_dequeue` -/
def dequeue (q : Queue γ) : Option γ × Queue γ :=
  if 0 < q.count then
    (q.data q.head, ⟨q.data, (q.head + 1) % queueMax, q.tail, q.count - 1⟩)
  else (none, q)

end Queue

/-- Where the thread of a customer is. -/
inductive Visit where
  /-- Before `sem_trywait(&num_of_cus)`. -/
  | arriving
  /-- The bakery was full. -/
  | turnedAway
  | entering
  /-- Has a seat, and is about to join the sofa queue. -/
  | sitting
  /-- Polls `is_baking`. -/
  | waitingCake
  /-- Polls `is_paying`. -/
  | waitingPay
  /-- Before `sem_post(&num_of_seats)`. -/
  | leaving
  /-- Before `sem_post(&num_of_cus)`. -/
  | leavingSeat
  | gone
  deriving DecidableEq, Repr

/-- Where the thread of a chef is, and whom it has in hand. -/
inductive Task (γ : Type) where
  /-- Before `my_dequeue(&sofa)`. -/
  | idle
  /-- Before `is_baking = 1`. -/
  | baking (c : γ)
  /-- Before the cash register is locked. -/
  | charging (c : γ)
  /-- At the cash register. -/
  | paying (c : γ)
  /-- Before `is_paying = 1`. -/
  | paid (c : γ)
  /-- Before `my_dequeue(&standing)`. -/
  | next
  /-- Brings a standing customer to the sofa. -/
  | moving (c : γ)
  deriving DecidableEq, Repr

structure Shop (γ χ : Type) where
  /-- The semaphores. -/
  numOfCus : Nat
  numOfSeats : Nat
  sofa : Queue γ
  standing : Queue γ
  /-- The chef that holds `cash_register_lock`. -/
  cash : Option χ
  isBaking : γ → Bool
  isPaying : γ → Bool
  visit : γ → Visit
  task : χ → Task γ
  /-- Calls of `my_enqueue` that returned -1. -/
  failed : Nat
  /-- Cakes baked for, and payments taken from, a customer. -/
  baked : γ → Nat
  charged : γ → Nat

/-- The threads. -/
inductive Thread (γ χ : Type) where
  | customer (c : γ)
  | chef (k : χ)

namespace Shop

variable {γ χ : Type} [DecidableEq γ] [DecidableEq χ]

/-- The state that `main` sets up. -/
def init : Shop γ χ where
  numOfCus := bakeryCapacity
  numOfSeats := sofaSeats
  sofa := .init
  standing := .init
  cash := none
  isBaking _ := false
  isPaying _ := false
  visit _ := .arriving
  task _ := .idle
  failed := 0
  baked _ := 0
  charged _ := 0

def setVisit (s : Shop γ χ) (c : γ) (v : Visit) : Shop γ χ :=
  { s with visit := Function.update s.visit c v }

def setTask (s : Shop γ χ) (k : χ) (t : Task γ) : Shop γ χ :=
  { s with task := Function.update s.task k t }

/-- `my_enqueue(&sofa, c)`, result ignored. -/
def toSofa (s : Shop γ χ) (c : γ) : Shop γ χ :=
  { s with
    sofa := (s.sofa.enqueue c).1
    failed := if (s.sofa.enqueue c).2 then s.failed else s.failed + 1 }

/-- `my_enqueue(&standing, c)`, result ignored. -/
def toStanding (s : Shop γ χ) (c : γ) : Shop γ χ :=
  { s with
    standing := (s.standing.enqueue c).1
    failed := if (s.standing.enqueue c).2 then s.failed else s.failed + 1 }

/-- A turn of `customer`. -/
def customer (s : Shop γ χ) (c : γ) : Turn (Shop γ χ) :=
  match s.visit c with
  | .arriving =>
      if 0 < s.numOfCus then .go ({ s with numOfCus := s.numOfCus - 1 }.setVisit c .entering)
      else .go (s.setVisit c .turnedAway)
  | .entering =>
      -- one section under sofa_access_lock
      if s.standing.count = 0 ∧ 0 < s.numOfSeats then
        .go ({ s with numOfSeats := s.numOfSeats - 1 }.setVisit c .sitting)
      else .go ((s.toStanding c).setVisit c .waitingCake)
  | .sitting => .go ((s.toSofa c).setVisit c .waitingCake)
  | .waitingCake => if s.isBaking c then .go (s.setVisit c .waitingPay) else .wait
  | .waitingPay => if s.isPaying c then .go (s.setVisit c .leaving) else .wait
  | .leaving => .go ({ s with numOfSeats := s.numOfSeats + 1 }.setVisit c .leavingSeat)
  | .leavingSeat => .go ({ s with numOfCus := s.numOfCus + 1 }.setVisit c .gone)
  | .turnedAway => .wait
  | .gone => .wait

/-- A turn of `Chef`. -/
def chef (s : Shop γ χ) (k : χ) : Turn (Shop γ χ) :=
  match s.task k with
  | .idle =>
      match s.sofa.dequeue with
      | (none, q) => .go { s with sofa := q }
      | (some c, q) => .go ({ s with sofa := q }.setTask k (.baking c))
  | .baking c =>
      .go ({ s with
        isBaking := Function.update s.isBaking c true
        baked := Function.update s.baked c (s.baked c + 1) }.setTask k (.charging c))
  | .charging c =>
      if s.cash = none then
        .go ({ s with
          cash := some k
          charged := Function.update s.charged c (s.charged c + 1) }.setTask k (.paying c))
      else .wait
  | .paying c => .go ({ s with cash := none }.setTask k (.paid c))
  | .paid c => .go ({ s with isPaying := Function.update s.isPaying c true }.setTask k .next)
  | .next =>
      match s.standing.dequeue with
      | (none, q) => .go ({ s with standing := q }.setTask k .idle)
      | (some d, q) => .go ({ s with standing := q }.setTask k (.moving d))
  | .moving d => .go ((s.toSofa d).setTask k .idle)

def step (s : Shop γ χ) : Thread γ χ → Turn (Shop γ χ)
  | .customer c => s.customer c
  | .chef k => s.chef k

end Shop

/-! ## The queues -/

namespace Queue

variable {γ : Type} {q : Queue γ} {l : List γ}

/-- The queue holds the customers `l`, first in line first. -/
structure Holds (q : Queue γ) (l : List γ) : Prop where
  count : q.count = l.length
  le : l.length ≤ queueMax
  head : q.head < queueMax
  tail : q.tail = (q.head + q.count) % queueMax
  ring : ring queueMax q.data q.head q.count = l.map some

theorem holds_init : (init : Queue γ).Holds [] :=
  ⟨rfl, Nat.zero_le _, Nat.succ_pos 24, rfl, rfl⟩

/-- A customer who joins the queue is last in line. -/
theorem Holds.enqueue (h : q.Holds l) (hroom : l.length < queueMax) (c : γ) :
    (q.enqueue c).1.Holds (l ++ [c]) ∧ (q.enqueue c).2 = true := by
  have hc : q.count < queueMax := by rw [h.count]; exact hroom
  unfold Queue.enqueue
  rw [if_pos hc]
  refine ⟨⟨?_, by rw [List.length_append]; exact hroom, h.head, ?_, ?_⟩, rfl⟩
  · rw [List.length_append, List.length_singleton, h.count]
  · show (q.tail + 1) % queueMax = (q.head + (q.count + 1)) % queueMax
    rw [h.tail, Nat.mod_add_mod, Nat.add_assoc]
  · show OsSuite.ring queueMax (Function.update q.data q.tail (some c)) q.head (q.count + 1) = _
    rw [h.tail, ring_push hc, h.ring, List.map_append]
    rfl

/-- The first in line leaves the queue. -/
theorem Holds.dequeue (h : q.Holds l) :
    (l = [] ∧ q.dequeue = (none, q)) ∨
      ∃ c rest q', l = c :: rest ∧ q.dequeue = (some c, q') ∧ q'.Holds rest := by
  cases l with
  | nil =>
      refine .inl ⟨rfl, ?_⟩
      unfold Queue.dequeue
      rw [if_neg (by rw [h.count]; simp)]
  | cons c rest =>
      have hcount : q.count = rest.length + 1 := by rw [h.count, List.length_cons]
      have hring := h.ring
      rw [hcount, ring_pop, List.map_cons] at hring
      obtain ⟨hfirst, hrest⟩ := List.cons.inj hring
      rw [Nat.mod_eq_of_lt h.head] at hfirst
      refine .inr ⟨c, rest, ⟨q.data, (q.head + 1) % queueMax, q.tail, q.count - 1⟩, rfl, ?_, ?_⟩
      · unfold Queue.dequeue
        rw [if_pos (by omega), hfirst]
      · have hle := h.le
        rw [List.length_cons] at hle
        refine ⟨?_, by omega, Nat.mod_lt _ (by decide), ?_, ?_⟩
        · show q.count - 1 = rest.length
          omega
        · show q.tail = ((q.head + 1) % queueMax + (q.count - 1)) % queueMax
          rw [h.tail, Nat.mod_add_mod, hcount, Nat.add_sub_cancel, Nat.add_assoc,
            Nat.add_comm 1]
        · show OsSuite.ring queueMax q.data ((q.head + 1) % queueMax) (q.count - 1) = _
          rw [hcount, Nat.add_sub_cancel, ring_congr (Nat.mod_modEq _ _), hrest]

end Queue

end OsSuite.Bakery
