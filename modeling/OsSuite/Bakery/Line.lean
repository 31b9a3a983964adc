import OsSuite.Bakery.Shop

/-!
# Line — the ring buffer as a queue of bounded length

`my_init`, `my_enqueue`, `my_dequeue` and `get_count` of
`Concurrent-Bakery-Sim/main.c`, called in any order. Every call holds
`q->mutex` from its first statement to its last, so the calls of all
threads form ONE sequence.

A full and an empty ring look the same but for `count`. What the calls
answer is what a list answers that holds at most `QUEUE_MAX` customers
(`queue_refines_list`): the abstract queue is `Waiting`, and `Queue.Holds` is
the relation that the calls keep.
-/

namespace OsSuite.Bakery

/-- A call on a queue. An `event` that is enqueued is never `NULL`. -/
inductive Call (γ : Type) where
  | enqueue (c : γ)
  | dequeue
  | getCount
  deriving DecidableEq, Repr

/-- What a call returns: an `int`, or a pointer that may be `NULL`. -/
inductive Reply (γ : Type) where
  | int (n : Int)
  | event (e : Option γ)
  deriving DecidableEq, Repr

variable {γ : Type}

namespace Queue

/-- `my_init` on a queue that holds anything: `data` is left alone. -/
def myInit (q : Queue γ) : Queue γ := ⟨q.data, 0, 0, 0⟩

/-- `get_count` -/
def getCount (q : Queue γ) : Nat := q.count

def call (q : Queue γ) : Call γ → Queue γ × Reply γ
  | .enqueue c => ((q.enqueue c).1, .int (if (q.enqueue c).2 then 1 else -1))
  | .dequeue => (q.dequeue.2, .event q.dequeue.1)
  | .getCount => (q, .int q.getCount)

/-- Calls one after the other, and what they return. -/
def calls (q : Queue γ) : List (Call γ) → Queue γ × List (Reply γ)
  | [] => (q, [])
  | c :: cs => (((q.call c).1.calls cs).1, (q.call c).2 :: ((q.call c).1.calls cs).2)

end Queue

/-! ## The queue as a list -/

/-- At most `QUEUE_MAX` customers, first in line first. -/
structure Waiting (γ : Type) where
  items : List γ
  le : items.length ≤ queueMax

namespace Waiting

def empty : Waiting γ := ⟨[], Nat.zero_le _⟩

/-- The newcomer is last, if there is room. -/
def enqueue (l : Waiting γ) (c : γ) : Waiting γ × Reply γ :=
  if h : l.items.length < queueMax then
    (⟨l.items ++ [c], by rw [List.length_append]; exact h⟩, .int 1)
  else (l, .int (-1))

/-- The first one leaves. -/
def dequeue (l : Waiting γ) : Waiting γ × Reply γ :=
  (⟨l.items.tail, by rw [List.length_tail]; exact Nat.le_trans (Nat.sub_le _ _) l.le⟩,
    .event l.items.head?)

def call (l : Waiting γ) : Call γ → Waiting γ × Reply γ
  | .enqueue c => l.enqueue c
  | .dequeue => l.dequeue
  | .getCount => (l, .int l.items.length)

def calls (l : Waiting γ) : List (Call γ) → Waiting γ × List (Reply γ)
  | [] => (l, [])
  | c :: cs => (((l.call c).1.calls cs).1, (l.call c).2 :: ((l.call c).1.calls cs).2)

end Waiting

/-- The customer whom a call has put into the queue. -/
def Call.joined : Call γ × Reply γ → Option γ
  | (.enqueue c, .int 1) => some c
  | _ => none

/-- The customer whom a call has taken out of the queue. -/
def Call.left : Call γ × Reply γ → Option γ
  | (.dequeue, .event e) => e
  | _ => none

/-! ## One call -/

section
variable {q : Queue γ} {l : List γ}

theorem Queue.holds_myInit (q : Queue γ) : q.myInit.Holds [] :=
  ⟨rfl, Nat.zero_le _, Nat.succ_pos 24, rfl, rfl⟩

/-- A full queue is left as it is. -/
theorem Queue.Holds.full (h : q.Holds l) (hroom : ¬ l.length < queueMax) (c : γ) :
    q.enqueue c = (q, false) := by
  unfold Queue.enqueue
  rw [if_neg (by rw [h.count]; exact hroom)]

/-- **One call of the ring is one call of the list.** -/
theorem Queue.Holds.call {l : Waiting γ} (h : q.Holds l.items) (c : Call γ) :
    (q.call c).1.Holds (l.call c).1.items ∧ (q.call c).2 = (l.call c).2 := by
  cases c with
  | enqueue c =>
      by_cases hroom : l.items.length < queueMax
      · obtain ⟨hholds, hok⟩ := h.enqueue hroom c
        simp only [Queue.call, Waiting.call, Waiting.enqueue, dif_pos hroom, hok]
        exact ⟨hholds, rfl⟩
      · simp only [Queue.call, Waiting.call, Waiting.enqueue, dif_neg hroom, h.full hroom]
        exact ⟨h, rfl⟩
  | dequeue =>
      simp only [Queue.call, Waiting.call, Waiting.dequeue]
      rcases h.dequeue with ⟨hnil, hd⟩ | ⟨c, rest, q', hcons, hd, hrest⟩
      · rw [hd, hnil]
        rw [hnil] at h
        exact ⟨h, rfl⟩
      · rw [hd, hcons]
        exact ⟨hrest, rfl⟩
  | getCount => exact ⟨h, by rw [Queue.call, Waiting.call, Queue.getCount, h.count]⟩

/-- A call of the list keeps the order: who has left and who is in line
are together who joined. -/
theorem Waiting.call_order (l : Waiting γ) (c : Call γ) :
    l.items ++ (Call.joined (c, (l.call c).2)).toList =
      (Call.left (c, (l.call c).2)).toList ++ (l.call c).1.items := by
  cases c with
  | enqueue c =>
      simp only [Waiting.call, Waiting.enqueue]
      split <;> simp [Call.joined, Call.left]
  | dequeue => cases hl : l.items <;> simp [Waiting.call, Waiting.dequeue, Call.joined, Call.left, hl]
  | getCount => simp [Waiting.call, Call.joined, Call.left]

end

/-! ## Any sequence of calls -/

/-- Two runs in step. -/
theorem Queue.Holds.calls {q : Queue γ} {l : Waiting γ} (h : q.Holds l.items) (cs : List (Call γ)) :
    (q.calls cs).1.Holds (l.calls cs).1.items ∧ (q.calls cs).2 = (l.calls cs).2 := by
  induction cs generalizing q l with
  | nil => exact ⟨h, rfl⟩
  | cons c cs ih =>
      obtain ⟨hstep, hreply⟩ := h.call c
      obtain ⟨hrest, hreplies⟩ := ih hstep
      refine ⟨hrest, ?_⟩
      rw [Queue.calls, Waiting.calls, hreply, hreplies]

theorem Waiting.calls_order (l : Waiting γ) (cs : List (Call γ)) :
    l.items ++ (cs.zip (l.calls cs).2).filterMap Call.joined =
      (cs.zip (l.calls cs).2).filterMap Call.left ++ (l.calls cs).1.items := by
  induction cs generalizing l with
  | nil => simp [Waiting.calls]
  | cons c cs ih =>
      have hone := l.call_order c
      have hrest := ih (l.call c).1
      have hsplit : ∀ (f : Call γ × Reply γ → Option γ) x xs,
          (x :: xs).filterMap f = (f x).toList ++ xs.filterMap f := by
        intro f x xs
        cases hf : f x <;> simp [hf]
      rw [Waiting.calls, List.zip_cons_cons, hsplit, hsplit, ← List.append_assoc, hone,
        List.append_assoc, hrest, List.append_assoc]

/-- **The ring buffer is a bounded FIFO queue.** After any calls from
`my_init` on, the counters are in range and fit together; the calls have
returned what a list of at most `QUEUE_MAX` customers returns; and those
who joined are those who left, in the order in which they left, followed
by those who are still in the ring. -/
theorem queue_refines_list (q : Queue γ) (cs : List (Call γ)) :
    (q.myInit.calls cs).1.count ≤ queueMax ∧
    (q.myInit.calls cs).1.head < queueMax ∧
    (q.myInit.calls cs).1.tail < queueMax ∧
    (q.myInit.calls cs).1.tail =
      ((q.myInit.calls cs).1.head + (q.myInit.calls cs).1.count) % queueMax ∧
    ring queueMax (q.myInit.calls cs).1.data (q.myInit.calls cs).1.head
      (q.myInit.calls cs).1.count = (Waiting.empty.calls cs).1.items.map some ∧
    (q.myInit.calls cs).2 = (Waiting.empty.calls cs).2 ∧
    (cs.zip (q.myInit.calls cs).2).filterMap Call.joined =
      (cs.zip (q.myInit.calls cs).2).filterMap Call.left ++ (Waiting.empty.calls cs).1.items := by
  obtain ⟨hholds, hreplies⟩ := Queue.Holds.calls (l := Waiting.empty) q.holds_myInit cs
  have htail : (q.myInit.calls cs).1.tail < queueMax := by
    rw [hholds.tail]
    exact Nat.mod_lt _ (by decide)
  refine ⟨?_, hholds.head, htail, hholds.tail, hholds.ring, hreplies, ?_⟩
  · rw [hholds.count]
    exact hholds.le
  · rw [hreplies]
    exact Waiting.empty.calls_order cs

end OsSuite.Bakery
