import OsSuite.Bakery.Seats

/-!
# Service — the order of the lines

What is printed about one customer comes from two or three threads. The
customer's own thread prints `requests cake` AFTER it has joined the sofa
queue, so a chef may be faster; the chef that brings somebody from the
standing queue prints the line before. That is the only line that can be
late (`in_order`).

The announcement of a seat and the place in the sofa queue are two
different things as well: whoever is announced joins the queue some time
later. The queue serves in the order of the announcements as long as
nobody overtakes there (`longest_seated_first`).
-/

namespace OsSuite.Bakery

open scoped List

/-- The lines about an admitted customer. -/
inductive Kind where
  | enters
  | sits
  | moves
  | requests
  | bakes
  | gotCake
  | accepts
  | leaves
  deriving DecidableEq, Repr

/-- What a line says, and about whom. -/
def Note.line {γ χ : Type} : Note γ χ → Option (γ × Kind)
  | .full _ | .takes _ _ => none
  | .enters c => some (c, .enters)
  | .sits c => some (c, .sits)
  | .moves c => some (c, .moves)
  | .requests c => some (c, .requests)
  | .bakes _ c => some (c, .bakes)
  | .gotCake c => some (c, .gotCake)
  | .accepts _ c => some (c, .accepts)
  | .leaves c => some (c, .leaves)

/-- What was printed about `c`. -/
def said {γ χ : Type} [DecidableEq γ] (c : γ) (log : List (Note γ χ)) : List Kind :=
  log.filterMap fun n => n.line.bind fun l => if l.1 = c then some l.2 else none

/-- What is printed about a customer in the end. -/
def script (seat : Kind) : List Kind :=
  [.enters, seat, .requests, .bakes, .gotCake, .accepts, .leaves]

namespace Day

variable {Q : Type → Type} {γ χ : Type} [DecidableEq γ]

/-- **Strict order**: what was printed about a customer is the beginning
of what is to be printed. -/
def InOrder (d : Day Q γ χ) : Prop :=
  ∀ c, ∃ seat, (seat = .sits ∨ seat = .moves) ∧ said c d.log <+: script seat

/-- A chef says that it is baking for a customer only after the customer
has said that they request cake. -/
def BakesAsked (d : Day Q γ χ) : Thread γ χ → Prop
  | .customer _ => True
  | .chef k => ∀ c, d.duty k = .took c → d.errand c ≠ .asking

end Day

/-- How many lines have been printed about the customer, if the own thread
is not late. -/
def Tok.lines {χ : Type} : Tok χ → Nat
  | .outside | .admitted => 0
  | .entering | .stands | .hand _ .seen => 1
  | .sitting | .hand _ .seated => 2
  | .queued | .hand _ .asked | .hand _ .took => 3
  | .hand _ .baking => 4
  | .hand _ .cake => 5
  | .hand _ .paying | .hand _ .finishing => 6
  | .done => 7

/-- How many lines have been printed about the customer. -/
def due {χ : Type} (e : Errand) (t : Tok χ) : Nat := if e = .asking then 2 else t.lines

theorem due_of_ne {χ : Type} {e : Errand} {t : Tok χ} (h : e ≠ .asking) : due e t = t.lines :=
  if_neg h

/-- The customer waits to be served. -/
def Tok.waits {χ : Type} : Tok χ → Bool
  | .queued | .hand _ .took => true
  | _ => false

section
variable {γ χ : Type} [DecidableEq γ] {log : List (Note γ χ)} {c x : γ} {n : Note γ χ} {κ : Kind}

theorem said_quiet (h : n.line = none) : said x (log ++ [n]) = said x log := by
  simp [said, h]

theorem said_other (h : n.line = some (c, κ)) (hx : x ≠ c) :
    said x (log ++ [n]) = said x log := by
  simp [said, h, hx.symm]

theorem said_self (h : n.line = some (c, κ)) : said c (log ++ [n]) = said c log ++ [κ] := by
  simp [said, h]

end

namespace Hall

variable {γ χ : Type} [DecidableEq γ] {v v' : Hall γ χ} {a : Act γ χ} {c : γ} {e : Errand}
  {t : Tok χ}

/-- The first `m` lines about `c` have been printed. -/
def SaidUpTo (v : Hall γ χ) (c : γ) (m : Nat) : Prop :=
  ∃ seat, (seat = .sits ∨ seat = .moves) ∧ said c v.log = (script seat).take m

/-- Exactly the lines that are due have been printed, and a thread that is
late is late while its customer waits to be served. -/
structure Told (v : Hall γ χ) : Prop where
  said : ∀ c, v.SaidUpTo c (due (v.errand c) (v.tok c))
  asks : ∀ c, v.errand c = .asking → (v.tok c).waits = true

theorem told_init : (init : Hall γ χ).Told :=
  ⟨fun _ => ⟨.sits, .inl rfl, rfl⟩, nofun⟩

/-- Only `c` is concerned. -/
theorem Told.on (h : v.Told) (he : v'.errand = Function.update v.errand c e)
    (ht : v'.tok = Function.update v.tok c t)
    (hlog : ∀ x, x ≠ c → Bakery.said x v'.log = Bakery.said x v.log)
    (hsaid : v'.SaidUpTo c (due e t)) (hasks : e = .asking → t.waits = true) : v'.Told := by
  refine ⟨fun x => ?_, fun x hx => ?_⟩
  all_goals by_cases hxc : x = c
  · subst hxc
    rw [he, ht, Function.update_self, Function.update_self]
    exact hsaid
  · rw [he, ht, Function.update_of_ne hxc, Function.update_of_ne hxc, SaidUpTo, hlog x hxc]
    exact h.said x
  · subst hxc
    rw [he, Function.update_self] at hx
    rw [ht, Function.update_self]
    exact hasks hx
  · rw [he, Function.update_of_ne hxc] at hx
    rw [ht, Function.update_of_ne hxc]
    exact h.asks x hx

/-- Nothing is printed about anybody, and nothing is due. -/
theorem Told.silent (h : v.Told) (he : v'.errand = Function.update v.errand c e)
    (ht : v'.tok = Function.update v.tok c t)
    (hlog : ∀ x, Bakery.said x v'.log = Bakery.said x v.log)
    (hdue : due e t = due (v.errand c) (v.tok c)) (hasks : e = .asking → t.waits = true) :
    v'.Told := by
  refine h.on he ht (fun x _ => hlog x) ?_ hasks
  rw [SaidUpTo, hlog c, hdue]
  exact h.said c

/-- The next line is printed: the seat is known, or announced now. -/
theorem Told.prints (h : v.Told) {n : Note γ χ} {κ : Kind} {m : Nat}
    (he : v'.errand = Function.update v.errand c e) (ht : v'.tok = Function.update v.tok c t)
    (hlog : v'.log = v.log ++ [n]) (hn : n.line = some (c, κ))
    (hold : due (v.errand c) (v.tok c) = m) (hne : e ≠ .asking) (hnew : t.lines = m + 1)
    (hκ : (∀ seat, (script seat)[m]? = some κ) ∨ m = 1 ∧ (κ = .sits ∨ κ = .moves)) :
    v'.Told := by
  refine h.on he ht (fun x hx => ?_) ?_ fun hask => absurd hask hne
  · rw [hlog, said_other hn hx]
  · obtain ⟨seat, hseat, hsaid⟩ := h.said c
    rw [due_of_ne hne, hnew, SaidUpTo, hlog, said_self hn, hsaid, hold]
    rcases hκ with hκ | ⟨rfl, hκ⟩
    · refine ⟨seat, hseat, ?_⟩
      rw [List.take_add_one, hκ seat]
      rfl
    · exact ⟨κ, hκ, rfl⟩

/-- A chef prints the next line about the customer in hand. -/
theorem Told.handle (h : v.Told) {n : Note γ χ} {κ : Kind} {t t' : Tok χ} (ht : v.tok c = t)
    (hne : v.errand c ≠ .asking) (hn : n.line = some (c, κ)) (hnew : t'.lines = t.lines + 1)
    (hκ : (∀ seat, (script seat)[t.lines]? = some κ) ∨
      t.lines = 1 ∧ (κ = .sits ∨ κ = .moves)) : ((v.say n).puts c t').Told := by
  refine h.prints (Function.update_eq_self ..).symm rfl rfl hn ?_ hne hnew hκ
  rw [due_of_ne hne, ht]

/-- A token moves, and nothing is due. -/
theorem Told.puts (h : v.Told) {t t' : Tok χ} (ht : v.tok c = t)
    (hlog : ∀ x, Bakery.said x v'.log = Bakery.said x v.log) (he : v'.errand = v.errand)
    (htok : v'.tok = Function.update v.tok c t') (hlines : t'.lines = t.lines)
    (hwaits : t.waits = true → t'.waits = true) : v'.Told := by
  refine h.silent (he.trans (Function.update_eq_self ..).symm) htok hlog ?_ fun hask => ?_
  · rw [ht, due, due, hlines]
  · have := h.asks c hask
    rw [ht] at this
    exact hwaits this

/-- No thread is late about a customer who does not wait. -/
theorem Told.not_asking (h : v.Told) (ht : (v.tok c).waits = false) :
    v.errand c ≠ .asking := by
  intro he
  rw [h.asks c he] at ht
  cases ht

def BakesAsked (v : Hall γ χ) : Act γ χ → Prop
  | .bake _ c => v.errand c ≠ .asking
  | _ => True

/-- **An act prints what is due**, if no chef bakes for a customer whose
thread is late. -/
theorem Told.act (h : v.Told) (hok : v.Ok) (hm : v.May a) (hc : v.BakesAsked a) :
    (v.act a).Told := by
  cases a with
  | letIn c =>
      have hout := hok.tok_of_own (c := c) (o := .outside) (by rw [hm]; rfl)
      exact h.silent rfl rfl (fun _ => rfl) (by rw [hm, hout]; rfl) nofun
  | stand c =>
      have hout := hok.tok_of_own (c := c) (o := .entering) (by rw [hm]; rfl)
      exact h.silent rfl rfl (fun _ => rfl) (by rw [hm, hout]; rfl) nofun
  | join c =>
      -- the line is late from here on
      have hout := hok.tok_of_own (c := c) (o := .sitting) (by rw [hm]; rfl)
      exact h.silent rfl rfl (fun _ => rfl) (by rw [hm, hout]; rfl) fun _ => rfl
  | refuse c =>
      refine h.silent rfl (Function.update_eq_self ..).symm (fun _ => said_quiet rfl) ?_ nofun
      rw [hm]
      rfl
  | walk c e =>
      refine h.silent rfl (Function.update_eq_self ..).symm (fun _ => rfl) ?_ ?_
      all_goals rcases hm with ⟨he, rfl⟩ | ⟨he, rfl⟩ | ⟨he, rfl, _⟩ | ⟨he, rfl⟩
      all_goals first | (rw [he]; rfl) | nofun
  | post c =>
      refine h.silent rfl (Function.update_eq_self ..).symm (fun _ => rfl) ?_ nofun
      rw [hm]
      rfl
  | enter c =>
      have hout := hok.tok_of_own (c := c) (o := .admitted) (by rw [hm]; rfl)
      exact h.prints (m := 0) rfl rfl rfl rfl (by rw [hm, hout]; rfl) nofun rfl
        (.inl fun _ => rfl)
  | sit c =>
      have hout := hok.tok_of_own (c := c) (o := .entering) (by rw [hm.1]; rfl)
      exact h.prints (m := 1) rfl rfl rfl rfl (by rw [hm.1, hout]; rfl) nofun rfl
        (.inr ⟨rfl, .inl rfl⟩)
  | ask c =>
      have hlines : (v.tok c).lines = 3 := by
        have := h.asks c hm
        cases ht : v.tok c with
        | queued => rfl
        | hand k g => cases g <;> rw [ht] at this <;> first | rfl | cases this
        | outside | admitted | entering | sitting | stands | done =>
            rw [ht] at this
            cases this
      exact h.prints (m := 2) rfl (Function.update_eq_self ..).symm rfl rfl (by rw [hm]; rfl)
        nofun hlines (.inl fun _ => rfl)
  | take k c =>
      have hq : v.tok c = .queued := (hok.queued c).mp (List.mem_of_mem_head? hm)
      exact h.puts hq (fun _ => said_quiet rfl) rfl rfl rfl fun _ => rfl
  | bake k c => exact h.handle hm hc rfl rfl (.inl fun _ => rfl)
  | serve k c | accept k c | leave k c | order k c =>
      exact h.handle hm (h.not_asking (by rw [hm]; rfl)) rfl rfl (.inl fun _ => rfl)
  | move k c =>
      exact h.handle hm (h.not_asking (by rw [hm]; rfl)) rfl rfl (.inr ⟨rfl, .inr rfl⟩)
  | bring k c => exact h.puts hm (fun _ => rfl) rfl rfl rfl nofun
  | glance k c => exact h.puts hm.1 (fun _ => rfl) rfl rfl rfl nofun
  | pay k c => exact ⟨h.said, h.asks⟩
  | fetch k c x =>
      have h₁ : (v.puts c (.hand k .finishing)).Told :=
        h.puts hm.1 (fun _ => rfl) rfl rfl rfl nofun
      exact h₁.puts (hok.fetched hm _) (fun _ => rfl) rfl rfl rfl nofun

theorem told_reaches (h : Reaches step BakesAsked init v) : v.Told := by
  have hboth : v.Ok ∧ v.Told := by
    refine h.invariant (I := fun v => v.Ok ∧ v.Told) ⟨ok_init, told_init⟩
      fun v a v' hv hc hgo => ?_
    obtain ⟨hm, rfl⟩ := step_eq_go.mp hgo
    exact ⟨hv.1.act hm, hv.2.act hv.1 hm hc⟩
  exact hboth.2

end Hall

namespace Day

variable {γ χ : Type} [DecidableEq γ] [DecidableEq χ]

omit [DecidableEq γ] [DecidableEq χ] in
theorem bakesAsked_hall {d : Day List γ χ} {tok : γ → Tok χ} {i : Thread γ χ}
    {a : Act γ χ} (hc : d.BakesAsked i) (ha : d.acts i = some a) : (d.hall tok).BakesAsked a := by
  cases a with
  | bake k c =>
      obtain ⟨rfl, hk⟩ := makes_of_acts ha
      exact hc c hk
  | _ => trivial

variable [Fintype γ] [Fintype χ]

/-- **Strict order**, in every run in which no chef says that it is baking
for a customer whose own thread has still to say that they request
cake. -/
theorem in_order {d : Day Queue γ χ} (h : Reaches step BakesAsked init d) : d.InOrder := by
  have hover : ∀ {d : Day Queue γ χ} {l₁ l₂ i}, d.Stands l₁ l₂ → d.BakesAsked i →
      (d.onLists l₁ l₂).BakesAsked i := by
    intro d l₁ l₂ i _ hc
    cases i with
    | customer c => trivial
    | chef k => exact hc
  obtain ⟨l₁, l₂, hlist, -⟩ := stands_reaches hover h
  obtain ⟨tok, hhall, -⟩ := hall_reaches (fun _ _ hc ha => bakesAsked_hall hc ha) hlist
  intro c
  obtain ⟨seat, hseat, hsaid⟩ := (Hall.told_reaches hhall).said c
  refine ⟨seat, hseat, ?_⟩
  change said c d.log = _ at hsaid
  rw [hsaid]
  exact List.take_prefix _ _

instance (d : Day Queue γ χ) (i : Thread γ χ) : Decidable (d.BakesAsked i) :=
  match i with
  | .customer _ => .isTrue trivial
  | .chef k => inferInstanceAs (Decidable (∀ c, d.duty k = .took c → d.errand c ≠ .asking))

theorem in_order_one : ∃ d : Day Queue (Fin 1) (Fin 4), Reaches step BakesAsked init d ∧
    said 0 d.log = script .sits ∧ d.InOrder := by
  obtain ⟨d, hd, hP⟩ := exists_reaches step
    (fun (d : Day Queue (Fin 1) (Fin 4)) i (h : decide (d.BakesAsked i) = true) =>
      of_decide_eq_true h)
    (fun d : Day Queue (Fin 1) (Fin 4) => decide (said 0 d.log = script .sits)) init
    (List.replicate 5 (.customer 0) ++ List.replicate 10 (.chef 0)) (by decide +kernel)
  exact ⟨d, hd, of_decide_eq_true hP, in_order hd⟩

/-- **A cake that nobody has requested.** The customer has joined the sofa
queue, and a chef says that it is baking before the customer's thread
prints its line. -/
theorem baked_unasked : ∃ d : Day Queue (Fin 1) (Fin 4), Reaches step AnyTurn init d ∧
    said 0 d.log = [.enters, .sits, .bakes] ∧ ¬ d.InOrder := by
  obtain ⟨d, hd, hP⟩ := exists_reaches step anyTurn_ok
    (fun d : Day Queue (Fin 1) (Fin 4) => decide (said 0 d.log = [.enters, .sits, .bakes])) init
    (List.replicate 4 (.customer 0) ++ List.replicate 2 (.chef 0)) (by decide +kernel)
  have hsaid := of_decide_eq_true hP
  refine ⟨d, hd, hsaid, fun h => ?_⟩
  obtain ⟨seat, -, hpre⟩ := h 0
  rw [hsaid] at hpre
  obtain ⟨rest, hrest⟩ := hpre
  cases hrest

end Day

/-! ## Who is served first -/

/-- Whom a chef took from the sofa queue. -/
def Note.taking {γ χ : Type} : Note γ χ → Option γ
  | .takes _ c => some c
  | _ => none

/-- Who was taken from the sofa queue, in this order. -/
def takings {γ χ : Type} (log : List (Note γ χ)) : List γ := log.filterMap Note.taking

namespace Day

variable {Q : Type → Type} {γ χ : Type}

/-- **Longest seated first**: whoever was announced on the sofa before a
customer who was taken has been taken before that customer. -/
def LongestFirst (d : Day Q γ χ) : Prop :=
  ∀ a b, [a, b] <+ seatings d.log → b ∈ takings d.log → [a, b] <+ takings d.log

/-- Announced on the sofa, and still to join the queue. -/
def pending (d : Day Q γ χ) (x : γ) : Prop :=
  d.errand x = .sitting ∨ ∃ k, d.duty k = .ordering x ∨ d.duty k = .bringing x

/-- Of those who are still to join the queue, `c` was announced first. -/
def First (d : Day Q γ χ) (c : γ) : Prop :=
  ∀ x, d.pending x → x = c ∨ [c, x] <+ seatings d.log

/-- Whoever joins the sofa queue was announced first. -/
def JoinsFirst (d : Day Q γ χ) : Thread γ χ → Prop
  | .customer c => d.errand c = .sitting → d.First c
  | .chef k => ∀ x, d.duty k = .bringing x → d.First x

end Day

/-- `Day.pending`, of a token. -/
def Tok.pending {χ : Type} : Tok χ → Bool
  | .sitting | .hand _ .seated | .hand _ .asked => true
  | _ => false

section
variable {γ χ : Type} {log : List (Note γ χ)} {c : γ} {n : Note γ χ}

theorem takings_quiet (h : n.taking = none) : takings (log ++ [n]) = takings log := by
  simp [takings, h]

theorem takings_concat (k : χ) : takings (log ++ [.takes k c]) = takings log ++ [c] := by
  simp [takings, Note.taking]

/-- Of two members of a list without repetition one comes first. -/
theorem eq_head_of_before {l rest : List γ} {p : γ} (hl : (l ++ p :: rest).Nodup)
    (hc : c ∈ p :: rest) (h : p = c ∨ [c, p] <+ l ++ p :: rest) : p = c := by
  rcases h with h | h
  · exact h
  obtain ⟨-, hrest, hdisj⟩ := List.nodup_append.mp hl
  obtain ⟨l₁, l₂, heq, h₁, h₂⟩ := List.sublist_append_iff.mp h
  cases l₁ with
  | cons x l₁ =>
      -- `c` would be in both parts of the list
      obtain rfl : c = x := (List.cons.inj heq).1
      exact absurd rfl (hdisj c (h₁.subset List.mem_cons_self) c hc)
  | nil =>
      change [c, p] = l₂ at heq
      subst heq
      cases h₂ with
      | cons _ hsub =>
          have hp : p ∈ rest := hsub.subset (List.mem_cons_of_mem _ (List.mem_singleton_self p))
          exact absurd hp (List.nodup_cons.mp hrest).1
      | cons_cons _ _ => rfl

/-- What comes first in a list comes first in each prefix that has
both. -/
theorem before_of_before {l rest : List γ} {a b : γ} (hl : (l ++ rest).Nodup)
    (h : [a, b] <+ l ++ rest) (hb : b ∈ l) : [a, b] <+ l := by
  obtain ⟨-, -, hdisj⟩ := List.nodup_append.mp hl
  obtain ⟨l₁, l₂, heq, h₁, h₂⟩ := List.sublist_append_iff.mp h
  have hnot : b ∉ l₂ := fun hmem => hdisj b hb b (h₂.subset hmem) rfl
  match l₁, heq with
  | [], heq =>
      change [a, b] = l₂ at heq
      subst heq
      exact absurd (List.mem_cons_of_mem a (List.mem_singleton_self b)) hnot
  | [x], heq =>
      cases heq
      exact absurd (List.mem_singleton_self b) hnot
  | [x, y], heq =>
      cases heq
      exact h₁

end

namespace Hall

variable {γ χ : Type} [DecidableEq γ] {v v' : Hall γ χ} {a : Act γ χ} {c : γ}

/-- **The line**: those announced on the sofa are those who were taken,
then those in the queue, then those still to join it. -/
def InLine (v : Hall γ χ) : Prop :=
  (seatings v.log).Nodup ∧ ∃ rest, seatings v.log = takings v.log ++ v.sofa ++ rest ∧
    ∀ c, c ∈ rest ↔ (v.tok c).pending = true

def JoinsFirst (v : Hall γ χ) : Act γ χ → Prop
  | .join c | .bring _ c => ∀ x, (v.tok x).pending = true → x = c ∨ [c, x] <+ seatings v.log
  | _ => True

omit [DecidableEq γ] in
theorem inLine_init : (init : Hall γ χ).InLine :=
  ⟨List.nodup_nil, [], rfl, fun _ => iff_of_false List.not_mem_nil nofun⟩

omit [DecidableEq γ] in
/-- Nobody is announced, taken or brought. -/
theorem InLine.quiet (h : v.InLine) (hseat : seatings v'.log = seatings v.log)
    (htake : takings v'.log = takings v.log) (hsofa : v'.sofa = v.sofa)
    (htok : ∀ x, (v'.tok x).pending = (v.tok x).pending) : v'.InLine := by
  obtain ⟨hnodup, rest, heq, hrest⟩ := h
  refine ⟨hseat ▸ hnodup, rest, ?_, fun x => ?_⟩
  · rw [hseat, htake, hsofa]
    exact heq
  · rw [htok x]
    exact hrest x

/-- A token that moves and is as pending as before. -/
theorem pending_update {p t : Tok χ} (hp : v.tok c = p) (h : p.pending = t.pending) (x : γ) :
    (Function.update v.tok c t x).pending = (v.tok x).pending := by
  by_cases hx : x = c
  · subst hx
    rw [Function.update_self, hp, h]
  · rw [Function.update_of_ne hx]

/-- Somebody is announced. -/
theorem InLine.announce (h : v.InLine) (htook : v.Took) {n : Note γ χ} {t : Tok χ}
    (hn : n.seating = some c) (hlog : v'.log = v.log ++ [n]) (htake : n.taking = none)
    (hsofa : v'.sofa = v.sofa) (htok : v'.tok = Function.update v.tok c t)
    (hc : (v.tok c).hasSeat = false) (ht : t.pending = true) : v'.InLine := by
  obtain ⟨hnodup, rest, heq, hrest⟩ := h
  have hnew : c ∉ seatings v.log := fun hmem => by
    rw [(htook c).mp hmem] at hc
    cases hc
  refine ⟨?_, rest ++ [c], ?_, fun x => ?_⟩
  · rw [hlog, seatings_concat hn]
    exact nodup_concat hnodup hnew
  · rw [hlog, seatings_concat hn, takings_quiet htake, hsofa, heq, List.append_assoc]
  · rw [htok, List.mem_append, List.mem_singleton, hrest x]
    by_cases hx : x = c
    · subst hx
      rw [Function.update_self]
      exact iff_of_true (.inr rfl) ht
    · rw [Function.update_of_ne hx]
      exact or_iff_left hx

/-- The first of those who are still to join the queue joins it. -/
theorem InLine.joins (h : v.InLine) (hc : (v.tok c).pending = true)
    (hfirst : ∀ x, (v.tok x).pending = true → x = c ∨ [c, x] <+ seatings v.log)
    (hlog : v'.log = v.log) (hsofa : v'.sofa = v.sofa ++ [c])
    (htok : v'.tok = Function.update v.tok c .queued) : v'.InLine := by
  obtain ⟨hnodup, rest, heq, hrest⟩ := h
  cases rest with
  | nil => exact absurd ((hrest c).mpr hc) List.not_mem_nil
  | cons p rest =>
      rw [heq] at hnodup hfirst
      obtain rfl : p = c := eq_head_of_before hnodup ((hrest c).mpr hc)
        (hfirst p ((hrest p).mp List.mem_cons_self))
      have hnot : p ∉ rest :=
        (List.nodup_cons.mp (List.nodup_append.mp hnodup).2.1).1
      refine ⟨by rw [hlog, heq]; exact hnodup, rest, ?_, fun x => ?_⟩
      · rw [hlog, hsofa, heq]
        simp
      · rw [htok]
        by_cases hx : x = p
        · subst hx
          rw [Function.update_self]
          exact iff_of_false hnot nofun
        · rw [Function.update_of_ne hx, ← hrest x, List.mem_cons]
          exact (or_iff_right hx).symm

/-- **An act keeps the line**, if nobody overtakes on the way to the
queue. -/
theorem InLine.act (h : v.InLine) (htook : v.Took) (hok : v.Ok) (hm : v.May a)
    (hc : v.JoinsFirst a) : (v.act a).InLine := by
  cases a with
  | letIn c =>
      have hout := hok.tok_of_own (c := c) (o := .outside) (by rw [hm]; rfl)
      exact h.quiet rfl rfl rfl (pending_update hout rfl)
  | enter c =>
      have hout := hok.tok_of_own (c := c) (o := .admitted) (by rw [hm]; rfl)
      exact h.quiet (seatings_quiet rfl) (takings_quiet rfl) rfl (pending_update hout rfl)
  | stand c =>
      have hout := hok.tok_of_own (c := c) (o := .entering) (by rw [hm]; rfl)
      exact h.quiet rfl rfl rfl (pending_update hout rfl)
  | sit c =>
      have hout := hok.tok_of_own (c := c) (o := .entering) (by rw [hm.1]; rfl)
      exact h.announce htook (n := .sits c) rfl rfl rfl rfl rfl (by rw [hout]; rfl) rfl
  | move k c =>
      exact h.announce htook (n := .moves c) rfl rfl rfl rfl rfl (by rw [hm]; rfl) rfl
  | join c =>
      have hout := hok.tok_of_own (c := c) (o := .sitting) (by rw [hm]; rfl)
      exact h.joins (by rw [hout]; rfl) hc rfl rfl rfl
  | bring k c => exact h.joins (by rw [hm]; rfl) hc rfl rfl rfl
  | refuse c | ask c =>
      exact h.quiet (seatings_quiet rfl) (takings_quiet rfl) rfl fun _ => rfl
  | walk c e | post c | pay k c => exact h.quiet rfl rfl rfl fun _ => rfl
  | take k c =>
      have hq : v.tok c = .queued := (hok.queued c).mp (List.mem_of_mem_head? hm)
      obtain ⟨hnodup, rest, heq, hrest⟩ := h
      refine ⟨?_, rest, ?_, fun x => ?_⟩
      · show (seatings (v.log ++ [.takes k c])).Nodup
        rw [seatings_quiet rfl]
        exact hnodup
      · show seatings (v.log ++ [.takes k c]) =
          takings (v.log ++ [.takes k c]) ++ v.sofa.tail ++ rest
        rw [seatings_quiet rfl, takings_concat, heq]
        obtain ⟨tail, hsofa⟩ : ∃ tail, v.sofa = c :: tail := List.head?_eq_some_iff.mp hm
        simp [hsofa]
      · exact (hrest x).trans (by rw [← pending_update (t := .hand k .took) hq rfl x]; rfl)
  | bake k c | serve k c | accept k c | leave k c | order k c =>
      exact h.quiet (seatings_quiet rfl) (takings_quiet rfl) rfl (pending_update hm rfl)
  | glance k c => exact h.quiet rfl rfl rfl (pending_update hm.1 rfl)
  | fetch k c x =>
      have hx := hok.fetched hm (.hand k .finishing)
      refine h.quiet rfl rfl rfl fun y => ?_
      exact (pending_update (t := .hand k .seen) hx rfl y).trans
        (pending_update (t := .hand k .finishing) hm.1 rfl y)

theorem inLine_reaches [Fintype γ] (h : Reaches step JoinsFirst init v) : v.InLine := by
  have hboth : v.Booked ∧ v.InLine := by
    refine h.invariant (I := fun v => v.Booked ∧ v.InLine) ⟨booked_init, inLine_init⟩
      fun v a v' hv hc hgo => ?_
    obtain ⟨hm, rfl⟩ := step_eq_go.mp hgo
    exact ⟨hv.1.act hm, hv.2.act hv.1.took hv.1.ok hm hc⟩
  exact hboth.2

end Hall

namespace Day

variable {γ χ : Type} [DecidableEq γ] [DecidableEq χ]

omit [DecidableEq χ] in
/-- A chef that has a pending token has announced it. -/
theorem duty_of_pending {t : Duty γ} {x : γ} {k : χ} {g : Hand} (h : t.hand x = some g)
    (hg : (Tok.hand k g).pending = true) : t = .ordering x ∨ t = .bringing x := by
  have hother : ∀ {c : γ} {g' : Hand}, (if x = c then some g' else none) = some g →
      (Tok.hand k g').pending = false → False := by
    intro c g' h hg'
    split at h
    · cases h
      rw [hg] at hg'
      cases hg'
    · cases h
  cases t with
  | idle => cases h
  | ordering c =>
      change (if x = c then _ else _) = _ at h
      split at h
      · rename_i hx
        exact .inl (by rw [hx])
      · cases h
  | bringing c =>
      change (if x = c then _ else _) = _ at h
      split at h
      · rename_i hx
        exact .inr (by rw [hx])
      · cases h
  | seeing c d =>
      cases d with
      | none => exact (hother h rfl).elim
      | some d =>
          change (if x = d then _ else _) = _ at h
          split at h
          · cases h
            cases hg
          · exact (hother h rfl).elim
  | took c | baking c | baked c | charging c | atCash c | paying c | paid c | next c | moving c =>
      exact (hother h rfl).elim

omit [DecidableEq χ] in
/-- The tokens that are pending are those of `Day.pending`. -/
theorem pending_of_tok {d : Day List γ χ} {tok : γ → Tok χ} (h : Agrees d.duty tok)
    (hok : (d.hall tok).Ok) {x : γ} (hx : (tok x).pending = true) : d.pending x := by
  cases ht : tok x with
  | sitting =>
      left
      have hown : (d.errand x).own = (tok x).own := hok.own x
      rw [ht] at hown
      cases he : d.errand x <;> rw [he] at hown <;> first | rfl | cases hown
  | hand k g =>
      right
      rw [ht] at hx
      exact ⟨k, duty_of_pending ((h.hand k x g).mpr ht) hx⟩
  | outside | admitted | entering | stands | queued | done =>
      rw [ht] at hx
      cases hx

omit [DecidableEq χ] in
theorem joinsFirst_hall {d : Day List γ χ} {tok : γ → Tok χ} (h : Agrees d.duty tok)
    (hok : (d.hall tok).Ok) {i : Thread γ χ} {a : Act γ χ} (hc : d.JoinsFirst i)
    (ha : d.acts i = some a) : (d.hall tok).JoinsFirst a := by
  cases a with
  | join c =>
      obtain ⟨rfl, he⟩ := makes_of_acts ha
      exact fun x hx => hc he x (pending_of_tok h hok hx)
  | bring k c =>
      obtain ⟨rfl, hk⟩ := makes_of_acts ha
      exact fun x hx => hc c hk x (pending_of_tok h hok hx)
  | _ => trivial

variable [Fintype γ] [Fintype χ]

/-- **Longest seated first**, in every run in which whoever joins the sofa
queue was announced before all others who are still to join it. -/
theorem longest_seated_first {d : Day Queue γ χ} (h : Reaches step JoinsFirst init d) :
    d.LongestFirst := by
  have hover : ∀ {d : Day Queue γ χ} {l₁ l₂ i}, d.Stands l₁ l₂ → d.JoinsFirst i →
      (d.onLists l₁ l₂).JoinsFirst i := by
    intro d l₁ l₂ i _ hc
    cases i with
    | customer c => exact hc
    | chef k => exact hc
  obtain ⟨l₁, l₂, hlist, -⟩ := stands_reaches hover h
  obtain ⟨tok, hhall, -⟩ :=
    hall_reaches (fun hagree hok hc ha => joinsFirst_hall hagree hok hc ha) hlist
  obtain ⟨hnodup, rest, heq, -⟩ := Hall.inLine_reaches hhall
  change (seatings d.log).Nodup at hnodup
  change seatings d.log = takings d.log ++ l₁ ++ rest at heq
  rw [List.append_assoc] at heq
  intro a b hab hb
  rw [heq] at hab hnodup
  exact before_of_before hnodup hab hb

instance (d : Day Queue γ χ) (c : γ) : Decidable (d.pending c) :=
  inferInstanceAs (Decidable (_ ∨ ∃ _, _))

instance (d : Day Queue γ χ) (c : γ) : Decidable (d.First c) :=
  inferInstanceAs (Decidable (∀ _, _ → _))

instance (d : Day Queue γ χ) (i : Thread γ χ) : Decidable (d.JoinsFirst i) :=
  match i with
  | .customer c => inferInstanceAs (Decidable (d.errand c = .sitting → d.First c))
  | .chef k => inferInstanceAs (Decidable (∀ x, d.duty k = .bringing x → d.First x))

theorem longest_seated_first_two : ∃ d : Day Queue (Fin 2) (Fin 4),
    Reaches step JoinsFirst init d ∧ takings d.log = [0, 1] ∧ d.LongestFirst := by
  obtain ⟨d, hd, hP⟩ := exists_reaches step
    (fun (d : Day Queue (Fin 2) (Fin 4)) i (h : decide (d.JoinsFirst i) = true) =>
      of_decide_eq_true h)
    (fun d : Day Queue (Fin 2) (Fin 4) => decide (takings d.log = [0, 1])) init
    (List.replicate 3 (.customer 0) ++ List.replicate 3 (.customer 1) ++
      [.customer 0, .customer 1, .chef 0, .chef 1]) (by decide +kernel)
  exact ⟨d, hd, of_decide_eq_true hP, longest_seated_first hd⟩

/-- **Overtaken on the sofa.** Customer 0 sits down, then customer 1; the
thread of customer 1 is the first to join the queue, and a chef takes
customer 1 while customer 0 has not been taken. -/
theorem overtaken : ∃ d : Day Queue (Fin 2) (Fin 4), Reaches step AnyTurn init d ∧
    seatings d.log = [0, 1] ∧ takings d.log = [1] ∧ ¬ d.LongestFirst := by
  obtain ⟨d, hd, hP⟩ := exists_reaches step anyTurn_ok
    (fun d : Day Queue (Fin 2) (Fin 4) =>
      decide (seatings d.log = [0, 1]) && decide (takings d.log = [1])) init
    (List.replicate 3 (.customer 0) ++ List.replicate 4 (.customer 1) ++ [.chef 0])
    (by decide +kernel)
  obtain ⟨h₁, h₂⟩ := Bool.and_eq_true_iff.mp hP
  have hseat := of_decide_eq_true h₁
  have htake := of_decide_eq_true h₂
  refine ⟨d, hd, hseat, htake, fun h => ?_⟩
  have hsub := h 0 1 (by rw [hseat]) (by rw [htake]; exact List.mem_singleton_self 1)
  rw [htake] at hsub
  exact absurd hsub.length_le (by decide)

end Day

end OsSuite.Bakery
