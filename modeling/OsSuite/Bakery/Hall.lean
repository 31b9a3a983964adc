import OsSuite.Bakery.Day

/-!
# Hall — the customers as tokens

What the threads do, seen from the customers. A customer inside is a
TOKEN that is in one place at a time: with the own thread until it joins
a queue, in a queue, in the hand of a chef, and in the end done. The own
thread runs beside the token. An act moves one token (a chef that fetches
somebody moves two), prints at most one line, and is possible only where
the token is.

Nothing is said here about the chefs but whom they hold. That a day of the
threads is a run of acts is `Agrees.step`.
-/

namespace OsSuite.Bakery

/-- How far a chef is with the customer in hand. -/
inductive Hand where
  /-- Fetched from the standing queue. -/
  | seen
  /-- `moves from standing to sofa` has been printed. -/
  | seated
  /-- The chef has printed `requests cake`. -/
  | asked
  | took
  /-- `is baking` has been printed. -/
  | baking
  /-- `got cake` has been printed. -/
  | cake
  /-- `accepts the payment` has been printed. -/
  | paying
  /-- The chef has looked at the standing queue. -/
  | finishing
  deriving DecidableEq, Repr

/-- Where a customer is. -/
inductive Tok (χ : Type) where
  | outside
  | admitted
  | entering
  | sitting
  | stands
  | queued
  | hand (k : χ) (h : Hand)
  /-- `leaves` has been printed. -/
  | done
  deriving DecidableEq, Repr

structure Hall (γ χ : Type) where
  seats : Nat
  sofa : List γ
  standing : List γ
  paid : γ → Bool
  errand : γ → Errand
  tok : γ → Tok χ
  log : List (Note γ χ)

inductive Act (γ χ : Type) where
  | letIn (c : γ)
  | refuse (c : γ)
  | enter (c : γ)
  | stand (c : γ)
  | sit (c : γ)
  | join (c : γ)
  | ask (c : γ)
  /-- The own thread goes on without any effect on the others. -/
  | walk (c : γ) (e : Errand)
  | post (c : γ)
  | take (k : χ) (c : γ)
  | bake (k : χ) (c : γ)
  | serve (k : χ) (c : γ)
  | accept (k : χ) (c : γ)
  | pay (k : χ) (c : γ)
  /-- Nobody stands. -/
  | glance (k : χ) (c : γ)
  | fetch (k : χ) (c x : γ)
  | leave (k : χ) (c : γ)
  | move (k : χ) (x : γ)
  | order (k : χ) (x : γ)
  | bring (k : χ) (x : γ)

namespace Hall

variable {γ χ : Type}

def init : Hall γ χ where
  seats := sofaSeats
  sofa := []
  standing := []
  paid _ := false
  errand _ := .arriving
  tok _ := .outside
  log := []

def say (v : Hall γ χ) (n : Note γ χ) : Hall γ χ := { v with log := v.log ++ [n] }

variable [DecidableEq γ]

def goes (v : Hall γ χ) (c : γ) (e : Errand) : Hall γ χ :=
  { v with errand := Function.update v.errand c e }

def puts (v : Hall γ χ) (c : γ) (t : Tok χ) : Hall γ χ :=
  { v with tok := Function.update v.tok c t }

@[simp] theorem puts_tok_self (v : Hall γ χ) (c : γ) (t : Tok χ) : (v.puts c t).tok c = t :=
  Function.update_self ..

/-- The ways of the own thread that concern nobody else. -/
def Walks (v : Hall γ χ) (c : γ) (e : Errand) : Prop :=
  (v.errand c = .arriving ∧ e = .refused) ∨ (v.errand c = .waitingCake ∧ e = .waitingPay) ∨
    (v.errand c = .waitingPay ∧ e = .leaving ∧ v.paid c = true) ∨
    (v.errand c = .leavingSeat ∧ e = .gone)

/-- When an act is possible. -/
def May (v : Hall γ χ) : Act γ χ → Prop
  | .letIn c => v.errand c = .arriving
  | .refuse c => v.errand c = .refused
  | .enter c => v.errand c = .admitted
  | .stand c => v.errand c = .entering
  | .sit c => v.errand c = .entering ∧ v.standing = [] ∧ 0 < v.seats
  | .join c => v.errand c = .sitting
  | .ask c => v.errand c = .asking
  | .walk c e => v.Walks c e
  | .post c => v.errand c = .leaving
  | .take _ c => v.sofa.head? = some c
  | .bake k c => v.tok c = .hand k .took
  | .serve k c => v.tok c = .hand k .baking
  | .accept k c => v.tok c = .hand k .cake
  | .pay k c => v.tok c = .hand k .paying
  | .glance k c => v.tok c = .hand k .paying ∧ v.standing = []
  | .fetch k c x => v.tok c = .hand k .paying ∧ v.standing.head? = some x
  | .leave k c => v.tok c = .hand k .finishing
  | .move k x => v.tok x = .hand k .seen
  | .order k x => v.tok x = .hand k .seated
  | .bring k x => v.tok x = .hand k .asked

/-- What an act does. -/
def act (v : Hall γ χ) : Act γ χ → Hall γ χ
  | .letIn c => (v.goes c .admitted).puts c .admitted
  | .refuse c => (v.say (.full c)).goes c .turnedAway
  | .enter c => ((v.say (.enters c)).goes c .entering).puts c .entering
  | .stand c => ({ v with standing := v.standing ++ [c] }.goes c .waitingCake).puts c .stands
  | .sit c =>
      (({ v with seats := v.seats - 1 }.say (.sits c)).goes c .sitting).puts c .sitting
  | .join c => ({ v with sofa := v.sofa ++ [c] }.goes c .asking).puts c .queued
  | .ask c => (v.say (.requests c)).goes c .waitingCake
  | .walk c e => v.goes c e
  | .post c => { v with seats := v.seats + 1 }.goes c .leavingSeat
  | .take k c => ({ v with sofa := v.sofa.tail }.say (.takes k c)).puts c (.hand k .took)
  | .bake k c => (v.say (.bakes k c)).puts c (.hand k .baking)
  | .serve k c => (v.say (.gotCake c)).puts c (.hand k .cake)
  | .accept k c => (v.say (.accepts k c)).puts c (.hand k .paying)
  | .pay _ c => { v with paid := Function.update v.paid c true }
  | .glance k c => v.puts c (.hand k .finishing)
  | .fetch k c x =>
      ({ v with standing := v.standing.tail }.puts c (.hand k .finishing)).puts x (.hand k .seen)
  | .leave _ c => (v.say (.leaves c)).puts c .done
  | .move k x => (v.say (.moves x)).puts x (.hand k .seated)
  | .order k x => (v.say (.requests x)).puts x (.hand k .asked)
  | .bring _ x => { v with sofa := v.sofa ++ [x] }.puts x .queued

open Classical in
noncomputable def step (v : Hall γ χ) (a : Act γ χ) : Turn (Hall γ χ) :=
  if v.May a then .go (v.act a) else .wait

theorem step_eq_go {v v' : Hall γ χ} {a : Act γ χ} :
    v.step a = .go v' ↔ v.May a ∧ v.act a = v' := by
  unfold step
  split <;> simp_all

end Hall

/-! ## What holds of the tokens -/

/-- The own thread has the token, and where. -/
inductive Own where
  | outside
  | admitted
  | entering
  | sitting
  deriving DecidableEq

def Errand.own : Errand → Option Own
  | .arriving | .refused | .turnedAway => some .outside
  | .admitted => some .admitted
  | .entering => some .entering
  | .sitting => some .sitting
  | _ => none

def Tok.own {χ : Type} : Tok χ → Option Own
  | .outside => some .outside
  | .admitted => some .admitted
  | .entering => some .entering
  | .sitting => some .sitting
  | _ => none

/-- The place of the token then. -/
def Own.tok {χ : Type} : Own → Tok χ
  | .outside => .outside
  | .admitted => .admitted
  | .entering => .entering
  | .sitting => .sitting

/-- Past `is_paying`. -/
def Errand.late : Errand → Bool
  | .leaving | .leavingSeat | .gone => true
  | _ => false

/-- Past the payment. -/
def Tok.late {χ : Type} : Tok χ → Bool
  | .hand _ .paying | .hand _ .finishing | .done => true
  | _ => false

namespace Hall

variable {γ χ : Type} [DecidableEq γ]

/-- Every token is in its place, and only there. -/
structure Ok (v : Hall γ χ) : Prop where
  own : ∀ c, (v.errand c).own = (v.tok c).own
  sofa : v.sofa.Nodup
  queued : ∀ c, c ∈ v.sofa ↔ v.tok c = .queued
  standing : v.standing.Nodup
  stands : ∀ c, c ∈ v.standing ↔ v.tok c = .stands
  paid : ∀ c, v.paid c = true → (v.tok c).late = true
  late : ∀ c, (v.errand c).late = true → v.paid c = true

omit [DecidableEq γ] in
theorem ok_init : (init : Hall γ χ).Ok :=
  ⟨fun _ => rfl, List.nodup_nil, by simp [init], List.nodup_nil, by simp [init], nofun, nofun⟩

section
variable {v : Hall γ χ} {c : γ} {t : Tok χ} {e : Errand}

/-- **One token moves**, and the queues with it. -/
theorem Ok.move (h : v.Ok) {n : Nat} {m : List (Note γ χ)} {l₁ l₂ : List γ} (hown : e.own = t.own)
    (hn₁ : l₁.Nodup) (h₁ : ∀ x, x ≠ c → (x ∈ l₁ ↔ x ∈ v.sofa)) (hc₁ : c ∈ l₁ ↔ t = .queued)
    (hn₂ : l₂.Nodup) (h₂ : ∀ x, x ≠ c → (x ∈ l₂ ↔ x ∈ v.standing)) (hc₂ : c ∈ l₂ ↔ t = .stands)
    (hpaid : v.paid c = true → t.late = true) (hlate : e.late = true → v.paid c = true) :
    Ok ⟨n, l₁, l₂, v.paid, Function.update v.errand c e, Function.update v.tok c t, m⟩ := by
  refine ⟨fun x => ?_, hn₁, fun x => ?_, hn₂, fun x => ?_, fun x hx => ?_, fun x hx => ?_⟩
  all_goals dsimp only at *
  all_goals by_cases hxc : x = c
  all_goals first
    | subst hxc
      simp only [Function.update_self] at *
    | simp only [Function.update_of_ne hxc] at *
  · exact hown
  · exact h.own x
  · exact hc₁
  · exact (h₁ x hxc).trans (h.queued x)
  · exact hc₂
  · exact (h₂ x hxc).trans (h.stands x)
  · exact hpaid hx
  · exact h.paid x hx
  · exact hlate hx
  · exact h.late x hx

omit [DecidableEq γ] in
theorem Ok.tok_of_own (h : v.Ok) {o : Own} (he : (v.errand c).own = some o) :
    v.tok c = o.tok := by
  have ht : (v.tok c).own = some o := (h.own c).symm.trans he
  cases htok : v.tok c with
  | outside | admitted | entering | sitting =>
      rw [htok] at ht
      cases ht
      rfl
  | stands | queued | hand k g | done =>
      rw [htok] at ht
      cases ht

omit [DecidableEq γ] in
/-- While the own thread has the token it is in no queue, and unpaid. -/
theorem Ok.own_out (h : v.Ok) {o : Own} (he : (v.errand c).own = some o) :
    c ∉ v.sofa ∧ c ∉ v.standing ∧ v.paid c = false := by
  have htok := h.tok_of_own he
  refine ⟨fun hc => ?_, fun hc => ?_, ?_⟩
  · rw [(h.queued c).mp hc] at htok
    cases o <;> cases htok
  · rw [(h.stands c).mp hc] at htok
    cases o <;> cases htok
  · rw [Bool.eq_false_iff]
    intro hp
    have hlate := h.paid c hp
    rw [htok] at hlate
    cases o <;> cases hlate

/-- A token in the hand of a chef goes on to `t`, which is in no queue. -/
theorem Ok.handle (h : v.Ok) {n : Nat} {m : List (Note γ χ)} {k : χ} {g : Hand}
    (ht : v.tok c = .hand k g) (hown : t.own = none) (hq : t ≠ .queued) (hs : t ≠ .stands)
    (hlate : (Tok.hand k g).late = true → t.late = true) :
    Ok ⟨n, v.sofa, v.standing, v.paid, v.errand, Function.update v.tok c t, m⟩ := by
  have hmove := h.move (c := c) (t := t) (e := v.errand c) (n := n) (m := m) ?_ h.sofa
    (fun _ _ => Iff.rfl) ?_ h.standing (fun _ _ => Iff.rfl) ?_ ?_ (h.late c)
  · rwa [Function.update_eq_self] at hmove
  · rw [h.own c, ht, hown]
    rfl
  · exact iff_of_false (fun hc => by rw [(h.queued c).mp hc] at ht; cases ht) hq
  · exact iff_of_false (fun hc => by rw [(h.stands c).mp hc] at ht; cases ht) hs
  · intro hp
    have := h.paid c hp
    rw [ht] at this
    exact hlate this

/-- The own thread goes on without the token. -/
theorem Ok.goes (h : v.Ok) {n : Nat} {m : List (Note γ χ)} (hown : e.own = (v.errand c).own)
    (hlate : e.late = true → v.paid c = true) :
    Ok ⟨n, v.sofa, v.standing, v.paid, Function.update v.errand c e, v.tok, m⟩ := by
  have hmove := h.move (c := c) (t := v.tok c) (e := e) (n := n) (m := m) (hown.trans (h.own c))
    h.sofa (fun _ _ => Iff.rfl) (h.queued c) h.standing (fun _ _ => Iff.rfl) (h.stands c)
    (h.paid c) hlate
  rwa [Function.update_eq_self] at hmove

omit [DecidableEq γ] in
theorem nodup_concat {l : List γ} (h : l.Nodup) (hc : c ∉ l) : (l ++ [c]).Nodup := by
  rw [List.nodup_append]
  refine ⟨h, List.nodup_singleton c, fun x hx y hy hxy => hc ?_⟩
  rw [← List.mem_singleton.mp hy, ← hxy]
  exact hx

/-- The own thread goes on with the token, and joins no queue. -/
theorem Ok.carry (h : v.Ok) {n : Nat} {m : List (Note γ χ)} {o : Own}
    (he : (v.errand c).own = some o) (hown : e.own = t.own) (hq : t ≠ .queued) (hs : t ≠ .stands)
    (hlate : e.late = false) :
    Ok ⟨n, v.sofa, v.standing, v.paid, Function.update v.errand c e, Function.update v.tok c t,
      m⟩ := by
  obtain ⟨hsofa, hstand, hunpaid⟩ := h.own_out he
  refine h.move hown h.sofa (fun _ _ => Iff.rfl) (iff_of_false hsofa hq) h.standing
    (fun _ _ => Iff.rfl) (iff_of_false hstand hs) (fun hp => ?_) (fun hl => ?_)
  · rw [hunpaid] at hp
    cases hp
  · rw [hlate] at hl
    cases hl

omit [DecidableEq γ] in
theorem mem_concat_of_ne {l : List γ} {x : γ} (hx : x ≠ c) : x ∈ l ++ [c] ↔ x ∈ l := by
  rw [List.mem_append, List.mem_singleton]
  exact or_iff_left hx

omit [DecidableEq γ] in
/-- The first of a line leaves it. -/
theorem mem_tail_of_head {l : List γ} (hl : l.Nodup) (hc : l.head? = some c) :
    l.tail.Nodup ∧ c ∈ l ∧ c ∉ l.tail ∧ ∀ x, x ≠ c → (x ∈ l.tail ↔ x ∈ l) := by
  cases l with
  | nil => cases hc
  | cons d l =>
      cases hc
      obtain ⟨hnot, hl⟩ := List.nodup_cons.mp hl
      refine ⟨hl, List.mem_cons_self, hnot, fun x hx => ?_⟩
      rw [List.tail_cons, List.mem_cons]
      exact (or_iff_right hx).symm

/-- **An act keeps every token in its place.** -/
theorem Ok.act (h : v.Ok) {a : Act γ χ} (hm : v.May a) : (v.act a).Ok := by
  cases a with
  | letIn c => exact h.carry (o := .outside) (by rw [hm]; rfl) rfl nofun nofun rfl
  | refuse c => exact h.goes (by rw [hm]; rfl) nofun
  | enter c => exact h.carry (o := .admitted) (by rw [hm]; rfl) rfl nofun nofun rfl
  | sit c => exact h.carry (o := .entering) (by rw [hm.1]; rfl) rfl nofun nofun rfl
  | stand c =>
      obtain ⟨hsofa, hstand, hunpaid⟩ := h.own_out (c := c) (o := .entering) (by rw [hm]; rfl)
      refine h.move rfl h.sofa (fun _ _ => Iff.rfl) (iff_of_false hsofa nofun)
        (nodup_concat h.standing hstand) (fun x hx => mem_concat_of_ne hx) ?_ (fun hp => ?_) nofun
      · exact iff_of_true (List.mem_append_right _ (List.mem_singleton_self c)) rfl
      · rw [hunpaid] at hp
        cases hp
  | join c =>
      obtain ⟨hsofa, hstand, hunpaid⟩ := h.own_out (c := c) (o := .sitting) (by rw [hm]; rfl)
      refine h.move rfl (nodup_concat h.sofa hsofa) (fun x hx => mem_concat_of_ne hx) ?_
        h.standing (fun _ _ => Iff.rfl) (iff_of_false hstand nofun) (fun hp => ?_) nofun
      · exact iff_of_true (List.mem_append_right _ (List.mem_singleton_self c)) rfl
      · rw [hunpaid] at hp
        cases hp
  | ask c => exact h.goes (by rw [hm]; rfl) nofun
  | walk c e =>
      rcases hm with ⟨he, rfl⟩ | ⟨he, rfl⟩ | ⟨he, rfl, hp⟩ | ⟨he, rfl⟩
      · exact h.goes (by rw [he]; rfl) nofun
      · exact h.goes (by rw [he]; rfl) nofun
      · exact h.goes (by rw [he]; rfl) fun _ => hp
      · exact h.goes (by rw [he]; rfl) fun _ => h.late c (by rw [he]; rfl)
  | post c => exact h.goes (by rw [hm]; rfl) fun _ => h.late c (by rw [hm]; rfl)
  | take k c =>
      obtain ⟨htail, hmem, hnot, hrest⟩ := mem_tail_of_head h.sofa hm
      have htok := (h.queued c).mp hmem
      have hmove := h.move (c := c) (t := .hand k .took) (e := v.errand c) (n := v.seats)
        (m := v.log ++ [.takes k c]) (by rw [h.own c, htok]; rfl) htail hrest
        (iff_of_false hnot nofun) h.standing (fun _ _ => Iff.rfl) ?_ ?_ (h.late c)
      · rwa [Function.update_eq_self] at hmove
      · exact iff_of_false (fun hc => by rw [(h.stands c).mp hc] at htok; cases htok) nofun
      · intro hp
        have := h.paid c hp
        rw [htok] at this
        cases this
  | bake k c | serve k c | accept k c | move k c | order k c =>
      exact h.handle hm rfl nofun nofun nofun
  | pay k c =>
      refine ⟨h.own, h.sofa, h.queued, h.standing, h.stands, fun x hx => ?_, fun x hx => ?_⟩
      · change Function.update v.paid c true x = true at hx
        by_cases hxc : x = c
        · subst hxc
          change (v.tok x).late = true
          rw [hm]
          rfl
        · rw [Function.update_of_ne hxc] at hx
          exact h.paid x hx
      · change Function.update v.paid c true x = true
        by_cases hxc : x = c
        · subst hxc
          exact Function.update_self ..
        · rw [Function.update_of_ne hxc]
          exact h.late x hx
  | glance k c => exact h.handle hm.1 rfl nofun nofun fun _ => rfl
  | fetch k c x =>
      obtain ⟨hc, hx⟩ := hm
      obtain ⟨htail, hmem, hnot, hrest⟩ := mem_tail_of_head h.standing hx
      have htok := (h.stands x).mp hmem
      have hne : x ≠ c := by
        intro heq
        rw [heq, hc] at htok
        cases htok
      -- first the customer in hand, then the one who is fetched
      have h₁ : (v.puts c (.hand k .finishing)).Ok :=
        h.handle hc rfl nofun nofun fun _ => rfl
      have htok₁ : (v.puts c (.hand k .finishing)).tok x = .stands := by
        rw [← htok]
        exact Function.update_of_ne hne _ _
      have hmove := h₁.move (c := x) (t := .hand k .seen) (e := v.errand x) (n := v.seats)
        (m := v.log) (by rw [h.own x, htok]; rfl) h.sofa (fun _ _ => Iff.rfl) ?_ htail hrest
        (iff_of_false hnot nofun) ?_ (h.late x)
      · have herr : Function.update (v.puts c (.hand k .finishing)).errand x (v.errand x) = v.errand :=
          Function.update_eq_self ..
        rwa [herr] at hmove
      · exact iff_of_false (fun hs => by rw [(h.queued x).mp hs] at htok; cases htok) nofun
      · intro hp
        have := h.paid x hp
        rw [htok] at this
        cases this
  | leave k c => exact h.handle hm rfl nofun nofun fun _ => rfl
  | bring k c =>
      have hsofa : c ∉ v.sofa := fun hs => by
        rw [May, (h.queued c).mp hs] at hm
        cases hm
      have hstand : c ∉ v.standing := fun hs => by
        rw [May, (h.stands c).mp hs] at hm
        cases hm
      have hmove := h.move (c := c) (t := .queued) (e := v.errand c) (n := v.seats)
        (m := v.log) (by rw [h.own c, hm]; rfl) (nodup_concat h.sofa hsofa)
        (fun x hx => mem_concat_of_ne hx) ?_ h.standing (fun _ _ => Iff.rfl)
        (iff_of_false hstand nofun) ?_ (h.late c)
      · rwa [Function.update_eq_self] at hmove
      · exact iff_of_true (List.mem_append_right _ (List.mem_singleton_self c)) rfl
      · intro hp
        have := h.paid c hp
        rw [hm] at this
        cases this

/-- Whoever is fetched stands, also when the customer in hand has been let
go. -/
theorem Ok.fetched (h : v.Ok) {k : χ} {x : γ} (hm : v.May (.fetch k c x)) (t : Tok χ) :
    (v.puts c t).tok x = .stands := by
  have hx : v.tok x = .stands := (h.stands x).mp (List.mem_of_mem_head? hm.2)
  have hne : x ≠ c := by
    intro heq
    rw [heq, hm.1] at hx
    cases hx
  exact (Function.update_of_ne hne _ _).trans hx

theorem ok_reaches {C : Hall γ χ → Act γ χ → Prop} (h : Reaches step C init v) : v.Ok :=
  h.invariant ok_init fun _ _ _ hv _ hgo => by
    obtain ⟨hm, rfl⟩ := step_eq_go.mp hgo
    exact hv.act hm

end

end Hall

/-! ## A day is a run of acts -/

/-- How far the chef is with `x`, if at all. -/
def Duty.hand {γ : Type} [DecidableEq γ] : Duty γ → γ → Option Hand
  | .idle, _ => none
  | .took c, x => if x = c then some .took else none
  | .baking c, x | .baked c, x => if x = c then some .baking else none
  | .charging c, x | .atCash c, x => if x = c then some .cake else none
  | .paying c, x | .paid c, x | .next c, x => if x = c then some .paying else none
  | .seeing c none, x => if x = c then some .finishing else none
  | .seeing c (some d), x =>
      if x = d then some .seen else if x = c then some .finishing else none
  | .moving d, x => if x = d then some .seen else none
  | .ordering d, x => if x = d then some .seated else none
  | .bringing d, x => if x = d then some .asked else none

/-- The chef does not fetch the customer it lets go. -/
def Duty.Apart {γ : Type} : Duty γ → Prop
  | .seeing c (some x) => x ≠ c
  | _ => True

/-- The tokens in hand are those the chefs deal with. -/
structure Agrees {γ χ : Type} [DecidableEq γ] (duty : χ → Duty γ) (tok : γ → Tok χ) : Prop where
  hand : ∀ k x g, (duty k).hand x = some g ↔ tok x = .hand k g
  apart : ∀ k, (duty k).Apart

section
variable {γ χ : Type} [DecidableEq γ] {duty : χ → Duty γ} {tok : γ → Tok χ} {c : γ} {p : Tok χ}

/-- A token that no chef has, and that no chef takes. -/
theorem Agrees.own (h : Agrees duty tok) (hold : ∀ k g, tok c ≠ .hand k g)
    (hnew : ∀ k g, p ≠ .hand k g) : Agrees duty (Function.update tok c p) := by
  refine ⟨fun k x g => ?_, h.apart⟩
  rw [h.hand k x g]
  by_cases hx : x = c
  · subst hx
    rw [Function.update_self]
    exact iff_of_false (hold k g) (hnew k g)
  · rw [Function.update_of_ne hx]

variable [DecidableEq χ] {k : χ} {t : Duty γ}

/-- A chef goes on, and nothing happens to the customers. -/
theorem Agrees.same (h : Agrees duty tok) (ht : t.Apart) (hx : ∀ x, t.hand x = (duty k).hand x) :
    Agrees (Function.update duty k t) tok := by
  refine ⟨fun j x g => ?_, fun j => ?_⟩
  all_goals by_cases hj : j = k
  · subst hj
    rw [Function.update_self, hx x]
    exact h.hand j x g
  · rw [Function.update_of_ne hj]
    exact h.hand j x g
  · subst hj
    rw [Function.update_self]
    exact ht
  · rw [Function.update_of_ne hj]
    exact h.apart j

/-- A chef goes on with a token, takes one or gives one away. -/
theorem Agrees.chef (h : Agrees duty tok) (ht : t.Apart) (hold : ∀ j g, tok c = .hand j g → j = k)
    (hnew : ∀ j g, p = .hand j g → j = k) (hx : ∀ x, x ≠ c → t.hand x = (duty k).hand x)
    (hc : ∀ g, t.hand c = some g ↔ p = .hand k g) :
    Agrees (Function.update duty k t) (Function.update tok c p) := by
  refine ⟨fun j x g => ?_, fun j => ?_⟩
  all_goals by_cases hj : j = k
  · subst hj
    rw [Function.update_self]
    by_cases hxc : x = c
    · subst hxc
      rw [Function.update_self]
      exact hc g
    · rw [Function.update_of_ne hxc, hx x hxc]
      exact h.hand j x g
  · rw [Function.update_of_ne hj, h.hand j x g]
    by_cases hxc : x = c
    · subst hxc
      rw [Function.update_self]
      exact iff_of_false (fun ht => hj (hold j g ht)) fun ht => hj (hnew j g ht)
    · rw [Function.update_of_ne hxc]
  · subst hj
    rw [Function.update_self]
    exact ht
  · rw [Function.update_of_ne hj]
    exact h.apart j

/-- The token of the one customer the chef has in hand. -/
theorem Agrees.on (h : Agrees duty tok) {a b : Hand} (ht : t.Apart)
    (hold : ∀ x, (duty k).hand x = if x = c then some a else none)
    (hnew : ∀ x, t.hand x = if x = c then some b else none) :
    tok c = .hand k a ∧ Agrees (Function.update duty k t) (Function.update tok c (.hand k b)) := by
  have htok : tok c = .hand k a := (h.hand k c a).mp (by rw [hold c, if_pos rfl])
  refine ⟨htok, h.chef ht (fun j g hj => ?_) (fun j g hj => ?_) (fun x hx => ?_) fun g => ?_⟩
  · rw [htok] at hj
    cases hj
    rfl
  · cases hj
    rfl
  · rw [hold x, hnew x, if_neg hx, if_neg hx]
  · rw [hnew c, if_pos rfl]
    constructor <;> intro hg <;> cases hg <;> rfl

/-- A chef takes a token that no chef has. -/
theorem Agrees.take (h : Agrees duty tok) {b : Hand} (ht : t.Apart)
    (hold : ∀ j g, tok c ≠ .hand j g) (hx : ∀ x, x ≠ c → t.hand x = (duty k).hand x)
    (hc : t.hand c = some b) :
    Agrees (Function.update duty k t) (Function.update tok c (.hand k b)) := by
  refine h.chef ht (fun j g hj => absurd hj (hold j g)) (fun j g hj => ?_) hx fun g => ?_
  · cases hj
    rfl
  · rw [hc]
    constructor <;> intro hg <;> cases hg <;> rfl

/-- A chef gives a token away. -/
theorem Agrees.give (h : Agrees duty tok) {a : Hand} (ht : t.Apart)
    (hold : (duty k).hand c = some a) (hx : ∀ x, x ≠ c → t.hand x = (duty k).hand x)
    (hc : t.hand c = none) (hp : ∀ j g, p ≠ .hand j g) :
    tok c = .hand k a ∧ Agrees (Function.update duty k t) (Function.update tok c p) := by
  have htok : tok c = .hand k a := (h.hand k c a).mp hold
  refine ⟨htok, h.chef ht (fun j g hj => ?_) (fun j g hj => absurd hj (hp j g)) hx fun g => ?_⟩
  · rw [htok] at hj
    cases hj
    rfl
  · rw [hc]
    exact iff_of_false nofun (hp k g)

end

namespace Day

variable {γ χ : Type} [DecidableEq γ] [DecidableEq χ] {d d' : Day List γ χ} {tok : γ → Tok χ}

/-- The hall of a day, with its tokens. -/
def hall (d : Day List γ χ) (tok : γ → Tok χ) : Hall γ χ where
  seats := d.numOfSeats
  sofa := d.sofa
  standing := d.standing
  paid := d.isPaying
  errand := d.errand
  tok := tok
  log := d.log

/-- The act of a turn. -/
def acts (d : Day List γ χ) : Thread γ χ → Option (Act γ χ)
  | .customer c =>
      match d.errand c with
      | .arriving => some (if 0 < d.numOfCus then .letIn c else .walk c .refused)
      | .refused => some (.refuse c)
      | .admitted => some (.enter c)
      | .entering => some (if d.mayNotSit then .stand c else .sit c)
      | .sitting => some (.join c)
      | .asking => some (.ask c)
      | .waitingCake => some (.walk c .waitingPay)
      | .waitingPay => some (.walk c .leaving)
      | .leaving => some (.post c)
      | .leavingSeat => some (.walk c .gone)
      | .turnedAway | .gone => none
  | .chef k =>
      match d.duty k with
      | .idle => d.sofa.head?.map (.take k)
      | .took c => some (.bake k c)
      | .baked c => some (.serve k c)
      | .atCash c => some (.accept k c)
      | .baking _ | .charging _ | .paying _ => none
      | .paid c => some (.pay k c)
      | .next c =>
          match d.standing with
          | [] => some (.glance k c)
          | x :: _ => some (.fetch k c x)
      | .seeing c _ => some (.leave k c)
      | .moving x => some (.move k x)
      | .ordering x => some (.order k x)
      | .bringing x => some (.bring k x)

/-- Where the thread is that makes an act; said of those acts on which a
condition will be put. -/
def Makes (d : Day List γ χ) (i : Thread γ χ) : Act γ χ → Prop
  | .stand c => i = .customer c ∧ d.errand c = .entering ∧ d.mayNotSit
  | .join c => i = .customer c ∧ d.errand c = .sitting
  | .post c => i = .customer c ∧ d.errand c = .leaving
  | .bake k c => i = .chef k ∧ d.duty k = .took c
  | .move k x => i = .chef k ∧ d.duty k = .moving x
  | .bring k x => i = .chef k ∧ d.duty k = .bringing x
  | _ => True

omit [DecidableEq γ] [DecidableEq χ] in
theorem makes_of_acts {i : Thread γ χ} {a : Act γ χ} (h : d.acts i = some a) : d.Makes i a := by
  cases i with
  | customer c =>
      cases he : d.errand c <;> simp only [acts, he] at h
      case arriving => split at h <;> cases h <;> trivial
      case entering =>
        split at h <;> cases h
        · exact ⟨rfl, he, by assumption⟩
        · trivial
      case sitting | leaving =>
        cases h
        exact ⟨rfl, he⟩
      all_goals cases h <;> trivial
  | chef k =>
      cases hk : d.duty k <;> simp only [acts, hk] at h
      case idle =>
        obtain ⟨c, _, rfl⟩ := Option.map_eq_some_iff.mp h
        trivial
      case next => split at h <;> cases h <;> trivial
      case took | moving | bringing =>
        cases h
        exact ⟨rfl, hk⟩
      all_goals cases h <;> trivial

/-- The turn does what its act says, if it has one. -/
def Plays (d d' : Day List γ χ) (tok tok' : γ → Tok χ) : Option (Act γ χ) → Prop
  | none => d'.hall tok' = d.hall tok
  | some a => (d.hall tok).May a ∧ (d.hall tok).act a = d'.hall tok'

omit [DecidableEq χ] in
/-- **A turn of a customer is its act.** -/
theorem plays_customer (h : Agrees d.duty tok) (hok : (d.hall tok).Ok) {c : γ}
    (hgo : d.customer c = .go d') :
    ∃ tok', Agrees d'.duty tok' ∧ d.Plays d' tok tok' (d.acts (.customer c)) := by
  have hown := hok.own c
  change (d.errand c).own = (tok c).own at hown
  have hold : (d.errand c).own.isSome = true → ∀ k g, tok c ≠ .hand k g := by
    intro hsome k g htok
    rw [hown, htok] at hsome
    cases hsome
  unfold acts
  dsimp only
  unfold Day.customer at hgo
  cases he : d.errand c with
  | arriving =>
      simp only [he] at hgo ⊢
      split at hgo
      · rename_i hpos
        cases hgo
        rw [if_pos hpos]
        exact ⟨_, h.own (p := .admitted) (hold (by rw [he]; rfl)) nofun, he, rfl⟩
      · rename_i hpos
        cases hgo
        rw [if_neg hpos]
        exact ⟨tok, h, .inl ⟨he, rfl⟩, rfl⟩
  | refused =>
      simp only [he] at hgo ⊢
      cases hgo
      exact ⟨tok, h, he, rfl⟩
  | admitted =>
      simp only [he] at hgo ⊢
      cases hgo
      exact ⟨_, h.own (p := .entering) (hold (by rw [he]; rfl)) nofun, he, rfl⟩
  | entering =>
      simp only [he] at hgo ⊢
      split at hgo
      · rename_i hno
        cases hgo
        rw [if_pos hno]
        exact ⟨_, h.own (p := .stands) (hold (by rw [he]; rfl)) nofun, he, rfl⟩
      · rename_i hyes
        cases hgo
        rw [if_neg hyes]
        obtain ⟨hempty, hseat⟩ := not_not.mp hyes
        exact ⟨_, h.own (p := .sitting) (hold (by rw [he]; rfl)) nofun,
          ⟨he, List.eq_nil_of_length_eq_zero hempty, hseat⟩, rfl⟩
  | sitting =>
      simp only [he] at hgo ⊢
      cases hgo
      exact ⟨_, h.own (p := .queued) (hold (by rw [he]; rfl)) nofun, he, rfl⟩
  | asking =>
      simp only [he] at hgo ⊢
      cases hgo
      exact ⟨tok, h, he, rfl⟩
  | waitingCake =>
      simp only [he] at hgo ⊢
      split at hgo <;> cases hgo
      exact ⟨tok, h, .inr (.inl ⟨he, rfl⟩), rfl⟩
  | waitingPay =>
      simp only [he] at hgo ⊢
      split at hgo <;> cases hgo
      rename_i hpay
      exact ⟨tok, h, .inr (.inr (.inl ⟨he, rfl, hpay⟩)), rfl⟩
  | leaving =>
      simp only [he] at hgo ⊢
      cases hgo
      exact ⟨tok, h, he, rfl⟩
  | leavingSeat =>
      simp only [he] at hgo ⊢
      cases hgo
      exact ⟨tok, h, .inr (.inr (.inr ⟨he, rfl⟩)), rfl⟩
  | turnedAway | gone =>
      simp only [he] at hgo
      cases hgo

/-- **A turn of a chef is its act**, if it has one. -/
theorem plays_chef (h : Agrees d.duty tok) (hok : (d.hall tok).Ok) {k : χ}
    (hgo : d.chef k = .go d') :
    ∃ tok', Agrees d'.duty tok' ∧ d.Plays d' tok tok' (d.acts (.chef k)) := by
  unfold acts
  dsimp only
  unfold Day.chef at hgo
  cases hk : d.duty k with
  | idle =>
      simp only [hk] at hgo ⊢
      cases hsofa : d.sofa with
      | nil =>
          rw [hsofa] at hgo
          cases hgo
          refine ⟨tok, h, ?_⟩
          show hall _ tok = hall d tok
          simp only [hall, hsofa]
      | cons c rest =>
          rw [hsofa] at hgo
          cases hgo
          have htok : tok c = .queued :=
            (hok.queued c).mp (show c ∈ d.sofa by rw [hsofa]; exact List.mem_cons_self)
          refine ⟨Function.update tok c (.hand k .took), ?_, ?_, ?_⟩
          · refine h.take trivial (fun j g hj => ?_) (fun x hx => ?_) (if_pos rfl)
            · rw [htok] at hj
              cases hj
            · rw [hk]
              exact if_neg hx
          · show d.sofa.head? = some c
            rw [hsofa]
            rfl
          · simp only [hall, Hall.act, hsofa]
            rfl
  | took c =>
      simp only [hk] at hgo ⊢
      cases hgo
      obtain ⟨htok, hagree⟩ := h.on (k := k) (t := .baking c) (c := c) trivial
        (fun x => by rw [hk]; rfl) fun x => rfl
      exact ⟨_, hagree, htok, rfl⟩
  | baked c =>
      simp only [hk] at hgo ⊢
      cases hgo
      obtain ⟨htok, hagree⟩ := h.on (k := k) (t := .charging c) (c := c) trivial
        (fun x => by rw [hk]; rfl) fun x => rfl
      exact ⟨_, hagree, htok, rfl⟩
  | atCash c =>
      simp only [hk] at hgo ⊢
      cases hgo
      obtain ⟨htok, hagree⟩ := h.on (k := k) (t := .paying c) (c := c) trivial
        (fun x => by rw [hk]; rfl) fun x => rfl
      exact ⟨_, hagree, htok, rfl⟩
  | baking c | paying c =>
      simp only [hk] at hgo ⊢
      cases hgo
      exact ⟨tok, h.same trivial fun x => by rw [hk]; rfl, rfl⟩
  | charging c =>
      simp only [hk] at hgo ⊢
      split at hgo <;> cases hgo
      exact ⟨tok, h.same trivial fun x => by rw [hk]; rfl, rfl⟩
  | paid c =>
      simp only [hk] at hgo ⊢
      cases hgo
      have htok : tok c = .hand k .paying := (h.hand k c _).mp (by rw [hk]; exact if_pos rfl)
      exact ⟨tok, h.same trivial fun x => by rw [hk]; rfl, htok, rfl⟩
  | next c =>
      simp only [hk] at hgo ⊢
      obtain ⟨htok, hagree⟩ := h.on (k := k) (t := .seeing c none) (c := c) trivial
        (fun x => by rw [hk]; rfl) fun x => rfl
      cases hst : d.standing with
      | nil =>
          rw [hst] at hgo
          cases hgo
          refine ⟨_, hagree, ⟨htok, hst⟩, ?_⟩
          simp only [hall, Hall.act, hst]
          rfl
      | cons x rest =>
          rw [hst] at hgo
          cases hgo
          have hx : tok x = .stands :=
            (hok.stands x).mp (show x ∈ d.standing by rw [hst]; exact List.mem_cons_self)
          have hne : x ≠ c := by
            intro heq
            rw [heq, htok] at hx
            cases hx
          -- `c` is let go, then `x` is taken
          have hboth := hagree.take (k := k) (c := x) (t := .seeing c (some x)) (b := .seen) hne
            (fun j g hj => by rw [Function.update_of_ne hne, hx] at hj; cases hj)
            (fun y hy => by rw [Function.update_self]; exact if_neg hy) (if_pos rfl)
          rw [Function.update_idem] at hboth
          refine ⟨_, hboth, ⟨htok, ?_⟩, ?_⟩
          · show d.standing.head? = some x
            rw [hst]
            rfl
          · simp only [hall, Hall.act, hst]
            rfl
  | seeing c x =>
      cases x with
      | none =>
          simp only [hk] at hgo ⊢
          cases hgo
          obtain ⟨htok, hagree⟩ := h.give (k := k) (c := c) (t := .idle) (p := .done)
            (a := .finishing) trivial (by rw [hk]; exact if_pos rfl)
            (fun x hx => by rw [hk]; exact (if_neg hx).symm) rfl nofun
          exact ⟨_, hagree, htok, rfl⟩
      | some x =>
          have hne : x ≠ c := by
            have := h.apart k
            rw [hk] at this
            exact this
          simp only [hk] at hgo ⊢
          cases hgo
          have hfin : (d.duty k).hand c = some .finishing := by
            rw [hk]
            simp [Duty.hand, hne.symm]
          have hrest : ∀ y, y ≠ c → (Duty.moving x).hand y = (d.duty k).hand y := by
            intro y hy
            rw [hk]
            simp [Duty.hand, hy]
          obtain ⟨htok, hagree⟩ := h.give (k := k) (c := c) (t := .moving x) (p := .done)
            trivial hfin hrest (if_neg hne.symm) nofun
          exact ⟨_, hagree, htok, rfl⟩
  | moving c =>
      simp only [hk] at hgo ⊢
      cases hgo
      obtain ⟨htok, hagree⟩ := h.on (k := k) (t := .ordering c) (c := c) trivial
        (fun x => by rw [hk]; rfl) fun x => rfl
      exact ⟨_, hagree, htok, rfl⟩
  | ordering c =>
      simp only [hk] at hgo ⊢
      cases hgo
      obtain ⟨htok, hagree⟩ := h.on (k := k) (t := .bringing c) (c := c) trivial
        (fun x => by rw [hk]; rfl) fun x => rfl
      exact ⟨_, hagree, htok, rfl⟩
  | bringing c =>
      simp only [hk] at hgo ⊢
      cases hgo
      obtain ⟨htok, hagree⟩ := h.give (k := k) (c := c) (t := .idle) (p := .queued)
        (a := .asked) trivial (by rw [hk]; exact if_pos rfl)
        (fun x hx => by rw [hk]; exact (if_neg hx).symm) rfl nofun
      exact ⟨_, hagree, htok, rfl⟩

/-- **Every run of the day is a run of acts.** The condition on the turns
becomes a condition on the acts. -/
theorem hall_reaches {C : Day List γ χ → Thread γ χ → Prop} {C' : Hall γ χ → Act γ χ → Prop}
    (hC : ∀ {d : Day List γ χ} {tok i a}, Agrees d.duty tok → (d.hall tok).Ok → C d i →
      d.acts i = some a → C' (d.hall tok) a)
    (h : Reaches step C init d) :
    ∃ tok, Reaches Hall.step C' Hall.init (d.hall tok) ∧ Agrees d.duty tok := by
  let R : Day List γ χ → Hall γ χ → Prop := fun d v =>
    ∃ tok, v = d.hall tok ∧ Agrees d.duty tok ∧ v.Ok
  have h0 : R init Hall.init :=
    ⟨fun _ => .outside, rfl, ⟨fun _ _ _ => iff_of_false nofun nofun, fun _ => trivial⟩,
      Hall.ok_init⟩
  have hstep : ∀ d i d' v, R d v → C d i → d.step i = .go d' →
      ∃ v', Reaches Hall.step C' v v' ∧ R d' v' := by
    rintro d i d' _ ⟨tok, rfl, hagree, hok⟩ hc hgo
    have hplays : ∃ tok', Agrees d'.duty tok' ∧ d.Plays d' tok tok' (d.acts i) := by
      cases i with
      | customer c => exact plays_customer hagree hok hgo
      | chef k => exact plays_chef hagree hok hgo
    obtain ⟨tok', hagree', hplay⟩ := hplays
    cases ha : d.acts i with
    | none =>
        rw [ha] at hplay
        change d'.hall tok' = d.hall tok at hplay
        exact ⟨_, .refl, tok', hplay.symm, hagree', hok⟩
    | some a =>
        rw [ha] at hplay
        obtain ⟨hmay, hact⟩ := hplay
        exact ⟨_, .turn .refl (hC hagree hok hc ha) (Hall.step_eq_go.mpr ⟨hmay, hact⟩), tok', rfl,
          hagree', hact ▸ hok.act hmay⟩
  obtain ⟨_, hv, tok, rfl, hagree, _⟩ := h.refines h0 hstep
  exact ⟨tok, hv, hagree⟩

theorem hall_reaches_any {C : Day List γ χ → Thread γ χ → Prop} (h : Reaches step C init d) :
    ∃ tok, Reaches Hall.step AnyTurn Hall.init (d.hall tok) ∧ Agrees d.duty tok :=
  hall_reaches (fun _ _ _ _ => trivial) h

end Day

end OsSuite.Bakery
