import OsSuite.Bakery.Hall

/-!
# Standing — whoever stands is looked after

A standing customer is moved only by a chef that has just finished with
somebody else. So nobody may join the standing queue unless somebody is
still to be finished: in the sofa queue, about to join it, or in the hand
of a chef that has not yet looked at the standing queue for them. The
test of `customer` does not say that: the semaphore is posted by the
customers who leave, some time after the chefs have finished with them.
-/

namespace OsSuite.Bakery

/-- The chef will look at the standing queue, or is bringing somebody from
it to the sofa. -/
def Duty.attends {γ : Type} : Duty γ → Bool
  | .idle | .seeing _ none => false
  | _ => true

namespace Day

variable {Q : Type → Type} [Line Q] {γ χ : Type}

/-- **Stranded**: somebody stands, nobody is on the sofa or about to join
the queue there, and every chef is idle. -/
def Stranded (d : Day Q γ χ) : Prop :=
  Line.count d.standing ≠ 0 ∧ Line.count d.sofa = 0 ∧ (∀ k, d.duty k = .idle) ∧
    ∀ c, d.errand c ≠ .sitting

/-- Somebody will look after those who stand. -/
def Attended (d : Day Q γ χ) : Prop :=
  Line.count d.sofa ≠ 0 ∨ (∃ c, d.errand c = .sitting) ∨ ∃ k, (d.duty k).attends = true

/-- A customer goes to stand only while those who stand are looked after. -/
def StandsAttended (d : Day Q γ χ) : Thread γ χ → Prop
  | .customer c => d.errand c = .entering → d.mayNotSit → d.Attended
  | .chef _ => True

end Day

/-- The customer will be served, and the chef will then look at the
standing queue. -/
def Tok.attends {χ : Type} : Tok χ → Bool
  | .hand _ .finishing => false
  | .sitting | .hand _ _ => true
  | _ => false

namespace Hall

variable {γ χ : Type} [DecidableEq γ]

/-- `Day.Attended`, of the tokens. -/
def Attended (v : Hall γ χ) : Prop := v.sofa ≠ [] ∨ ∃ c, (v.tok c).attends = true

/-- Whoever stands is looked after. -/
def Looked (v : Hall γ χ) : Prop := v.standing ≠ [] → v.Attended

def StandsAttended (v : Hall γ χ) : Act γ χ → Prop
  | .stand _ => v.Attended
  | _ => True

section
variable {v v' : Hall γ χ} {c : γ}

omit [DecidableEq γ] in
theorem Attended.mono (h : v.Attended) (hsofa : v'.sofa = v.sofa)
    (htok : ∀ x, (v.tok x).attends = true → v'.tok x = v.tok x) : v'.Attended := by
  rcases h with h | ⟨x, hx⟩
  · left
    rw [hsofa]
    exact h
  · right
    exact ⟨x, by rw [htok x hx]; exact hx⟩

/-- A token that did not attend goes elsewhere. -/
theorem update_attends {t : Tok χ} (hc : (v.tok c).attends = false) (x : γ)
    (hx : (v.tok x).attends = true) : Function.update v.tok c t x = v.tok x := by
  apply Function.update_of_ne
  intro heq
  rw [heq, hc] at hx
  cases hx

/-- **An act leaves nobody alone**, if nobody goes to stand alone. -/
theorem Looked.act (h : v.Looked) (hok : v.Ok) {a : Act γ χ} (hm : v.May a)
    (hc : v.StandsAttended a) : (v.act a).Looked := by
  intro hstand
  cases a with
  | letIn c =>
      have hout := hok.tok_of_own (c := c) (o := .outside) (by rw [hm]; rfl)
      exact (h hstand).mono rfl (update_attends (by rw [hout]; rfl))
  | enter c =>
      have hout := hok.tok_of_own (c := c) (o := .admitted) (by rw [hm]; rfl)
      exact (h hstand).mono rfl (update_attends (by rw [hout]; rfl))
  | stand c =>
      -- the only way to the standing queue
      have hout := hok.tok_of_own (c := c) (o := .entering) (by rw [hm]; rfl)
      exact Attended.mono hc rfl (update_attends (by rw [hout]; rfl))
  | refuse c | ask c | walk c e | post c | pay k c =>
      exact (h hstand).mono rfl fun _ _ => rfl
  | join c | bring k c =>
      left
      exact List.append_ne_nil_of_right_ne_nil _ (List.cons_ne_nil c [])
  | sit c | take k c | bake k c | serve k c | accept k c | move k c | order k c =>
      right
      exact ⟨c, by rw [Hall.act, puts_tok_self]; rfl⟩
  | fetch k c x =>
      right
      exact ⟨x, by rw [Hall.act, puts_tok_self]; rfl⟩
  | glance k c => exact absurd hm.2 hstand
  | leave k c =>
      exact (h hstand).mono rfl (update_attends (by rw [hm]; rfl))

end

theorem looked_reaches {v : Hall γ χ} (h : Reaches step StandsAttended init v) : v.Looked := by
  have hboth : v.Ok ∧ v.Looked := by
    refine h.invariant (I := fun v => v.Ok ∧ v.Looked) ⟨ok_init, fun hne => absurd rfl hne⟩ fun v a v' hv hc hgo => ?_
    obtain ⟨hm, rfl⟩ := step_eq_go.mp hgo
    exact ⟨hv.1.act hm, hv.2.act hv.1 hm hc⟩
  exact hboth.2

end Hall

/-- A chef that attends has somebody in hand and is not finished with
them, and the other way round. -/
theorem Duty.attends_iff {γ : Type} [DecidableEq γ] (t : Duty γ) :
    t.attends = true ↔ ∃ x g, t.hand x = some g ∧ g ≠ .finishing := by
  cases t with
  | idle => simp [attends, hand]
  | took c | baking c | baked c | charging c | atCash c | paying c | paid c | next c | moving c
  | ordering c | bringing c =>
      refine iff_of_true rfl ⟨c, _, if_pos rfl, by decide⟩
  | seeing c x =>
      cases x with
      | none =>
          refine iff_of_false Bool.false_ne_true ?_
          rintro ⟨x, g, hx, hg⟩
          change (if x = c then some Hand.finishing else none) = some g at hx
          split at hx
          · cases hx
            exact hg rfl
          · cases hx
      | some x => exact iff_of_true rfl ⟨x, .seen, if_pos rfl, by decide⟩

namespace Day

variable {γ χ : Type} [DecidableEq γ] [DecidableEq χ]

omit [DecidableEq χ] in
theorem attended_hall {d : Day List γ χ} {tok : γ → Tok χ} (h : Agrees d.duty tok)
    (hok : (d.hall tok).Ok) : (d.hall tok).Attended ↔ d.Attended := by
  have hsit : ∀ c, tok c = .sitting ↔ d.errand c = .sitting := by
    intro c
    have hown := hok.own c
    change (d.errand c).own = (tok c).own at hown
    constructor
    · intro ht
      rw [ht] at hown
      cases he : d.errand c <;> rw [he] at hown <;> first | rfl | cases hown
    · intro he
      rw [he] at hown
      cases ht : tok c <;> rw [ht] at hown <;> first | rfl | cases hown
  constructor
  · rintro (hne | ⟨c, hc⟩)
    · exact .inl (mt List.eq_nil_of_length_eq_zero hne)
    · change (tok c).attends = true at hc
      cases ht : tok c with
      | sitting => exact .inr (.inl ⟨c, (hsit c).mp ht⟩)
      | hand k g =>
          refine .inr (.inr ⟨k, (Duty.attends_iff _).mpr ⟨c, g, (h.hand k c g).mpr ht, ?_⟩⟩)
          rintro rfl
          rw [ht] at hc
          cases hc
      | outside | admitted | entering | stands | queued | done =>
          rw [ht] at hc
          cases hc
  · rintro (hne | ⟨c, hc⟩ | ⟨k, hk⟩)
    · exact .inl fun hnil => hne (by rw [show d.sofa = [] from hnil]; rfl)
    · refine .inr ⟨c, ?_⟩
      show (tok c).attends = true
      rw [(hsit c).mpr hc]
      rfl
    · obtain ⟨x, g, hx, hg⟩ := (Duty.attends_iff _).mp hk
      refine .inr ⟨x, ?_⟩
      show (tok x).attends = true
      rw [(h.hand k x g).mp hx]
      cases g <;> first | rfl | exact absurd rfl hg

omit [DecidableEq γ] [DecidableEq χ] in
theorem Attended.not_stranded {d : Day List γ χ} (h : d.standing ≠ [] → d.Attended) :
    ¬ d.Stranded := by
  rintro ⟨hstand, hsofa, hidle, hsit⟩
  have hne : d.standing ≠ [] := fun hnil => hstand (by rw [hnil]; rfl)
  rcases h hne with hc | ⟨c, hc⟩ | ⟨k, hk⟩
  · exact hc hsofa
  · exact hsit c hc
  · rw [hidle k] at hk
    cases hk

omit [DecidableEq χ] in
theorem standsAttended_hall {d : Day List γ χ} {tok : γ → Tok χ} {i : Thread γ χ} {a : Act γ χ}
    (h : Agrees d.duty tok) (hok : (d.hall tok).Ok) (hc : d.StandsAttended i)
    (ha : d.acts i = some a) : (d.hall tok).StandsAttended a := by
  cases a with
  | stand c =>
      obtain ⟨rfl, he, hno⟩ := makes_of_acts ha
      exact (attended_hall h hok).mpr (hc he hno)
  | letIn _ | refuse _ | enter _ | sit _ | join _ | ask _ | walk _ _ | post _ | take _ _ | bake _ _
  | serve _ _ | accept _ _ | pay _ _ | glance _ _ | fetch _ _ _ | leave _ _ | move _ _ | order _ _
  | bring _ _ => trivial

/-- The same on lists. -/
theorem not_stranded_list {d : Day List γ χ} (h : Reaches step StandsAttended init d) :
    ¬ d.Stranded := by
  obtain ⟨tok, hhall, hagree⟩ := hall_reaches standsAttended_hall h
  have hok := Hall.ok_reaches hhall
  exact Attended.not_stranded fun hne =>
    (attended_hall hagree hok).mp (Hall.looked_reaches hhall hne)

omit [DecidableEq γ] [DecidableEq χ] in
theorem Stands.standsAttended {d : Day Queue γ χ} {l₁ l₂ : List γ} {i : Thread γ χ}
    (h : d.Stands l₁ l₂) (hc : d.StandsAttended i) : (d.onLists l₁ l₂).StandsAttended i := by
  cases i with
  | chef k => trivial
  | customer c =>
      intro he hno
      rcases hc he (h.mayNotSit.mp hno) with hne | hrest
      · left
        change d.sofa.count ≠ 0 at hne
        rw [h.sofa.count] at hne
        exact hne
      · exact .inr hrest

variable [Fintype γ] [Fintype χ]

/-- **Nobody is stranded standing**, in any run in which customers go to
stand only while those who stand are looked after. -/
theorem nobody_stranded {d : Day Queue γ χ} (h : Reaches step StandsAttended init d) :
    ¬ d.Stranded := by
  obtain ⟨l₁, l₂, hlist, hst⟩ := stands_reaches Stands.standsAttended h
  have hday := not_stranded_list hlist
  rintro ⟨hstand, hsofa, hrest⟩
  change d.standing.count ≠ 0 at hstand
  change d.sofa.count = 0 at hsofa
  rw [hst.standing.count] at hstand
  rw [hst.sofa.count] at hsofa
  exact hday ⟨hstand, hsofa, hrest⟩

instance (d : Day Queue γ χ) (i : Thread γ χ) : Decidable (d.StandsAttended i) :=
  match i with
  | .customer c => inferInstanceAs
      (Decidable (d.errand c = .entering → d.mayNotSit → _ ∨ (∃ _, _) ∨ ∃ _, _))
  | .chef _ => .isTrue trivial

instance (d : Day Queue γ χ) : Decidable d.Stranded :=
  inferInstanceAs (Decidable (_ ∧ _ ∧ (∀ _, _) ∧ ∀ _, _))

theorem nobody_stranded_five : ∃ d : Day Queue (Fin 5) (Fin 4),
    Reaches step StandsAttended init d ∧ .moves 4 ∈ d.log ∧ ¬ d.Stranded := by
  obtain ⟨d, hd, hP⟩ := exists_reaches step
    (fun (d : Day Queue (Fin 5) (Fin 4)) i (h : decide (d.StandsAttended i) = true) =>
      of_decide_eq_true h)
    (fun d : Day Queue (Fin 5) (Fin 4) => decide (.moves 4 ∈ d.log)) init
    (handOverSchedule 5 (by omega)) (by decide +kernel)
  exact ⟨d, hd, of_decide_eq_true hP, nobody_stranded hd⟩

/-- **A customer is stranded.** Four customers sit down and the chef
finishes with all of them before the fifth one looks for a seat. The four
have not yet posted the semaphore. -/
theorem stranded_five : ∃ d : Day Queue (Fin 5) (Fin 4), Reaches step AnyTurn init d ∧
    d.Stranded := by
  obtain ⟨d, hd, hP⟩ := exists_reaches step anyTurn_ok
    (fun d : Day Queue (Fin 5) (Fin 4) => decide d.Stranded) init
    ((List.finRange 4).flatMap (fun c => List.replicate 5 (.customer c.castSucc)) ++
      List.replicate 40 (.chef 0) ++ List.replicate 3 (.customer 4)) (by decide +kernel)
  exact ⟨d, hd, of_decide_eq_true hP⟩

end Day

end OsSuite.Bakery
