import OsSuite.Sniffer.Layers
import OsSuite.Sniffer.Session

/-!
# Selection — which frames a filter lets through

The six characters of `filter` select protocols, and a frame is to be
displayed if it belongs to a selected one, or if all six are selected
(`Wanted`). The loop of `pckt_handler` that recognises the filter of six
ones tests `filter[0]` in each of its six rounds. So whoever selects HTTP
gets every frame, and nobody else notices (`filter_right_iff`).
-/

namespace OsSuite.Sniffer

open Decode

/-- One of the two ports of a TCP or UDP frame. -/
def Carried.hasPort (c : Carried) (port : Nat) : Prop :=
  c.transport ≠ .na ∧ (c.sport = port ∨ c.dport = port)

/-- The frame belongs to the protocol. -/
def Carried.Matches (c : Carried) : Proto → Prop
  | .http => c.transport = .tcp ∧ c.hasPort 80
  | .https => c.transport = .tcp ∧ c.hasPort 443
  | .dns => c.hasPort 53
  | .arp => c.net = .arp
  | .tcp => c.transport = .tcp
  | .udp => c.transport = .udp

/-- All six characters are '1'. -/
def Filter.Full (filter : Filter) : Prop := ∀ i, filter i = '1'

/-- **The frame is to be displayed.** -/
def Frame.Wanted (f : Frame) (filter : Filter) : Prop :=
  filter.Full ∨ ∃ p : Proto, filter p.bit = '1' ∧ (carried f.mem).Matches p

/-- **The handler does what the filter asks for**: it displays a frame that
is wanted under the next number, and of any other frame it displays
nothing and leaves the counter. -/
def Capture.Selects (c : Capture) (filter : Filter) (f : Frame) : Prop :=
  (f.Wanted filter → (c.handle filter f).id = c.id + 1 ∧
    (c.handle filter f).shown = c.shown ++ [(c.id + 1, f)]) ∧
  (¬ f.Wanted filter → (c.handle filter f).id = c.id ∧ (c.handle filter f).shown = c.shown)

/-! ## What the handler tests -/

section
variable {filter : Filter} {f : Frame} {c : Capture}

/-- Without a transport protocol there are no ports. -/
theorem carriedOver_ports {net : L3Proto} {src dst : List UInt8} {m : Nat → UInt8} {proto : UInt8}
    {o : Nat} (h : (carriedOver net src dst m proto o).transport = .na) :
    (carriedOver net src dst m proto o).sport = 0 ∧
      (carriedOver net src dst m proto o).dport = 0 := by
  unfold carriedOver at h ⊢
  split
  · exact ⟨rfl, rfl⟩
  · rename_i hna
    rw [if_neg hna] at h
    exact absurd h hna

theorem carried_ports {m : Nat → UInt8} (h : (carried m).transport = .na) :
    (carried m).sport = 0 ∧ (carried m).dport = 0 := by
  unfold carried at h ⊢
  split
  · rename_i ht
    rw [if_pos ht] at h
    exact carriedOver_ports h
  · rename_i ht
    rw [if_neg ht] at h
    split
    · rename_i ht6
      rw [if_pos ht6] at h
      exact carriedOver_ports h
    · split
      · exact ⟨rfl, rfl⟩
      · exact ⟨rfl, rfl⟩

/-- A port other than 0 is the port of a transport protocol. -/
theorem hasPort_iff {m : Nat → UInt8} {port : Nat} (h0 : port ≠ 0) :
    (carried m).hasPort port ↔ (carried m).sport = port ∨ (carried m).dport = port := by
  unfold Carried.hasPort
  refine and_iff_right_of_imp fun h hna => ?_
  obtain ⟨hs, hd⟩ := carried_ports hna
  rcases h with h | h <;> omega

/-- The loop looks at the first character only. -/
theorem flag_iff : (List.range 6).foldl (fun flag _ => if filter 0 = '0' then false else flag) true
    = true ↔ filter 0 ≠ '0' := by
  by_cases h : filter 0 = '0'
  · simp [h, List.range_succ]
  · simp [h]

/-- **What the handler displays**: everything, unless the first character
is '0'; and what belongs to a selected protocol. -/
theorem displayed_iff : f.displayed filter = true ↔
    filter 0 ≠ '0' ∨ ∃ p : Proto, filter p.bit = '1' ∧ (carried f.mem).Matches p := by
  unfold Frame.displayed Filter.prints
  rw [eval_classify]
  dsimp only [Carried.classified]
  simp only [Bool.or_eq_true, flag_iff, Bool.and_eq_true, decide_eq_true_eq, or_assoc]
  refine or_congr Iff.rfl ?_
  constructor
  · rintro (⟨⟨hb, ht⟩, hp⟩ | ⟨⟨hb, ht⟩, hp⟩ | ⟨hb, hp⟩ | ⟨hb, ha⟩ | ⟨hb, ht⟩ | ⟨hb, hu⟩)
    · exact ⟨.http, hb, ht, (hasPort_iff (by decide)).mpr (hp.imp of_decide_eq_true of_decide_eq_true)⟩
    · exact ⟨.https, hb, ht, (hasPort_iff (by decide)).mpr (hp.imp of_decide_eq_true of_decide_eq_true)⟩
    · exact ⟨.dns, hb, (hasPort_iff (by decide)).mpr (hp.imp of_decide_eq_true of_decide_eq_true)⟩
    · exact ⟨.arp, hb, ha⟩
    · exact ⟨.tcp, hb, ht⟩
    · exact ⟨.udp, hb, hu⟩
  · rintro ⟨p, hb, hp⟩
    cases p with
    | http => exact .inl ⟨⟨hb, hp.1⟩, hp.2.2.imp decide_eq_true decide_eq_true⟩
    | https => exact .inr (.inl ⟨⟨hb, hp.1⟩, hp.2.2.imp decide_eq_true decide_eq_true⟩)
    | dns => exact .inr (.inr (.inl ⟨hb, hp.2.imp decide_eq_true decide_eq_true⟩))
    | arp => exact .inr (.inr (.inr (.inl ⟨hb, hp⟩)))
    | tcp => exact .inr (.inr (.inr (.inr (.inl ⟨hb, hp⟩))))
    | udp => exact .inr (.inr (.inr (.inr (.inr ⟨hb, hp⟩))))

/-- The handler does what the filter asks for if it displays what is
wanted. -/
theorem selects_iff : c.Selects filter f ↔ (f.displayed filter = true ↔ f.Wanted filter) := by
  unfold Capture.Selects
  cases hd : f.displayed filter with
  | true =>
      rw [Capture.handle_displayed hd]
      simp only [and_self, implies_true, true_and, true_iff]
      refine ⟨fun h => by_contra fun hw => absurd (h hw).1 (by omega), fun hw hn => absurd hw hn⟩
  | false =>
      rw [Capture.handle_suppressed hd]
      simp only [and_self, implies_true, and_true, Bool.false_eq_true, false_iff]
      refine ⟨fun h hw => absurd (h hw).1 (by omega), fun hn hw => absurd hw hn⟩

/-- A frame that carries nothing known belongs to no protocol. -/
theorem not_matches_unknown (p : Proto) :
    ¬ (⟨.unknown, .na, [], [], 0, 0⟩ : Carried).Matches p := by
  cases p <;> simp [Carried.Matches, Carried.hasPort]

end

/-- An LLDP frame of 60 bytes: no protocol of the filter. -/
def lldpFrame : Frame :=
  ⟨⟨0, 0, 60, 60⟩, fun o => if o = 12 then 0x88 else if o = 13 then 0xcc else 0⟩

theorem carried_lldpFrame : carried lldpFrame.mem = ⟨.unknown, .na, [], [], 0, 0⟩ := by
  decide +kernel

theorem headersFit_lldpFrame : lldpFrame.HeadersFit := ⟨by decide, nofun, nofun, nofun⟩

/-- **A filter is right for a frame exactly if its first character is '0' or
the frame is wanted**; so it is right for every frame exactly if its first
character is '0' or all six are '1'. -/
theorem filter_right_iff (filter : Filter) :
    (∀ (c : Capture) (f : Frame), c.Selects filter f ↔ filter 0 = '0' ∨ f.Wanted filter) ∧
    ((∀ (c : Capture) (f : Frame), f.HeadersFit → c.Selects filter f) ↔
      filter 0 = '0' ∨ filter.Full) := by
  have hone : ∀ (c : Capture) (f : Frame), c.Selects filter f ↔
      filter 0 = '0' ∨ f.Wanted filter := by
    intro c f
    rw [selects_iff, displayed_iff]
    by_cases h0 : filter 0 = '0'
    · -- a filter that begins with '0' is not the full one
      have hnot : ¬ filter.Full := fun h => absurd (h0.symm.trans (h 0)) (by decide)
      simp [h0, Frame.Wanted, hnot]
    · simp [h0]
  refine ⟨hone, fun h => ?_, fun h c f _ => ?_⟩
  · refine ((hone ⟨.init, 0, []⟩ lldpFrame).mp (h _ _ headersFit_lldpFrame)).imp_right ?_
    rintro (hfull | ⟨p, -, hp⟩)
    · exact hfull
    · rw [carried_lldpFrame] at hp
      exact absurd hp (not_matches_unknown p)
  · exact (hone c f).mpr (h.imp_right .inl)

/-- **HTTP only, and every frame is displayed.** The frame has all its
headers and belongs to no protocol of the filter; `pckt_handler` displays
it and counts it. -/
theorem http_filter_shows_all :
    lldpFrame.HeadersFit ∧
    ¬ lldpFrame.Wanted (fun i => if i = 0 then '1' else '0') ∧
    (Capture.handle (fun i => if i = 0 then '1' else '0') ⟨.init, 0, []⟩ lldpFrame).id = 1 ∧
    (Capture.handle (fun i => if i = 0 then '1' else '0') ⟨.init, 0, []⟩ lldpFrame).shown =
      [(1, lldpFrame)] := by
  have hd : lldpFrame.displayed (fun i => if i = 0 then '1' else '0') = true := by decide +kernel
  refine ⟨headersFit_lldpFrame, ?_, ?_, ?_⟩
  · rintro (h | ⟨p, -, hp⟩)
    · exact absurd (h 1) (by decide)
    · rw [carried_lldpFrame] at hp
      exact not_matches_unknown p hp
  · rw [Capture.handle_displayed hd]
  · rw [Capture.handle_displayed hd]
    rfl

end OsSuite.Sniffer
