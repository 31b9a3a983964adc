import OsSuite.Sniffer.Bounds

/-!
# Session — the store of the last session

`pckt_handler` stores a frame at `my_data[*id]` BEFORE it knows whether the
frame will be displayed, and sets `p_index` to `*id` before the increment.
A frame that is suppressed is overwritten by the next one — if there is a
next one. The menu lists `my_data[0 .. p_index]`, both ends included.

So the listing is right exactly if the last frame of the session was
displayed, and the entries did not run out (`session_exact_iff`).
-/

namespace OsSuite.Sniffer

open Decode

def maxPackets : Nat := 10000

/-- `struct data`: the header and the captured bytes. -/
structure Data where
  hdr : PktHdr
  packet : List UInt8
  captured : packet.length = hdr.caplen.toNat
  deriving DecidableEq

/-- What `memcpy` makes of a frame. -/
def Frame.copy (f : Frame) : Data where
  hdr := f.hdr
  packet := (bytes 0 f.size).eval f.mem
  captured := by rw [eval_bytes, List.length_map, List.length_range', Frame.size]

/-- `p_index` and `my_data`. An entry that was never stored is zero. -/
structure Store where
  pIndex : Nat
  myData : Nat → Option Data

/-- What `Detailed_analysis` does. -/
inductive Detail where
  /-- `Invalid Input` -/
  | invalid
  | shows (req : Int) (d : Data)
  /-- It uses an entry that was never stored, or none of `my_data`. -/
  | stray
  deriving DecidableEq

namespace Store

def init : Store := ⟨0, fun _ => none⟩

/-- The entry with index `i`, if it is one of the `MAX_PACKETS+1`. -/
def entry (s : Store) (i : Int) : Option Data :=
  if 0 ≤ i ∧ i ≤ maxPackets then s.myData i.toNat else none

/-- The loop of `main` that prints the summaries, from `i` on, with `n`
entries to go. `none`: it uses an entry that was never stored. -/
def listFrom (s : Store) (i : Nat) : Nat → Option (List (Nat × Data))
  | 0 => some []
  | n + 1 =>
      match s.entry i with
      | none => none
      | some d => (s.listFrom (i + 1) n).map ((i + 1, d) :: ·)

/-- `Inspect Last Session`: the numbers and entries that are handed to
`print_packet_summary`. -/
def inspect (s : Store) : Option (List (Nat × Data)) := s.listFrom 0 (s.pIndex + 1)

def detailedAnalysis (s : Store) (req : Int) : Detail :=
  if req > s.pIndex + 1 then .invalid
  else
    match s.entry (req - 1) with
    | some d => .shows req d
    | none => .stray

end Store

/-- `pckt_handler` prints the frame. -/
def Frame.displayed (f : Frame) (filter : Filter) : Bool := filter.prints (classify.eval f.mem)

/-- A running capture: the store, the counter, and what has been printed
under which number. -/
structure Capture where
  store : Store
  id : Nat
  shown : List (Nat × Frame)

namespace Capture

/-- The store, once `pckt_handler` has kept the frame. -/
def keep (c : Capture) (f : Frame) : Store where
  pIndex := c.id
  myData :=
    if c.id < maxPackets then Function.update c.store.myData c.id (some f.copy)
    else c.store.myData

/-- What `pckt_handler` does to the store and the counter. -/
def handle (filter : Filter) (c : Capture) (f : Frame) : Capture :=
  match (pcktHandler filter f.hdr.caplen).eval f.mem with
  | none => { c with store := c.keep f }
  | some _ => { store := c.keep f, id := c.id + 1, shown := c.shown ++ [(c.id + 1, f)] }

/-- **The listing is right**: the frames that were displayed, as far as
there are entries, with their numbers, headers and bytes. -/
def Listed (c : Capture) : Prop :=
  c.store.inspect = some ((c.shown.take maxPackets).map fun p => (p.1, p.2.copy))

/-- The frame that was displayed under the number `req`, if it is one of
those that are kept. -/
def numbered (c : Capture) (req : Int) : Option Frame :=
  if 1 ≤ req then (c.shown.take maxPackets)[(req - 1).toNat]?.map Prod.snd else none

/-- **The detailed analysis is right**: it shows the frame with that
number, and rejects every other number. -/
def Answers (c : Capture) (req : Int) : Prop :=
  c.store.detailedAnalysis req =
    match c.numbered req with
    | some f => .shows req f.copy
    | none => .invalid

end Capture

/-- `Sniffing`, once the device is open. -/
def sniffing (filter : Filter) (frames : List Frame) (s : Store) : Capture :=
  frames.foldl (Capture.handle filter) ⟨s, 0, []⟩

/-! ## The listing loop -/

namespace Store

variable {s : Store} {i n : Nat} {l : List (Nat × Data)}

theorem length_of_listFrom (h : s.listFrom i n = some l) : l.length = n := by
  induction n generalizing i l with
  | zero =>
      cases h
      rfl
  | succ n ih =>
      unfold listFrom at h
      split at h
      · cases h
      · obtain ⟨rest, hrest, rfl⟩ := Option.map_eq_some_iff.mp h
        rw [List.length_cons, ih hrest]

theorem listFrom_eq (h : ∀ j p, l[j]? = some p →
    p.1 = i + j + 1 ∧ s.entry ((i + j : Nat) : Int) = some p.2) :
    s.listFrom i l.length = some l := by
  induction l generalizing i with
  | nil => rfl
  | cons p l ih =>
      obtain ⟨hnum, hentry⟩ := h 0 p rfl
      change s.entry (i : Int) = some p.2 at hentry
      have hrest := ih (i := i + 1) fun j q hq => by
        have := h (j + 1) q hq
        rwa [show i + (j + 1) = i + 1 + j by omega] at this
      rw [List.length_cons, listFrom, hentry]
      dsimp only
      rw [hrest, Option.map_some, ← Nat.add_zero i, ← hnum]

end Store

/-! ## One frame, one session -/

theorem displayed_eq (f : Frame) (filter : Filter) :
    ((pcktHandler filter f.hdr.caplen).eval f.mem).isSome = f.displayed filter := by
  unfold pcktHandler Frame.displayed
  rw [eval_bind]
  split
  · rename_i h
    rw [eval_bind, eval_bind, eval_pure, h]
    rfl
  · rename_i h
    rw [eval_pure, Bool.not_eq_true] at *
    rw [h]
    rfl

namespace Capture

variable {c : Capture} {filter : Filter} {f : Frame}

theorem handle_displayed (h : f.displayed filter = true) :
    c.handle filter f = ⟨c.keep f, c.id + 1, c.shown ++ [(c.id + 1, f)]⟩ := by
  rw [← displayed_eq, Option.isSome_iff_exists] at h
  obtain ⟨p, hp⟩ := h
  rw [handle, hp]

theorem handle_suppressed (h : f.displayed filter = false) :
    c.handle filter f = ⟨c.keep f, c.id, c.shown⟩ := by
  rw [← displayed_eq, Option.isSome_eq_false_iff, Option.isNone_iff_eq_none] at h
  rw [handle, h]

theorem entry_keep_self (h : c.id < maxPackets) : (c.keep f).entry c.id = some f.copy := by
  rw [Store.entry, if_pos ⟨by omega, by omega⟩, keep, if_pos h]
  exact Function.update_self ..

theorem entry_keep_of_ne {i : Nat} (h : i ≠ c.id) : (c.keep f).entry i = c.store.entry i := by
  unfold Store.entry
  split
  · unfold keep
    dsimp only
    split
    · exact Function.update_of_ne h _ _
    · rfl
  · rfl

end Capture

/-- What a session has done after the frames `fs`, from the store `s`. -/
structure Captured (filter : Filter) (s : Store) (fs : List Frame) (c : Capture) : Prop where
  id : c.id = fs.countP (·.displayed filter)
  shown : c.shown.length = c.id
  numbered : ∀ i p, c.shown[i]? = some p → p.1 = i + 1
  stored : ∀ i p, c.shown[i]? = some p → i < maxPackets → c.store.entry i = some p.2.copy
  pIndex : c.store.pIndex =
    if fs = [] then s.pIndex else fs.dropLast.countP (·.displayed filter)

section
variable {filter : Filter} {s : Store} {fs : List Frame} {c : Capture}

/-- A suppressed frame is kept behind those that were displayed. -/
theorem Captured.keep (h : Captured filter s fs c) (f : Frame) {i : Nat} {p : Nat × Frame}
    (hp : c.shown[i]? = some p) (hi : i < maxPackets) :
    (c.keep f).entry i = some p.2.copy := by
  have hlt : i < c.shown.length := (List.getElem?_eq_some_iff.mp hp).1
  rw [h.shown] at hlt
  rw [Capture.entry_keep_of_ne (by omega)]
  exact h.stored i p hp hi

/-- **One frame.** -/
theorem Captured.handle (h : Captured filter s fs c) (f : Frame) :
    Captured filter s (fs ++ [f]) (c.handle filter f) := by
  have hindex : c.id = if fs ++ [f] = [] then s.pIndex
      else (fs ++ [f]).dropLast.countP (·.displayed filter) := by
    rw [if_neg (List.append_ne_nil_of_right_ne_nil _ (List.cons_ne_nil f [])),
      List.dropLast_concat, h.id]
  cases hd : f.displayed filter with
  | false =>
      rw [Capture.handle_suppressed hd]
      refine ⟨?_, h.shown, h.numbered, fun i p => h.keep f, hindex⟩
      rw [List.countP_append, List.countP_singleton, hd, h.id]
      rfl
  | true =>
      rw [Capture.handle_displayed hd]
      have hlast : ∀ i p, (c.shown ++ [(c.id + 1, f)])[i]? = some p →
          c.shown[i]? = some p ∨ i = c.id ∧ p = (c.id + 1, f) := by
        intro i p hp
        rcases Nat.lt_trichotomy i c.shown.length with hlt | heq | hgt
        · rw [List.getElem?_append_left hlt] at hp
          exact .inl hp
        · rw [heq, List.getElem?_concat_length] at hp
          cases hp
          exact .inr ⟨heq.trans h.shown, rfl⟩
        · rw [List.getElem?_eq_none (by rw [List.length_append]; exact hgt)] at hp
          cases hp
      refine ⟨?_, ?_, fun i p hp => ?_, fun i p hp hi => ?_, hindex⟩
      · rw [List.countP_append, List.countP_singleton, hd, h.id]
        rfl
      · rw [List.length_append, h.shown]
        rfl
      · rcases hlast i p hp with hold | ⟨rfl, rfl⟩
        · exact h.numbered i p hold
        · rfl
      · rcases hlast i p hp with hold | ⟨rfl, rfl⟩
        · exact h.keep f hold hi
        · exact Capture.entry_keep_self hi

/-- **A whole session.** -/
theorem captured_sniffing (filter : Filter) (frames : List Frame) (s : Store) :
    Captured filter s frames (sniffing filter frames s) := by
  induction frames using List.reverseRecOn with
  | nil =>
      refine ⟨rfl, rfl, fun _ _ hp => ?_, fun _ _ hp => ?_, rfl⟩
      · cases hp
      · cases hp
  | append_singleton frames f ih =>
      unfold sniffing at ih ⊢
      rw [List.foldl_concat]
      exact ih.handle f

/-- `p_index` is the number of the last frame that was displayed, less one,
or one too many. -/
theorem Captured.id_le (h : Captured filter s fs c) : c.id ≤ c.store.pIndex + 1 := by
  rw [h.pIndex, h.id]
  cases fs using List.reverseRecOn with
  | nil => exact Nat.zero_le _
  | append_singleton fs f =>
      rw [if_neg (List.append_ne_nil_of_right_ne_nil _ (List.cons_ne_nil f [])),
        List.dropLast_concat, List.countP_append, List.countP_singleton]
      split <;> omega

/-- The listing is right if its length is. -/
theorem Captured.listed_iff (h : Captured filter s fs c) :
    c.Listed ↔ c.store.pIndex + 1 = c.id ∧ c.id ≤ maxPackets := by
  constructor
  · intro hl
    have hlen := Store.length_of_listFrom hl
    rw [List.length_map, List.length_take, h.shown] at hlen
    have hle := h.id_le
    omega
  · rintro ⟨hindex, hmax⟩
    unfold Capture.Listed Store.inspect
    rw [List.take_of_length_le (by rw [h.shown]; exact hmax), hindex, ← h.shown]
    rw [← List.length_map fun p : Nat × Frame => (p.1, p.2.copy)]
    refine Store.listFrom_eq fun j q hq => ?_
    rw [List.getElem?_map, Option.map_eq_some_iff] at hq
    obtain ⟨p, hp, rfl⟩ := hq
    have hj := (List.getElem?_eq_some_iff.mp hp).1
    rw [h.shown] at hj
    rw [Nat.zero_add]
    exact ⟨h.numbered j p hp, h.stored j p hp (by omega)⟩

/-- Where the listing is right, so is the detailed analysis, but for the
numbers below one. -/
theorem Captured.answers_iff (h : Captured filter s fs c) (hl : c.Listed) (req : Int) :
    c.Answers req ↔ 1 ≤ req := by
  obtain ⟨hindex, hmax⟩ := h.listed_iff.mp hl
  have htake : c.shown.take maxPackets = c.shown :=
    List.take_of_length_le (by rw [h.shown]; exact hmax)
  unfold Capture.Answers Store.detailedAnalysis Capture.numbered
  rw [htake]
  by_cases hreq : 1 ≤ req
  · refine iff_of_true ?_ hreq
    rw [if_pos hreq]
    by_cases hbig : req > c.store.pIndex + 1
    · rw [if_pos hbig, List.getElem?_eq_none (by rw [h.shown]; omega)]
      rfl
    · rw [if_neg hbig]
      have hlt : (req - 1).toNat < c.shown.length := by rw [h.shown]; omega
      have hp : c.shown[(req - 1).toNat]? = some c.shown[(req - 1).toNat] :=
        List.getElem?_eq_getElem hlt
      have hentry := h.stored _ _ hp (by rw [h.shown] at hlt; omega)
      rw [Int.toNat_of_nonneg (by omega)] at hentry
      rw [hentry, hp]
      rfl
  · refine iff_of_false ?_ hreq
    -- an index below zero
    have hentry : c.store.entry (req - 1) = none := if_neg fun hi => by omega
    rw [if_neg hreq, if_neg (by omega), hentry]
    nofun

/-- The last frame of the session was displayed. -/
theorem Captured.pIndex_iff (h : Captured filter s fs c) :
    c.store.pIndex + 1 = c.id ↔ ∃ f, fs.getLast? = some f ∧ f.displayed filter = true := by
  rw [h.pIndex, h.id]
  cases fs using List.reverseRecOn with
  | nil => simp
  | append_singleton fs f =>
      rw [if_neg (List.append_ne_nil_of_right_ne_nil _ (List.cons_ne_nil f [])),
        List.dropLast_concat, List.countP_append, List.countP_singleton, List.getLast?_concat]
      cases hd : f.displayed filter <;> simp [hd]

end

/-- **The last session is kept and shown exactly** if and only if its last
frame was displayed, no more frames were displayed than there are entries,
and a positive number is asked for. The earlier sessions do not matter. -/
theorem session_exact_iff (s : Store) (filter : Filter) (frames : List Frame) (req : Int) :
    ((sniffing filter frames s).Listed ∧ (sniffing filter frames s).Answers req) ↔
      (∃ f, frames.getLast? = some f ∧ f.displayed filter = true) ∧
        frames.countP (·.displayed filter) ≤ maxPackets ∧ 1 ≤ req := by
  have h := captured_sniffing filter frames s
  rw [← h.pIndex_iff, ← h.id]
  constructor
  · rintro ⟨hl, ha⟩
    obtain ⟨hindex, hmax⟩ := h.listed_iff.mp hl
    exact ⟨hindex, hmax, (h.answers_iff hl req).mp ha⟩
  · rintro ⟨hindex, hmax, hreq⟩
    have hl := h.listed_iff.mpr ⟨hindex, hmax⟩
    exact ⟨hl, (h.answers_iff hl req).mpr hreq⟩

/-- **A suppressed frame is listed.** The filter is `011111` and the only
frame captured is neither ARP nor IP. -/
theorem suppressed_listed : ∃ (filter : Filter) (f : Frame),
    (sniffing filter [f] Store.init).shown = [] ∧
      (sniffing filter [f] Store.init).store.inspect = some [(1, f.copy)] ∧
      ¬ (sniffing filter [f] Store.init).Listed := by
  let filter : Filter := fun i => if i = 0 then '0' else '1'
  let f : Frame := ⟨⟨0, 0, 14, 14⟩, fun _ => 0⟩
  have hd : f.displayed filter = false := by decide +kernel
  have hrun : sniffing filter [f] Store.init =
      ⟨(⟨Store.init, 0, []⟩ : Capture).keep f, 0, []⟩ := Capture.handle_suppressed hd
  have hentry : ((⟨Store.init, 0, []⟩ : Capture).keep f).entry (0 : Nat) = some f.copy :=
    Capture.entry_keep_self (c := ⟨Store.init, 0, []⟩) (by decide)
  have hlist : (sniffing filter [f] Store.init).store.inspect = some [(1, f.copy)] := by
    rw [hrun]
    unfold Store.inspect
    exact Store.listFrom_eq (l := [(1, f.copy)]) fun j p hp => by
      cases j with
      | zero =>
          cases hp
          exact ⟨rfl, hentry⟩
      | succ j => cases hp
  refine ⟨filter, f, by rw [hrun], hlist, fun hl => ?_⟩
  unfold Capture.Listed at hl
  rw [hlist, hrun] at hl
  cases hl

end OsSuite.Sniffer
