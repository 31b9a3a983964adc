import OsSuite.Xv6.PageTable

/-!
# PageTree — the tables of an address space as a tree

A table page hangs at a `Spot`: the root, below an entry of the root, or
below an entry of such a table. `TableTree m root` says that no table page
hangs at two spots. That is all that is needed to read the tables as a
MAP from pages to entries: a new, empty table page changes no entry
(`TableTree.leaf_link`) and a write to one entry changes the entry of one page
(`TableTree.leaf_write`).
-/

namespace OsSuite.Xv6

/-- Where a table page hangs: the path of indices from the root. -/
inductive Spot where
  | top
  | mid (i : Nat)
  | low (i j : Nat)
  deriving DecidableEq

/-- The spot below entry `i` of the table at a spot; below the last level
there are no tables. -/
def Spot.child : Spot → Nat → Option Spot
  | .top, i => some (.mid i)
  | .mid i, j => some (.low i j)
  | .low _ _, _ => none

/-- The table page that entry `i` of the table page `t` points to. -/
def child (m : Mem) (t : Frame) (i : Nat) : Option Frame :=
  if i < 512 ∧ ((m t).pte i).v = true then some ((m t).pte i).pa else none

/-- The table page at a spot. -/
def tableAt (m : Mem) (root : Frame) : Spot → Option Frame
  | .top => some root
  | .mid i => child m root i
  | .low i j => (child m root i).bind fun t => child m t j

/-- **No table page is reached twice.** -/
def TableTree (m : Mem) (root : Frame) : Prop :=
  ∀ p q f, tableAt m root p = some f → tableAt m root q = some f → p = q

section
variable {m m' : Mem} {root t f : Frame} {va i : Nat} {p q : Spot}

theorem child_congr (h : m' t = m t) (i : Nat) : child m' t i = child m t i := by
  unfold child
  rw [h]

theorem tableAt_child (hp : tableAt m root p = some t) (hq : p.child i = some q) :
    tableAt m root q = child m t i := by
  cases p with
  | top =>
      cases hp
      cases hq
      rfl
  | mid j =>
      cases hq
      show (child m root j).bind _ = _
      rw [show child m root j = some t from hp]
      rfl
  | low j k => cases hq

/-- The tables on the way down decide what hangs where. -/
theorem tableAt_congr (h : ∀ p t, p.child 0 ≠ none → tableAt m root p = some t → m' t = m t)
    (q : Spot) : tableAt m' root q = tableAt m root q := by
  have h0 : m' root = m root := h .top root (by simp [Spot.child]) rfl
  cases q with
  | top => rfl
  | mid i => exact child_congr h0 i
  | low i j =>
      show (child m' root i).bind _ = (child m root i).bind _
      rw [child_congr h0]
      cases hc : child m root i with
      | none => rfl
      | some t => exact child_congr (h (.mid i) t (by simp [Spot.child]) hc) j

/-- The hardware's walk ends in the table at the spot of its upper
indices. -/
theorem leafAddr_eq (m : Mem) (root : Frame) (va : Nat) :
    leafAddr m root va = (tableAt m root (.low (px 2 va) (px 1 va))).map (·, px 0 va) := by
  unfold leafAddr tableAt child
  simp only [px_lt, true_and]
  split
  · rename_i h2
    simp only [Option.bind_some]
    split <;> rfl
  · rfl

theorem leafAddr_eq_some {pt : Frame} :
    leafAddr m root va = some (pt, i) ↔
      tableAt m root (.low (px 2 va) (px 1 va)) = some pt ∧ i = px 0 va := by
  rw [leafAddr_eq, Option.map_eq_some_iff]
  constructor
  · rintro ⟨t, ht, he⟩
    cases he
    exact ⟨ht, rfl⟩
  · rintro ⟨ht, rfl⟩
    exact ⟨pt, ht, rfl⟩

/-- The entry for `va`, read from the table at its spot. -/
theorem leaf_eq (m : Mem) (root : Frame) (va : Nat) :
    leaf m root va = match tableAt m root (.low (px 2 va) (px 1 va)) with
      | some pt => (m pt).pte (px 0 va)
      | none => Pte.zero := by
  unfold leaf
  rw [leafAddr_eq]
  cases tableAt m root (.low (px 2 va) (px 1 va)) <;> rfl

/-- Memory that agrees on the tables gives the same entries. -/
theorem leaf_congr (h : ∀ p t, tableAt m root p = some t → m' t = m t) (va : Nat) :
    leaf m' root va = leaf m root va := by
  rw [leaf_eq, leaf_eq, tableAt_congr fun p t _ => h p t]
  cases hc : tableAt m root (.low (px 2 va) (px 1 va)) with
  | none => rfl
  | some pt => simp only [h _ _ hc]

theorem TableTree.congr (ht : TableTree m root)
    (h : ∀ p t, p.child 0 ≠ none → tableAt m root p = some t → m' t = m t) : TableTree m' root := by
  intro p q f hp hq
  rw [tableAt_congr h] at hp hq
  exact ht p q f hp hq

/-! ## Writing an entry -/

/-- A write to a last-level table leaves the tree as it is. -/
theorem TableTree.above (ht : TableTree m root) (hf : tableAt m root (.low i j) = some f) (c : Cell) :
    ∀ p t, p.child 0 ≠ none → tableAt m root p = some t → Function.update m f c t = m t := by
  intro p t hp htab
  refine Function.update_of_ne ?_ _ _
  rintro rfl
  rw [ht _ _ _ htab hf] at hp
  exact hp rfl

theorem TableTree.tableAt_write (ht : TableTree m root) (hf : tableAt m root (.low i j) = some f) (c : Cell)
    (q : Spot) : tableAt (Function.update m f c) root q = tableAt m root q :=
  tableAt_congr (ht.above hf c) q

theorem TableTree.write (ht : TableTree m root) (hf : tableAt m root (.low i j) = some f) (c : Cell) :
    TableTree (Function.update m f c) root := ht.congr (ht.above hf c)

/-- **Writing one entry changes one translation.** -/
theorem TableTree.leaf_write (ht : TableTree m root) (hal : va % 4096 = 0) (hva : va < maxva)
    (hf : tableAt m root (.low (px 2 va) (px 1 va)) = some f) (e : Pte) {a : Nat}
    (hala : a % 4096 = 0) (ha : a < maxva) :
    leaf (Function.update m f ((m f).setPte (px 0 va) e)) root a =
      if a = va then e else leaf m root a := by
  rw [leaf_eq, leaf_eq, ht.tableAt_write hf]
  by_cases hne : a = va
  · subst hne
    simp [hf]
  · rw [if_neg hne]
    cases ha' : tableAt m root (.low (px 2 a) (px 1 a)) with
    | none => rfl
    | some g =>
        dsimp only
        by_cases hg : g = f
        · -- the same table: the upper indices agree, so the last one differs
          subst hg
          have hs := ht _ _ _ ha' hf
          simp only [Spot.low.injEq] at hs
          have h0 : px 0 a ≠ px 0 va := fun h0 =>
            hne (eq_of_px_eq hala hal ha hva h0 hs.2 hs.1)
          rw [Function.update_self, Cell.pte_setPte, if_neg h0]
        · rw [Function.update_of_ne hg]

/-! ## Adding a table page -/

/-- The zeroed page `f`, entered at index `i` of the table `pt`. -/
def linkTable (m : Mem) (pt : Frame) (i : Nat) (f : Frame) : Mem :=
  Function.update (Function.update m f (Cell.fill 0)) pt ((m pt).setPte i (Pte.table f))

theorem linkTable_self (m : Mem) (pt : Frame) (i : Nat) (f : Frame) :
    linkTable m pt i f pt = (m pt).setPte i (Pte.table f) := Function.update_self ..

theorem linkTable_new {m : Mem} {pt : Frame} {i : Nat} {f : Frame} (h : f ≠ pt) :
    linkTable m pt i f f = Cell.fill 0 := by
  rw [linkTable, Function.update_of_ne h, Function.update_self]

theorem linkTable_other {m : Mem} {pt : Frame} {i : Nat} {f g : Frame} (h : g ≠ pt)
    (h' : g ≠ f) : linkTable m pt i f g = m g := by
  rw [linkTable, Function.update_of_ne h, Function.update_of_ne h']

/-- The page `f` hangs nowhere. -/
def Unlinked (m : Mem) (root f : Frame) : Prop := ∀ p, tableAt m root p ≠ some f

/-- What hangs below the table pages once `f` is linked. -/
theorem child_link (hne : f ≠ t) (hi : i < 512) (u : Frame) (k : Nat) :
    child (linkTable m t i f) u k =
      if u = t ∧ k = i then some f else if u = f then none else child m u k := by
  by_cases hu : u = t
  · subst hu
    unfold child
    rw [linkTable_self, Cell.pte_setPte, if_neg hne.symm]
    by_cases hk : k = i
    · simp [hk, hi]
    · simp [hk]
  · rw [if_neg fun hc => hu hc.1]
    by_cases huf : u = f
    · subst huf
      unfold child
      simp [linkTable_new hu]
    · rw [if_neg huf, child_congr (linkTable_other hu huf)]

theorem Spot.child_inj {r : Spot} {k : Nat} (hr : r.child k = some q) (hq : p.child i = some q) :
    r = p ∧ k = i := by
  cases r <;> cases p <;> cases hr <;> cases hq <;> exact ⟨rfl, rfl⟩

/-- The same at the table pages that hang in the tree. -/
theorem TableTree.child_link (ht : TableTree m root) (hun : Unlinked m root f) (hi : i < 512)
    (hp : tableAt m root p = some t) (hq : p.child i = some q) {r : Spot} {u : Frame}
    (hr : tableAt m root r = some u) {k : Nat} {r' : Spot} (hk : r.child k = some r') :
    child (linkTable m t i f) u k = if r' = q then some f else child m u k := by
  have hne : f ≠ t := fun he => hun p (he ▸ hp)
  have huf : u ≠ f := fun he => hun r (he ▸ hr)
  rw [Xv6.child_link hne hi, if_neg huf]
  refine if_congr ⟨?_, ?_⟩ rfl rfl
  · rintro ⟨rfl, rfl⟩
    obtain rfl := ht _ _ _ hr hp
    exact Option.some.inj (hk.symm.trans hq)
  · rintro rfl
    obtain ⟨rfl, rfl⟩ := Spot.child_inj hk hq
    exact ⟨Option.some.inj (hr.symm.trans hp), rfl⟩

/-- **A new table page hangs at one new spot.** -/
theorem TableTree.tableAt_link (ht : TableTree m root) (hun : Unlinked m root f) (hi : i < 512)
    (hp : tableAt m root p = some t) (hq : p.child i = some q) (hv : child m t i = none)
    (r : Spot) : tableAt (linkTable m t i f) root r = if r = q then some f else tableAt m root r := by
  have hne : f ≠ t := fun he => hun p (he ▸ hp)
  cases r with
  | top => cases p <;> cases hq <;> rfl
  | mid k => exact ht.child_link hun hi hp hq (r := .top) rfl rfl
  | low k l =>
      show (child _ root k).bind _ = if _ then _ else (child m root k).bind _
      rw [ht.child_link hun hi hp hq (r := .top) (u := root) rfl rfl]
      by_cases hk : Spot.mid k = q
      · -- the table above is the new one, which is empty; there was none before
        subst hk
        have hold : child m root k = none := by
          rw [← tableAt_child hp hq] at hv
          exact hv
        rw [if_pos rfl, if_neg (by exact nofun), hold]
        show child (linkTable m t i f) f l = none
        rw [Xv6.child_link hne hi, if_neg fun hc => hne hc.1, if_pos rfl]
      · rw [if_neg hk]
        cases hc : child m root k with
        | none =>
            have : Spot.low k l ≠ q := by
              rintro rfl
              obtain ⟨rfl, rfl⟩ := Spot.child_inj (r := .mid k) rfl hq
              rw [show tableAt m root (.mid k) = none from hc] at hp
              cases hp
            rw [if_neg this]
            rfl
        | some u => exact ht.child_link hun hi hp hq (r := .mid k) hc rfl

theorem TableTree.link (ht : TableTree m root) (hun : Unlinked m root f) (hi : i < 512)
    (hp : tableAt m root p = some t) (hq : p.child i = some q) (hv : child m t i = none) :
    TableTree (linkTable m t i f) root := by
  intro a b g ha hb
  rw [ht.tableAt_link hun hi hp hq hv] at ha hb
  split at ha <;> split at hb
  · rename_i h1 h2
    rw [h1, h2]
  · cases ha
    exact absurd hb (hun b)
  · cases hb
    exact absurd ha (hun a)
  · exact ht a b g ha hb

/-- **A new table page changes no entry.** -/
theorem TableTree.leaf_link (ht : TableTree m root) (hun : Unlinked m root f) (hi : i < 512)
    (hp : tableAt m root p = some t) (hq : p.child i = some q) (hv : child m t i = none) (va : Nat) :
    leaf (linkTable m t i f) root va = leaf m root va := by
  have hne : f ≠ t := fun he => hun p (he ▸ hp)
  rw [leaf_eq, leaf_eq, ht.tableAt_link hun hi hp hq hv]
  by_cases h : Spot.low (px 2 va) (px 1 va) = q
  · have hnone : tableAt m root q = none := by rw [tableAt_child hp hq, hv]
    simp only [h, hnone, if_true, linkTable_new hne, Cell.pte_fill_zero]
  · rw [if_neg h]
    cases hg : tableAt m root (.low (px 2 va) (px 1 va)) with
    | none => rfl
    | some g =>
        have hgt : g ≠ t := by
          rintro rfl
          rw [← ht _ _ _ hg hp] at hq
          cases hq
        simp only [linkTable_other hgt fun he => hun _ (he ▸ hg)]

end

end OsSuite.Xv6
