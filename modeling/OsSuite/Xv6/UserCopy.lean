import OsSuite.Xv6.UserMem

/-!
# UserCopy — `copyin` and `copyout`

The kernel's own way to user memory. A page that is not mapped is
faulted in first, and then a whole part of it is copied at once.
-/

namespace OsSuite.Xv6

/-! ## A part of one page -/

/-- `memmove(page + off, l, n)` -/
def Page.patch (pg : Page) (off : Nat) (l : List UInt8) : Page := fun i =>
  if off ≤ i.val then (l[i.val - off]?).getD (pg i) else pg i

theorem Page.patch_nil (pg : Page) (off : Nat) : pg.patch off [] = pg := by
  funext i
  simp [Page.patch]

/-- The first byte, then the others. -/
theorem Page.patch_cons (pg : Page) (va : Nat) (b : UInt8) (l : List UInt8) :
    Page.patch (Function.update pg (pgoff va) b) (va % 4096 + 1) l = pg.patch (va % 4096) (b :: l) := by
  funext i
  simp only [Page.patch]
  by_cases he : i = pgoff va
  · -- the byte that is stored first
    have hi : i.val = va % 4096 := by rw [he]; rfl
    rw [if_neg (by omega), if_pos (by omega), he, Function.update_self,
      show (pgoff va).val - va % 4096 = 0 from Nat.sub_self _]
    rfl
  · have hi : i.val ≠ va % 4096 := fun hc => he (Fin.ext hc)
    rw [Function.update_of_ne he]
    by_cases hlt : va % 4096 ≤ i.val
    · rw [if_pos (by omega), if_pos hlt,
        show i.val - va % 4096 = (i.val - (va % 4096 + 1)) + 1 by omega, List.getElem?_cons_succ]
    · rw [if_neg (by omega), if_neg hlt]

/-! ## The page of an address -/

section
variable {root : Frame} {role : Frame → Role} {st : St}

theorem walkaddr_run (root : Frame) (va : Nat) (st : St) :
    onSys (walkaddr root va) st = .ret (userPa st.sys.mem root va) st [] := by
  have hrun : ends (onSys (walkaddr root va))
      (fun r st' w => r = userPa st.sys.mem root va ∧ st' = st ∧ w = []) (fun _ _ => False)
      (fun _ _ => False) st := ends_walkaddr ⟨rfl, rfl, rfl⟩
  unfold ends at hrun
  cases hx : onSys (walkaddr root va) st with
  | ret r st' w =>
      rw [hx] at hrun
      obtain ⟨rfl, rfl, rfl⟩ := hrun
      rfl
  | exit st' w => rw [hx] at hrun; exact hrun.elim
  | panic m w => rw [hx] at hrun; exact hrun.elim

/-- The lookup of a page that is there. -/
theorem userFrame_run {va : Nat} {pa : Frame} (hpa : userPa st.sys.mem root va = some pa) :
    userFrame root va st = .ret (some pa) st [] := by
  have hx := walkaddr_run root va st
  rw [hpa] at hx
  unfold userFrame
  rw [Prog.bind_ret hx]
  rfl

/-- The page of an address that was looked up. -/
theorem Own.img_of_userPa (h : Own root role st) {va0 : Nat} {pa : Frame}
    (hp : userPa st.sys.mem root va0 = some pa) :
    ∃ x, st.space.img (pgrounddown va0) = some x ∧ x.1.u = true ∧
      x.1 = (leaf st.sys.mem root va0).perm ∧ x.2 = (st.sys.mem pa).page ∧
      (leaf st.sys.mem root va0).pa = pa := by
  unfold userPa at hp
  split at hp
  · rename_i hc
    cases hp
    exact ⟨_, h.img_of_user hc.1 hc.2.1 hc.2.2, hc.2.2, rfl, rfl, rfl⟩
  · cases hp

end

end OsSuite.Xv6
