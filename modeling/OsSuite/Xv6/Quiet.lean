import OsSuite.Lib.Trace
import OsSuite.Xv6.Exec

/-!
# Quiet — page-table code leaves the files alone

Whatever state it is called in, the allocator and page-table code of
`vm.c` observes nothing and changes neither a file nor the layout of the
machine. No ownership is needed for this, so it also holds of a machine
whose page tables are damaged.
-/

namespace OsSuite.Xv6

/-- Nothing is observed, nothing changes but memory and the allocator,
and the process goes on. -/
def quiet : Link Sys Event where
  ret s w s' := w = [] ∧ SameConf s s'
  exit _ _ _ := False
  panic _ _ w := w = []

theorem quiet_composes : Composes quiet where
  refl s := ⟨rfl, .refl s⟩
  trans h h' := ⟨by rw [h.1, h'.1]; rfl, h.2.trans h'.2⟩
  exit _ h := h
  panic h h' := by rw [h.1]; exact h'

theorem quiet_pure {α : Type} (a : α) : Respects quiet (pure a : Prog Sys Event α) :=
  .pure quiet_composes a

theorem quiet_panic {α : Type} (m : String) : Respects quiet (Prog.panic m : Prog Sys Event α) :=
  .panic fun _ => rfl

theorem quiet_bind {α β : Type} {x : Prog Sys Event α} {f : α → Prog Sys Event β}
    (hx : Respects quiet x) (hf : ∀ a, Respects quiet (f a)) : Respects quiet (x >>= f) :=
  .bind quiet_composes hx hf

theorem quiet_setCell (g : Sys → Frame × Cell) :
    Respects quiet (Prog.modify fun s => s.setCell (g s).1 (g s).2 : Prog Sys Event Unit) :=
  .modify fun _ => ⟨rfl, .setCell _ _ _⟩

/-! ## The allocator -/

theorem intf_conf (s : Sys) (a : Intf) : SameConf s (s.intf a) := by
  unfold Sys.intf
  split
  · split
    · exact .refl s
    · exact ⟨rfl, rfl, rfl, rfl⟩
  · split
    · exact .refl s
    · exact ⟨rfl, rfl, rfl, rfl⟩

theorem intfs_conf (g : List Intf) (s : Sys) : SameConf s (g.foldl Sys.intf s) := by
  induction g generalizing s with
  | nil => exact .refl s
  | cons a g ih => exact (intf_conf s a).trans (ih _)

theorem others_conf (s : Sys) : SameConf s s.others := by
  unfold Sys.others
  split
  · exact .refl s
  · exact ⟨(intfs_conf _ _).kend, (intfs_conf _ _).tramp, (intfs_conf _ _).stack,
      (intfs_conf _ _).fs⟩

theorem quiet_kalloc : Respects quiet kalloc := by
  intro s
  unfold ends kalloc
  dsimp only
  split
  · exact ⟨rfl, others_conf s⟩
  · exact ⟨rfl, (others_conf s).trans ⟨rfl, rfl, rfl, rfl⟩⟩

theorem quiet_kfree (f : Frame) : Respects quiet (kfree f) := by
  intro s
  unfold ends kfree
  split
  · trivial
  · exact ⟨rfl, rfl, rfl, rfl, rfl⟩

theorem quiet_zeroFrame (f : Frame) : Respects quiet (zeroFrame f) :=
  quiet_setCell fun _ => (f, Cell.fill 0)

theorem quiet_fillFrame (f : Frame) (b : Page) : Respects quiet (fillFrame f b) :=
  quiet_setCell fun _ => (f, .bytes b)

theorem quiet_setByte (f : Frame) (off : Fin 4096) (b : UInt8) :
    Respects quiet (setByte f off b) :=
  quiet_setCell fun s => (f, .bytes (Function.update (s.mem f).page off b))

theorem quiet_storeBytes (pa : Frame) (off : Nat) (src : List UInt8) :
    Respects quiet (storeBytes pa off src) :=
  quiet_setCell fun s => (pa, .bytes fun i =>
    if off ≤ i.val then (src[i.val - off]?).getD ((s.mem pa).page i) else (s.mem pa).page i)

theorem quiet_readPte (pt : Frame) (i : Nat) : Respects quiet (readPte pt i) := by
  intro s
  unfold ends readPte
  exact ⟨rfl, .refl s⟩

theorem quiet_writePte (pt : Frame) (i : Nat) (e : Pte) : Respects quiet (writePte pt i e) :=
  quiet_setCell fun s => (pt, (s.mem pt).setPte i e)

/-! ## Page tables -/

theorem quiet_walk (root : Frame) (va : Nat) (alloc : Bool) :
    Respects quiet (walk root va alloc) := by
  have hfrom : ∀ level pt, Respects quiet (walkFrom va alloc level pt) := by
    intro level
    induction level with
    | zero => exact fun pt => quiet_pure _
    | succ level ih =>
        intro pt
        refine quiet_bind (quiet_readPte _ _) fun pte => .ite (ih _) (.ite (quiet_pure _) ?_)
        refine quiet_bind quiet_kalloc fun r => ?_
        cases r with
        | none => exact quiet_pure _
        | some f =>
            exact quiet_bind (quiet_zeroFrame f) fun _ => quiet_bind (quiet_writePte _ _ _)
              fun _ => ih _
  exact .ite (quiet_panic _) (hfrom _ _)

theorem quiet_minorFault (root : Frame) (acc : Access) (va : Nat) :
    Respects quiet (minorFault root acc va) := by
  refine quiet_bind (quiet_walk _ _ _) fun r => ?_
  split
  · exact quiet_pure _
  · exact quiet_bind (quiet_readPte _ _) fun _ => quiet_pure _

theorem quiet_walkaddr (root : Frame) (va : Nat) : Respects quiet (walkaddr root va) := by
  refine .ite (quiet_pure _) (quiet_bind (quiet_walk _ _ _) fun r => ?_)
  cases r with
  | none => exact quiet_pure _
  | some x =>
      exact quiet_bind (quiet_readPte _ _) fun pte =>
        .ite (quiet_pure _) (.ite (quiet_pure _) (quiet_pure _))

theorem quiet_mappages (root : Frame) (va size : Nat) (pa : Frame) (perm : Perm) :
    Respects quiet (mappages root va size pa perm) := by
  have hloop : ∀ n a pa, Respects quiet (mapLoop root perm n a pa) := by
    intro n
    induction n with
    | zero => exact fun _ _ => quiet_pure _
    | succ n ih =>
        intro a pa
        refine quiet_bind (quiet_walk _ _ _) fun r => ?_
        cases r with
        | none => exact quiet_pure _
        | some x =>
            exact quiet_bind (quiet_readPte _ _) fun pte => .ite (quiet_pure _)
              (quiet_bind (quiet_writePte _ _ _) fun _ => ih _ _)
  exact .ite (quiet_panic _) (.ite (quiet_panic _) (.ite (quiet_panic _) (hloop _ _ _)))

theorem quiet_mapOrFree (root : Frame) (va : Nat) (f : Frame) (perm : Perm) :
    Respects quiet (mapOrFree root va f perm) :=
  quiet_bind (quiet_mappages _ _ _ _ _) fun _ =>
    .ite (quiet_bind (quiet_kfree _) fun _ => quiet_pure _) (quiet_pure _)

theorem quiet_uvmunmap (root : Frame) (va n : Nat) (doFree : Bool) :
    Respects quiet (uvmunmap root va n doFree) := by
  have hloop : ∀ n a, Respects quiet (unmapLoop root doFree n a) := by
    intro n
    induction n with
    | zero => exact fun _ => quiet_pure _
    | succ n ih =>
        intro a
        refine quiet_bind (quiet_walk _ _ _) fun r => ?_
        cases r with
        | none => exact ih _
        | some x =>
            exact quiet_bind (quiet_readPte _ _) fun pte => .ite (ih _)
              (.ite (quiet_bind (quiet_kfree _) fun _ => quiet_bind (quiet_writePte _ _ _)
                fun _ => ih _) (quiet_bind (quiet_writePte _ _ _) fun _ => ih _))
  exact .ite (quiet_panic _) (hloop _ _)

theorem quiet_uvmdealloc (root : Frame) (oldsz newsz : Nat) :
    Respects quiet (uvmdealloc root oldsz newsz) :=
  .ite (quiet_pure _) (.ite (quiet_bind (quiet_uvmunmap _ _ _ _) fun _ => quiet_pure _)
    (quiet_pure _))

theorem quiet_uvmalloc (root : Frame) (oldsz newsz : Nat) (perm : Perm) :
    Respects quiet (uvmalloc root oldsz newsz perm) := by
  have hloop : ∀ n a, Respects quiet (allocLoop root (pgroundup oldsz) newsz perm n a) := by
    intro n
    induction n with
    | zero => exact fun _ => quiet_pure _
    | succ n ih =>
        intro a
        have hfail : Respects quiet (do
            let _ ← uvmdealloc root a (pgroundup oldsz)
            pure 0) := quiet_bind (quiet_uvmdealloc _ _ _) fun _ => quiet_pure _
        refine quiet_bind quiet_kalloc fun r => ?_
        cases r with
        | none => exact hfail
        | some f =>
            exact quiet_bind (quiet_zeroFrame _) fun _ => quiet_bind (quiet_mapOrFree _ _ _ _)
              fun _ => .ite (ih _) hfail
  exact .ite (quiet_pure _) (hloop _ _)

theorem quiet_freewalk (fuel : Nat) (pt : Frame) : Respects quiet (freewalk fuel pt) := by
  induction fuel generalizing pt with
  | zero => exact quiet_panic _
  | succ fuel ih =>
      refine quiet_bind (.upTo quiet_composes (fun i => ?_) 512) fun _ => quiet_kfree _
      exact quiet_bind (quiet_readPte _ _) fun pte =>
        .ite (quiet_bind (ih _) fun _ => quiet_writePte _ _ _) (quiet_pure _)

theorem quiet_uvmfree (root : Frame) (sz : Nat) : Respects quiet (uvmfree root sz) :=
  .ite (quiet_bind (quiet_uvmunmap _ _ _ _) fun _ => quiet_freewalk _ _) (quiet_freewalk _ _)

theorem quiet_uvmcopy (old new : Frame) (sz : Nat) : Respects quiet (uvmcopy old new sz) := by
  have hloop : ∀ n i, Respects quiet (copyLoop old new n i) := by
    intro n
    induction n with
    | zero => exact fun _ => quiet_pure _
    | succ n ih =>
        intro i
        have hfail : Respects quiet (copyFail new i) :=
          quiet_bind (quiet_uvmunmap _ _ _ _) fun _ => quiet_pure _
        refine quiet_bind (quiet_walk _ _ _) fun r => ?_
        cases r with
        | none => exact ih _
        | some x =>
            refine quiet_bind (quiet_readPte _ _) fun pte => .ite (ih _) ?_
            refine quiet_bind quiet_kalloc fun r => ?_
            cases r with
            | none => exact hfail
            | some f =>
                exact quiet_bind (quiet_setCell fun s => (f, .bytes (s.mem pte.pa).page))
                  fun _ => quiet_bind (quiet_mapOrFree _ _ _ _) fun _ => .ite (ih _) hfail
  exact hloop _ _

theorem quiet_uvmclear (root : Frame) (va : Nat) : Respects quiet (uvmclear root va) := by
  refine quiet_bind (quiet_walk _ _ _) fun r => ?_
  cases r with
  | none => exact quiet_panic _
  | some x => exact quiet_bind (quiet_readPte _ _) fun _ => quiet_writePte _ _ _

theorem quiet_ulazymalloc (root : Frame) (vaStart vaEnd : Nat) (perm : Perm) :
    Respects quiet (ulazymalloc root vaStart vaEnd perm) := by
  have hloop : ∀ n a, Respects quiet (lazyLoop root perm n a) := by
    intro n
    induction n with
    | zero => exact fun _ => quiet_pure _
    | succ n ih =>
        intro a
        refine quiet_bind (quiet_walk _ _ _) fun r => ?_
        cases r with
        | none => exact quiet_pure _
        | some x => exact quiet_bind (quiet_writePte _ _ _) fun _ => ih _
  exact .ite (quiet_pure _) (quiet_bind (hloop _ _) fun _ => .ite (quiet_pure _) (quiet_pure _))

theorem quiet_procPagetable (tf : Frame) : Respects quiet (procPagetable tf) := by
  have hcreate : Respects quiet uvmcreate := by
    refine quiet_bind quiet_kalloc fun r => ?_
    cases r with
    | none => exact quiet_pure _
    | some f => exact quiet_bind (quiet_zeroFrame _) fun _ => quiet_pure _
  refine quiet_bind hcreate fun r => ?_
  cases r with
  | none => exact quiet_pure _
  | some root =>
      refine quiet_bind (.get quiet_composes) fun s => quiet_bind (quiet_mappages _ _ _ _ _)
        fun r => .ite (quiet_bind (quiet_uvmfree _ _) fun _ => quiet_pure _) ?_
      exact quiet_bind (quiet_mappages _ _ _ _ _) fun r =>
        .ite (quiet_bind (quiet_uvmunmap _ _ _ _) fun _ => quiet_bind (quiet_uvmfree _ _)
          fun _ => quiet_pure _) (quiet_pure _)

theorem quiet_procFreepagetable (root : Frame) (sz : Nat) :
    Respects quiet (procFreepagetable root sz) :=
  quiet_bind (quiet_uvmunmap _ _ _ _) fun _ => quiet_bind (quiet_uvmunmap _ _ _ _)
    fun _ => quiet_uvmfree _ _

theorem quiet_loadHeaders (root : Frame) (ip : Inode) (n off sz : Nat) :
    Respects quiet (loadHeaders root ip n off sz) := by
  induction n generalizing off sz with
  | zero => exact quiet_pure _
  | succ n ih =>
      exact .ite (quiet_pure _) (.ite (ih _ _) (.ite (quiet_pure _) (.ite (quiet_pure _)
        (.ite (quiet_pure _) (quiet_bind (quiet_ulazymalloc _ _ _ _) fun _ =>
          .ite (quiet_pure _) (ih _ _))))))

end OsSuite.Xv6
