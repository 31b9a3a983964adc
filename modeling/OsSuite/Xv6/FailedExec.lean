import OsSuite.Xv6.ExecSpec
import OsSuite.Xv6.Run

/-!
# FailedExec — what a `kexec` that fails leaves behind

`kexec` has a commit point, and writes to `struct proc` before it:
`swap_file` first of all, `exec_ip` and the headers once the header loop
is through, `heap_start` next. None of it is taken back. `Intact st st'`
is what the caller of a failed `kexec` would like to find, and
`failed_exec_intact_iff` says when it finds it. The memory of the caller
is safe in any case: the new table is built from free frames, and given
back.
-/

namespace OsSuite.Xv6

/-- Memory in use and the files are as in `s₀`. -/
structure Elsewhere (s₀ s : Sys) : Prop where
  mem : ∀ f, f ∉ s₀.pool → s.mem f = s₀.mem f
  fs : s.fs = s₀.fs

section
variable {s₀ s : Sys} {st : St}

/-- Frames that are not the allocator's belong to the kernel. -/
theorem GaveBack.elsewhere (h : GaveBack s₀.roles s₀ s) : Elsewhere s₀ s := by
  obtain ⟨role', -, hconf, hothers⟩ := h
  refine ⟨fun f hf => ?_, hconf.fs⟩
  rw [Sys.pool, List.mem_append, not_or] at hf
  have hrole : s₀.roles f = .kernel := by rw [Sys.roles, if_neg hf.1, if_neg hf.2]
  exact (hothers.busy f (by rw [hrole]; rfl) fun _ _ hc => by rw [hrole] at hc; cases hc).2

/-- What is left when `kexec` fails with the executable `exe`, whose inode
is `ip`. -/
theorem Execed.failed {exe : Nat} {ip : Inode} {st' : St}
    (h : Execed st.sys.roles st exe ip (-1) st') :
    Elsewhere st.sys st'.sys ∧ (Opens st.sys ip → st'.p = st.p.opened exe ip) ∧
      (¬ Opens st.sys ip → st'.p = st.p) := by
  rcases h with ⟨ho, ⟨-, hp, hback⟩ | ⟨root, role₁, s₁, sz, entry, sp, w, -, -, -, hr, -⟩⟩ |
    ⟨hno, -, hp, hback⟩
  · exact ⟨hback.elsewhere, fun _ => hp, fun hc => absurd ho hc⟩
  · omega
  · exact ⟨hback.elsewhere, fun hc => absurd hc hno, fun _ => hp⟩

/-- The process has the executable `exe` open, with the headers and the
end of the image that are in the file. -/
structure Proc.Runs (p : Proc) (exe : Nat) (ip : Inode) : Prop where
  execIp : p.execIp = some exe
  numPhdrs : p.numPhdrs = ip.phnum
  phdrs : ∀ k, k < 56 * ip.phnum → p.phdrs k = ip.data (ip.phoff + k)
  heapStart : p.heapStart = ip.imageEnd

theorem Proc.opened_eq_self {p : Proc} {exe : Nat} {ip : Inode} (h : Loadable ip) :
    p.opened exe ip = p ↔ p.Runs exe ip := by
  have hread := h.readi_table
  constructor
  · intro he
    refine ⟨(congrArg Proc.execIp he).symm, (congrArg Proc.numPhdrs he).symm, fun k hk => ?_,
      (congrArg Proc.heapStart he).symm⟩
    have hk' := congrFun (congrArg Proc.phdrs he) k
    unfold Proc.opened Fs.readInto at hk'
    dsimp only at hk'
    rw [hread, if_pos hk] at hk'
    exact hk'.symm
  · rintro ⟨hexe, hnum, hhdr, hheap⟩
    have hbuf : Fs.readInto ip ip.phoff (56 * ip.phnum) p.phdrs = p.phdrs := by
      funext k
      unfold Fs.readInto
      rw [hread]
      split
      · exact (hhdr k ‹_›).symm
      · rfl
    unfold Proc.opened
    rw [hbuf, ← hexe, ← hnum, ← hheap]

/-- The files a process runs on. -/
def Proc.Uses (p : Proc) (ino : Nat) : Prop := p.execIp = some ino ∨ p.swapFile = some ino

/-- **The caller is intact**: its record, all memory in use and the
contents of its executable and of its swap file. -/
structure Intact (st st' : St) : Prop where
  proc : st'.p = st.p
  mem : ∀ f, f ∉ st.sys.pool → st'.sys.mem f = st.sys.mem f
  files : ∀ ino, st.p.Uses ino → st'.sys.fs.inode ino = st.sys.fs.inode ino

/-- The process has the file `ino` as its swap file, and in `fs` its files
are as they were. -/
structure SameFiles (st : St) (ino : Nat) (fs : Fs) : Prop where
  swapFile : st.p.swapFile = some ino
  files : ∀ i, st.p.Uses i → fs.inode i = st.sys.fs.inode i

theorem St.opensSwap_p_eq {ino : Nat} {fs : Fs} :
    (st.opensSwap ino fs).p = st.p ↔ st.p.swapFile = some ino := by
  constructor
  · exact fun h => (congrArg Proc.swapFile h).symm
  · intro h
    unfold St.opensSwap
    rw [← h]

theorem St.opened_opensSwap_eq {ino exe : Nat} {fs : Fs} {ip : Inode} (h : Loadable ip) :
    (st.opensSwap ino fs).p.opened exe ip = st.p ↔
      st.p.swapFile = some ino ∧ st.p.Runs exe ip := by
  constructor
  · intro he
    have hswap : st.p.swapFile = some ino := (congrArg Proc.swapFile he).symm
    rw [St.opensSwap_p_eq.mpr hswap, Proc.opened_eq_self h] at he
    exact ⟨hswap, he⟩
  · rintro ⟨hswap, hruns⟩
    rw [St.opensSwap_p_eq.mpr hswap]
    exact (Proc.opened_eq_self h).mpr hruns

theorem Opens.opensSwap {ino : Nat} {fs : Fs} {ip : Inode} :
    Opens (st.opensSwap ino fs).sys ip ↔ Opens st.sys ip := by
  have hsame : SameAlloc st.sys (st.opensSwap ino fs).sys := ⟨rfl, rfl, rfl⟩
  unfold Opens
  rw [hsame.grants]

/-- Only the record and the files can tell. -/
theorem intact_iff {ino : Nat} {fs : Fs} {st' : St}
    (h : Elsewhere (st.opensSwap ino fs).sys st'.sys) :
    Intact st st' ↔
      st'.p = st.p ∧ ∀ i, st.p.Uses i → fs.inode i = st.sys.fs.inode i := by
  have hfs : st'.sys.fs = fs := h.fs
  constructor
  · rintro ⟨hp, -, hfiles⟩
    exact ⟨hp, hfs ▸ hfiles⟩
  · rintro ⟨hp, hfiles⟩
    exact ⟨hp, h.mem, hfs ▸ hfiles⟩

end

/-- Process 1 runs the file 4 and has the swap file 3. Five frames are
free: they are enough for the page table of the executable `a`, and not
for its stack. -/
def tightSt : St where
  sys := { smallKern.sys with
    freelist := [524300, 524301, 524302, 524303, 524304]
    fs := { smallFs with
      names := fun name => if name = swapName 1 then some 3 else smallFs.names name
      freeInodes := [5, 6] } }
  p := { Proc.zero with
    pid := 1, pagetable := 524310, sz := 32768, heapStart := 8192, execIp := some 4,
    swapFile := some 3 }

theorem poolOk_tightSt : PoolOk tightSt.sys := ⟨by decide, by decide, by decide⟩

end OsSuite.Xv6
