import Xv6Cfs.Kernel.Fork
import Xv6Cfs.Proof.Nice

/-!
# `fork` is all or nothing

Each way `fork` can fail ends in `freeproc`, which gives back what has been taken up to
there: pages are counted with those that the new page table holds, and the sum is the same
after every call. If it does not fail the child is a fresh slot with a new pid, in the queue.
-/

namespace Xv6Cfs.Alone

open RedBlack StableQueue

/-! ## All or nothing -/

section

variable {σ φ : Type} {x : Vm σ}

/-- **What `fork` finds**: a valid run queue, slots that hold on to nothing when they are unused,
a caller that runs, and a next pid that no process has. -/
structure Ready (w : Sys σ φ) (p : Slot) : Prop where
  queue : ∃ t, QueueRep w.mem t
  unlocked : w.mem.tree.locked = false
  idle : ∀ q, (w.mem.proc q).state = .unused →
    (w.user q).trapframe = none ∧ (w.user q).pagetable = none ∧ (w.user q).sz = 0
  running : (w.mem.proc p).state = .running
  trapframe : (w.user p).trapframe.isSome
  pagetable : (w.user p).pagetable.isSome
  cwd : (w.user p).cwd.isSome
  pids : ∀ q, (w.mem.proc q).state ≠ .unused → (w.mem.proc q).pid ≠ w.nextpid
  nextpid : 0 < w.nextpid

/-- **All**: one slot has become a runnable process of the caller, queued once. -/
structure Forked (w w' : Sys σ φ) (p np : Slot) (pid : Int) : Prop where
  positive : 0 < pid
  fresh : ∀ q, (w.mem.proc q).state ≠ .unused → (w.mem.proc q).pid ≠ pid
  before : (w.mem.proc np).state = .unused
  after : (w'.mem.proc np).state = .runnable
  pid : (w'.mem.proc np).pid = pid
  parent : (w'.mem.proc np).parent = some p
  virtualRuntime : (w'.mem.proc np).virtualRuntime = 0
  currentRuntime : (w'.mem.proc np).currentRuntime = 0
  a0 : ∃ trapframe, (w'.user np).trapframe = some trapframe ∧ trapframe.regs Regs.A0 = 0
  notQueued : np ∉ Xv6Cfs.queue w.mem
  queued : (Xv6Cfs.queue w'.mem).Perm (np :: Xv6Cfs.queue w.mem)
  once : (Xv6Cfs.queue w'.mem).count np = 1
  others : ∀ q, q ≠ np →
    (w'.mem.proc q).unlinked = (w.mem.proc q).unlinked ∧ w'.user q = w.user q

/-- **Nothing**: all is as before but the next pid, and what an unused slot has been used for. -/
structure Refused (spec : VmSpec x) (w w' : Sys σ φ) : Prop where
  tree : w'.mem.tree = w.mem.tree
  queue : Xv6Cfs.queue w'.mem = Xv6Cfs.queue w.mem
  slots : ∀ q, (w.mem.proc q).state ≠ .unused → w'.mem.proc q = w.mem.proc q
  user : w'.user = w.user
  files : w'.files = w.files
  free : spec.free w'.phys = spec.free w.phys
  tried : w'.mem = w.mem ∨ ∃ np, (w.mem.proc np).state = .unused ∧
    (w'.mem.proc np).state = .unused ∧ ∀ q, q ≠ np → w'.mem.proc q = w.mem.proc q

/-! ## Giving back -/

/-- The table has the mappings that `proc_pagetable` makes, and no user memory. -/
structure Empty (spec : VmSpec x) (s : σ) (t : Table) : Prop where
  mapped : ∀ va, spec.mapped s t va
  size : spec.size s t = 0

/-- **`proc_pagetable` takes the pages of the new table**, or none. -/
theorem procPagetable_spec (spec : VmSpec x) (u : User) (s : σ) :
    (∃ s', procPagetable x u s = (none, s') ∧ spec.free s' = spec.free s) ∨
      ∃ t s', procPagetable x u s = (some t, s') ∧
        spec.free s' + spec.held s' t = spec.free s ∧ Empty spec s' t := by
  unfold procPagetable
  generalize Pa.trapframe (u.trapframe.map (·.page)) = pa
  rcases h₁ : x.uvmcreate s with ⟨- | t, s₁⟩
  · exact .inl ⟨s₁, rfl, spec.uvmcreate_none s s₁ h₁⟩
  obtain ⟨hfree₁, hmap₁, hsize₁⟩ := spec.uvmcreate_some s t s₁ h₁
  dsimp only
  rcases h₂ : x.mappages t .TRAMPOLINE .trampoline .rx s₁ with ⟨ok₂, s₂⟩
  obtain ⟨hfree₂, hsize₂, hmap₂⟩ := spec.mappages _ _ _ _ _ _ _ h₂ (hmap₁ _)
  cases ok₂ with
  | false =>
      refine .inl ⟨_, rfl, ?_⟩
      have := spec.uvmfree t 0 s₂ (fun va => by simp [hmap₂, hmap₁]) (hsize₂.trans hsize₁)
      omega
  | true =>
      have hno : ¬spec.mapped s₂ t .TRAPFRAME := by simp [hmap₂, hmap₁]
      dsimp only
      rcases h₃ : x.mappages t .TRAPFRAME pa .rw s₂ with ⟨ok₃, s₃⟩
      obtain ⟨hfree₃, hsize₃, hmap₃⟩ := spec.mappages _ _ _ _ _ _ _ h₃ hno
      cases ok₃ with
      | false =>
          refine .inl ⟨_, rfl, ?_⟩
          have htramp : spec.mapped s₃ t .TRAMPOLINE := by simp [hmap₃, hmap₂]
          obtain ⟨hfree₄, hheld₄, hsize₄, hmap₄⟩ := spec.uvmunmap t .TRAMPOLINE s₃ htramp
          have := spec.uvmfree t 0 (x.uvmunmap t .TRAMPOLINE s₃)
            (fun va => by simp [hmap₄, hmap₃, hmap₂, hmap₁])
            (by rw [hsize₄, hsize₃, hsize₂, hsize₁])
          omega
      | true =>
          refine .inr ⟨t, s₃, rfl, by omega, fun va => ?_, by rw [hsize₃, hsize₂, hsize₁]⟩
          cases va <;> simp [hmap₃, hmap₂]

/-- **`proc_freepagetable` gives them back.** -/
theorem procFreepagetable_spec (spec : VmSpec x) {t : Table} {s : σ} (h : Empty spec s t) :
    spec.free (procFreepagetable x t 0 s) = spec.free s + spec.held s t := by
  obtain ⟨hfree₁, hheld₁, hsize₁, hmap₁⟩ := spec.uvmunmap t .TRAMPOLINE s (h.mapped _)
  have hframe : spec.mapped (x.uvmunmap t .TRAMPOLINE s) t .TRAPFRAME := by
    simp [hmap₁, h.mapped]
  obtain ⟨hfree₂, hheld₂, hsize₂, hmap₂⟩ := spec.uvmunmap t .TRAPFRAME _ hframe
  have := spec.uvmfree t 0 (x.uvmunmap t .TRAPFRAME (x.uvmunmap t .TRAMPOLINE s)) (fun va => by
    cases va <;> simp [hmap₂, hmap₁]) (by rw [hsize₂, hsize₁, h.size])
  unfold procFreepagetable
  omega

/-! ## What `allocproc` comes to -/

/-- The slot `p` is in use by nobody: `w'` is `w` with pages taken for it and fields written. -/
structure Taken (w w' : Sys σ φ) (p : Slot) : Prop where
  tree : w'.mem.tree = w.mem.tree
  mem : ∀ q, q ≠ p → w'.mem.proc q = w.mem.proc q
  user : ∀ q, q ≠ p → w'.user q = w.user q
  files : w'.files = w.files
  ofile : (w'.user p).ofile = (w.user p).ofile
  cwd : (w'.user p).cwd = (w.user p).cwd

/-- **The slot has been given back**, with the pages taken for it. -/
structure GivenBack (spec : VmSpec x) (w w' : Sys σ φ) (p : Slot) : Prop extends Taken w w' p where
  state : (w'.mem.proc p).state = .unused
  trapframe : (w'.user p).trapframe = none
  pagetable : (w'.user p).pagetable = none
  sz : (w'.user p).sz = 0
  free : spec.free w'.phys = spec.free w.phys

/-- **The slot has been allocated**: it holds a page for the trapframe and an empty table. -/
structure Allocated (spec : VmSpec x) (w w' : Sys σ φ) (p : Slot) : Prop extends Taken w w' p where
  proc : w'.mem.proc p = (Write.used.apply ((Write.pid w.nextpid).apply (w.mem.proc p))).init
  nextpid : w'.nextpid = int32 (w.nextpid + 1)
  trapframe : ∃ trapframe, (w'.user p).trapframe = some trapframe
  pagetable : ∃ t, (w'.user p).pagetable = some t ∧ Empty spec w'.phys t ∧
    spec.free w'.phys + spec.held w'.phys t + 1 = spec.free w.phys
  sz : (w'.user p).sz = 0

namespace Taken

variable {w w' : Sys σ φ} {p : Slot}

theorem refl (w : Sys σ φ) (p : Slot) : Taken w w p :=
  ⟨rfl, fun _ _ => rfl, fun _ _ => rfl, rfl, rfl, rfl⟩

theorem write (h : Taken w w' p) (f : Proc → Proc) : Taken w (w'.write p f) p :=
  { h with
    mem := fun q hq => by rw [Sys.write_mem, Mem.modify_ne _ _ hq, h.mem q hq] }

theorem setPhys (h : Taken w w' p) (s : σ) : Taken w (w'.setPhys s) p := { h with }

theorem hold (h : Taken w w' p) (f : User → User)
    (hf : ∀ u, (f u).ofile = u.ofile ∧ (f u).cwd = u.cwd) : Taken w (w'.hold p f) p :=
  { h with
    user := fun q hq => by rw [Sys.hold_user, Function.update_of_ne hq, h.user q hq]
    ofile := by rw [Sys.hold_user, Function.update_self, (hf _).1, h.ofile]
    cwd := by rw [Sys.hold_user, Function.update_self, (hf _).2, h.cwd] }

/-- `freeproc` gives back what the slot holds. -/
theorem givenBack {spec : VmSpec x} (h : Taken w w' p)
    (hfree : spec.free (freePages x (w'.user p) w'.phys) = spec.free w.phys) :
    GivenBack spec w (freeproc x w' p) p where
  toTaken := ((h.setPhys _).hold _ (by intro u; exact ⟨rfl, rfl⟩)).write _
  state := by simp [freeproc, Write.apply]
  trapframe := by simp [freeproc]
  pagetable := by simp [freeproc]
  sz := by simp [freeproc]
  free := hfree

end Taken

/-- **`allocproc`, from `found` on.** -/
theorem allocFound_spec (spec : VmSpec x) {w : Sys σ φ} {p : Slot}
    (hidle : (w.user p).trapframe = none ∧ (w.user p).pagetable = none ∧ (w.user p).sz = 0) :
    (∃ w', allocFound x w p = (none, w') ∧ GivenBack spec w w' p) ∨
      ∃ w', allocFound x w p = (some p, w') ∧ Allocated spec w w' p := by
  obtain ⟨htf, hpt, hsz⟩ := hidle
  unfold allocFound
  dsimp only [allocpid]
  generalize hw₁ : Sys.write (Sys.write { w with nextpid := int32 (w.nextpid + 1) } p
    (Write.pid w.nextpid).apply) p Write.used.apply = w₁
  have h₁ : Taken w w₁ p := by
    have hpid : Taken w { w with nextpid := int32 (w.nextpid + 1) } p := { Taken.refl w p with }
    exact hw₁ ▸ (hpid.write _).write _
  have hself : w₁.mem.proc p = Write.used.apply ((Write.pid w.nextpid).apply (w.mem.proc p)) := by
    rw [← hw₁, Sys.write_mem, Mem.modify_self, Sys.write_mem, Mem.modify_self]
  have huser : w₁.user = w.user := hw₁ ▸ rfl
  have hphys : w₁.phys = w.phys := hw₁ ▸ rfl
  have hnext : w₁.nextpid = int32 (w.nextpid + 1) := hw₁ ▸ rfl
  rcases hk : x.kalloc w₁.phys with ⟨- | page, s⟩
  · -- no page for the trapframe
    refine .inl ⟨_, rfl, ((h₁.setPhys s).hold _ (by intro u; exact ⟨rfl, rfl⟩)).givenBack ?_⟩
    have := spec.kalloc_none _ _ hk
    simpa [freePages, huser, hpt, ← hphys] using this
  have hfree := spec.kalloc_some _ _ _ hk
  have h₂ : Taken w ((w₁.setPhys s).hold p fun u =>
      { u with trapframe := some ⟨page, x.contents s page⟩ }) p :=
    (h₁.setPhys s).hold _ (by intro u; exact ⟨rfl, rfl⟩)
  dsimp only
  rcases procPagetable_spec spec ((Sys.hold (w₁.setPhys s) p fun u =>
      { u with trapframe := some ⟨page, x.contents s page⟩ }).user p) s with
    ⟨s', hpg, hfree'⟩ | ⟨t, s', hpg, hfree', hempty⟩
  · -- no page table
    rw [Sys.hold_phys, Sys.setPhys_phys, hpg]
    refine .inl ⟨_, rfl, ((h₂.setPhys s').hold _ (by intro u; exact ⟨rfl, rfl⟩)).givenBack ?_⟩
    have := (spec.kfree page s').1
    simp only [freePages, Sys.hold_user, Sys.setPhys_user, Function.update_self, Sys.hold_phys,
      Sys.setPhys_phys, ← hphys]
    omega
  · rw [Sys.hold_phys, Sys.setPhys_phys, hpg]
    refine .inr ⟨_, rfl, ((h₂.setPhys s').hold _ (by intro u; exact ⟨rfl, rfl⟩)).write _, ?_, hnext,
      ⟨⟨page, x.contents s page⟩, by simp⟩, ⟨t, by simp, hempty, ?_⟩, by simp [huser, hsz]⟩
    · rw [Sys.write_mem, Mem.modify_self]
      exact congrArg Proc.init hself
    · simp only [Sys.write_phys, Sys.hold_phys, Sys.setPhys_phys, ← hphys]
      omega

/-- **`allocproc`** finds no slot, gives the one it has tried back, or allocates it. -/
theorem allocproc_spec (spec : VmSpec x) {w : Sys σ φ}
    (hidle : ∀ q, (w.mem.proc q).state = .unused →
      (w.user q).trapframe = none ∧ (w.user q).pagetable = none ∧ (w.user q).sz = 0) :
    allocproc x w = (none, w) ∨ ∃ p, (w.mem.proc p).state = .unused ∧
      ((∃ w', allocproc x w = (none, w') ∧ GivenBack spec w w' p) ∨
        ∃ w', allocproc x w = (some p, w') ∧ Allocated spec w w' p) := by
  unfold allocproc
  induction slots with
  | nil => exact .inl rfl
  | cons p ps ih =>
      rw [allocFrom]
      split_ifs with hp
      · exact .inr ⟨p, hp, allocFound_spec spec (hidle p hp)⟩
      · exact ih

/-! ## The copy -/

@[simp] theorem load_some {α : Type} (x : α) : load (some x) = .ok x := rfl

/-- The loop over the open files writes to the files of the child. -/
theorem dupFiles_spec (y : Fs φ) (p np : Slot) (w : Sys σ φ) (fds : List (Fin NOFILE)) :
    (dupFiles y p np w fds).mem = w.mem ∧
      (∀ q, q ≠ np → (dupFiles y p np w fds).user q = w.user q) ∧
      ((dupFiles y p np w fds).user np).trapframe = (w.user np).trapframe := by
  induction fds generalizing w with
  | nil => exact ⟨rfl, fun _ _ => rfl, rfl⟩
  | cons i fds ih =>
      rw [dupFiles]
      cases (w.user p).ofile i with
      | none => exact ih w
      | some f =>
          obtain ⟨hmem, huser, htf⟩ := ih (((w.setFiles (y.filedup f w.files).2).hold np fun u =>
            { u with ofile := Function.update u.ofile i (some (y.filedup f w.files).1) }))
          refine ⟨hmem, fun q hq => (huser q hq).trans ?_, htf.trans ?_⟩
          · rw [Sys.hold_user, Function.update_of_ne hq]
            rfl
          · rw [Sys.hold_user, Function.update_self]
            rfl

/-- The child as it goes into the queue. -/
def childMem (m : Mem) (p np : Slot) : Mem :=
  (m.modify np (Write.parent (some p)).apply).modify np Write.ready.apply

/-- **`fork` ends well once the memory has been copied.** -/
theorem forkCopied_spec (y : Fs φ) {w : Sys σ φ} {p np : Slot} {t : ColorTree Slot}
    {trapframe own : Trapframe} {dir : Inode} (hne : np ≠ p)
    (hp : (w.user p).trapframe = some trapframe) (hnp : (w.user np).trapframe = some own)
    (hcwd : (w.user p).cwd = some dir) (ht : QueueRep w.mem t)
    (hlocked : w.mem.tree.locked = false) (hnt : np ∉ t.toList)
    (hl : (w.mem.proc np).left = none) (hr : (w.mem.proc np).right = none)
    (hnice : (w.mem.proc np).niceVal = 0) :
    ∃ w' t', forkCopied y w p np = .ok ((w.mem.proc np).pid, w') ∧
      Inserted (childMem w.mem p np) t np 819 w'.mem t' ∧
      (∀ q, q ≠ np → w'.user q = w.user q) ∧
      ∃ f, (w'.user np).trapframe = some f ∧ f.regs Regs.A0 = 0 := by
  have hrep : QueueRep (childMem w.mem p np) t := (ht.modify hnt _).modify hnt _
  have hself : (childMem w.mem p np).proc np =
      Write.ready.apply ((Write.parent (some p)).apply (w.mem.proc np)) := by
    rw [childMem, Mem.modify_self, Mem.modify_self]
  obtain ⟨m', t', hrun, hins⟩ := insertProcess_spec (calculateWight loopFuel) hrep hlocked
    (p := np) (w := 819) ⟨hnt, by rw [hself]; rfl, by rw [hself]; exact hl, by rw [hself]; exact hr⟩
    (by rw [hself]; exact calculateWight_of_nonpos (le_of_eq hnice) 255) (by decide)
  -- what the child holds, assignment by assignment
  set w₁ := w.hold np fun u => { u with sz := (w.user p).sz } with hw₁
  set w₂ := w₁.hold np fun u => { u with trapframe := some { own with regs := trapframe.regs } }
    with hw₂
  set w₃ := w₂.hold np fun u =>
    { u with trapframe := some { own with regs := Function.update trapframe.regs Regs.A0 0 } }
    with hw₃
  have huser₃ : ∀ q, q ≠ np → w₃.user q = w.user q := fun q hq => by
    rw [hw₃, Sys.hold_user, Function.update_of_ne hq, hw₂, Sys.hold_user,
      Function.update_of_ne hq, hw₁, Sys.hold_user, Function.update_of_ne hq]
  have htf₃ : (w₃.user np).trapframe =
      some { own with regs := Function.update trapframe.regs Regs.A0 0 } := by
    rw [hw₃, Sys.hold_user, Function.update_self]
  have hp₁ : (w₁.user p).trapframe = some trapframe := by
    rw [hw₁, Sys.hold_user, Function.update_of_ne hne.symm, hp]
  have hnp₁ : (w₁.user np).trapframe = some own := by
    rw [hw₁, Sys.hold_user, Function.update_self]
    exact hnp
  obtain ⟨hmem, huser, htf⟩ := dupFiles_spec y p np w₃ (List.finRange NOFILE)
  have hcwd₄ : ((dupFiles y p np w₃ (List.finRange NOFILE)).user p).cwd = some dir := by
    rw [huser p hne.symm, huser₃ p hne.symm, hcwd]
  set w₄ := dupFiles y p np w₃ (List.finRange NOFILE) with hw₄
  have hmem₄ : w₄.mem = w.mem := hmem
  set w₅ := (w₄.setFiles (y.idup dir w₄.files).2).hold np fun u =>
    { u with cwd := some (y.idup dir w₄.files).1 } with hw₅
  refine ⟨{ w₅ with mem := m' }, t', ?_, hins, fun q hq => ?_,
    { own with regs := Function.update trapframe.regs Regs.A0 0 }, ?_, by simp⟩
  · rw [forkCopied]
    dsimp only
    rw [← hw₁, hp₁, load_some, ok_bind, hnp₁, load_some, ok_bind, ← hw₂, ← hw₃, ← hw₄, hcwd₄,
      load_some, ok_bind, ← hw₅]
    have hmem₅ : ((w₅.write np (Write.parent (some p)).apply).write np Write.ready.apply).mem =
        childMem w.mem p np := by
      rw [Sys.write_mem, Sys.write_mem, hw₅, Sys.hold_mem, Sys.setFiles_mem, hmem₄]
      rfl
    rw [hmem₅, hrun, ok_bind, hw₅, Sys.hold_mem, Sys.setFiles_mem, hmem₄]
    rfl
  · rw [hw₅, Sys.hold_user, Function.update_of_ne hq]
    exact (huser q hq).trans (huser₃ q hq)
  · rw [hw₅, Sys.hold_user, Function.update_self]
    exact htf.trans htf₃

/-! ## The whole of `fork` -/

/-- A slot that is given back is as good as never taken. -/
theorem GivenBack.refused {spec : VmSpec x} {w w' : Sys σ φ} {p np : Slot} (h : Ready w p)
    (hnp : (w.mem.proc np).state = .unused) (hg : GivenBack spec w w' np) :
    Refused spec w w' := by
  obtain ⟨t, ht⟩ := h.queue
  have hnt : np ∉ t.toList := fun e => by
    have := ht.runnable np e
    rw [hnp] at this
    cases this
  have ht' : QueueRep w'.mem t := ht.congr (by rw [hg.tree]) fun q hq => by
    rw [hg.mem q fun e => hnt (e ▸ hq)]
    exact .refl _
  refine ⟨hg.tree, by rw [ht'.queue_eq, ht.queue_eq], fun q hq => hg.mem q fun e => hq (e ▸ hnp),
    ?_, hg.files, hg.free, .inr ⟨np, hnp, hg.state, hg.mem⟩⟩
  funext q
  by_cases hq : q = np
  · subst hq
    obtain ⟨h1, h2, h3⟩ := h.idle q hnp
    have h4 := hg.trapframe
    have h5 := hg.pagetable
    have h6 := hg.sz
    have h7 := hg.ofile
    have h8 := hg.cwd
    rcases hu : w.user q with ⟨a, b, c, d, e⟩
    rcases hu' : w'.user q with ⟨a', b', c', d', e'⟩
    simp only [hu, hu'] at h1 h2 h3 h4 h5 h6 h7 h8
    simp only [h1, h2, h3, h4, h5, h6, h7, h8]
  · exact hg.user q hq

/-- When the copy fails, the table of the child has lost what was copied. -/
theorem Allocated.givenBack {spec : VmSpec x} {w w' : Sys σ φ} {np : Slot} {old new : Table}
    {sz : Nat} {s : σ} (h : Allocated spec w w' np) (hnew : (w'.user np).pagetable = some new)
    (hs : x.uvmcopy old new sz w'.phys = (false, s)) :
    GivenBack spec w (freeproc x (w'.setPhys s) np) np := by
  refine (h.setPhys s).givenBack ?_
  obtain ⟨trapframe, htf⟩ := h.trapframe
  obtain ⟨t, ht, hempty, hfree⟩ := h.pagetable
  obtain rfl : t = new := Option.some.inj (ht.symm.trans hnew)
  obtain ⟨hfree₁, hmap₁, hsize₁⟩ := spec.uvmcopy _ _ _ _ _ _ hs hempty.size
  obtain ⟨hfree₂, hheld₂, hmap₂, hsize₂⟩ := spec.kfree trapframe.page s
  have hempty₂ : Empty spec (x.kfree trapframe.page s) t := by
    refine ⟨fun va => ?_, ?_⟩
    · rw [hmap₂, hmap₁]
      exact hempty.mapped va
    · rw [hsize₂, hsize₁]
      rfl
  have := procFreepagetable_spec spec hempty₂
  simp only [freePages, Sys.setPhys_user, Sys.setPhys_phys, htf, ht, h.sz]
  rw [this, hfree₂, hheld₂]
  omega

/-- **`fork` is all or nothing**, whatever the page allocator and the page tables answer: it
returns a new pid, and one unused slot has become a runnable child that is queued once, or it
returns -1 and nothing has changed but the next pid and the dead fields of an unused slot. -/
theorem fork_all_or_nothing (spec : VmSpec x) (y : Fs φ) {w : Sys σ φ} {p : Slot}
    (h : Ready w p) : ∃ r w', fork x y w p = .ok (r, w') ∧
      ((∃ np, Forked w w' p np r) ∨ r = -1 ∧ Refused spec w w') := by
  obtain ⟨t, ht⟩ := h.queue
  obtain ⟨old, hold⟩ := Option.isSome_iff_exists.mp h.pagetable
  obtain ⟨trapframe, htf⟩ := Option.isSome_iff_exists.mp h.trapframe
  obtain ⟨dir, hdir⟩ := Option.isSome_iff_exists.mp h.cwd
  unfold fork
  rcases allocproc_spec spec h.idle with hnone | ⟨np, hnp, ⟨w₁, hw₁, hg⟩ | ⟨w₁, hw₁, ha⟩⟩
  · -- no unused slot
    rw [hnone]
    exact ⟨-1, w, rfl, .inr ⟨rfl, rfl, rfl, fun _ _ => rfl, rfl, rfl, rfl, .inl rfl⟩⟩
  · -- no page for the trapframe, or no page table
    rw [hw₁]
    exact ⟨-1, w₁, rfl, .inr ⟨rfl, hg.refused h hnp⟩⟩
  have hne : np ≠ p := fun e => by
    have := h.running
    rw [← e, hnp] at this
    cases this
  have hp₁ : w₁.user p = w.user p := ha.user p hne.symm
  obtain ⟨own, hown⟩ := ha.trapframe
  obtain ⟨new, hnew, -, -⟩ := ha.pagetable
  rw [hw₁]
  dsimp only
  rw [hp₁, hold, load_some, ok_bind, hnew, load_some, ok_bind]
  rcases hcopy : x.uvmcopy old new (w.user p).sz w₁.phys with ⟨- | -, s⟩
  · -- the copy has failed
    exact ⟨-1, _, rfl, .inr ⟨rfl, (ha.givenBack hnew hcopy).refused h hnp⟩⟩
  have hnt : np ∉ t.toList := fun e => by
    have := ht.runnable np e
    rw [hnp] at this
    cases this
  have ht₁ : QueueRep w₁.mem t := ht.congr (by rw [ha.tree]) fun q hq => by
    rw [ha.mem q fun e => hnt (e ▸ hq)]
    exact .refl _
  obtain ⟨w', t', hrun, hins, huser, ha0⟩ := forkCopied_spec y (w := w₁.setPhys s) hne
    (by rw [Sys.setPhys_user, hp₁, htf]) hown (by rw [Sys.setPhys_user, hp₁, hdir]) ht₁
    (by rw [Sys.setPhys_mem, ha.tree, h.unlocked]) hnt (by rw [Sys.setPhys_mem, ha.proc]; rfl)
    (by rw [Sys.setPhys_mem, ha.proc]; rfl) (by rw [Sys.setPhys_mem, ha.proc]; rfl)
  have hpid : (w₁.mem.proc np).pid = w.nextpid := by
    rw [ha.proc]
    rfl
  refine ⟨w.nextpid, w', ?_, .inl ⟨np, ?_⟩⟩
  · rw [← hpid]
    exact hrun
  -- the child, but for its links
  have hchild : (w'.mem.proc np).unlinked =
      ((Write.ready.apply ((Write.parent (some p)).apply (w₁.mem.proc np))).setWeightVal
        819).unlinked := by
    rw [hins.inserted, childMem, Mem.modify_self, Mem.modify_self]
    rfl
  have hperm : (queue w'.mem).Perm (np :: queue w.mem) := by
    rw [hins.rep.queue_eq, hins.toList, ht.queue_eq]
    exact perm_insertBy _ np t.toList
  have hfield : ∀ {β : Type} (f : Proc → β), (∀ x, f x.unlinked = f x) → f (w'.mem.proc np) =
      f ((Write.ready.apply ((Write.parent (some p)).apply (w₁.mem.proc np))).setWeightVal 819) :=
    fun f hf => by rw [← hf, hchild, hf]
  exact {
    positive := h.nextpid
    fresh := h.pids
    before := hnp
    after := hfield Proc.state fun _ => rfl
    pid := (hfield Proc.pid fun _ => rfl).trans hpid
    parent := hfield Proc.parent fun _ => rfl
    virtualRuntime := by
      rw [hfield Proc.virtualRuntime fun _ => rfl, ha.proc]
      rfl
    currentRuntime := by
      rw [hfield Proc.currentRuntime fun _ => rfl, ha.proc]
      rfl
    a0 := ha0
    notQueued := by rwa [ht.queue_eq]
    queued := hperm
    once := by
      rw [hperm.count_eq, List.count_cons_self, List.count_eq_zero.mpr]
      rwa [ht.queue_eq]
    others := fun q hq => by
      refine ⟨?_, (huser q hq).trans (ha.user q hq)⟩
      rw [hins.unlinked q hq, childMem, Mem.modify_ne _ _ hq, Mem.modify_ne _ _ hq,
        Sys.setPhys_mem, ha.mem q hq] }

end

/-! ## A page allocator -/

/-- Free pages, and one page table. -/
structure Pool where
  free : Nat
  held : Nat
  mapped : Va → Bool
  size : Nat

/-- The first mapping takes two more pages for the table. -/
def Pool.nodes (s : Pool) : Nat := if s.held < 3 then 2 else 0

def pool : Vm Pool where
  kalloc s := if s.free = 0 then (none, s) else (some s.free, { s with free := s.free - 1 })
  kfree _ s := { s with free := s.free + 1 }
  contents _ _ := fun _ => 5
  uvmcreate s := if s.free = 0 then (none, s) else (some 0, ⟨s.free - 1, 1, fun _ => false, 0⟩)
  mappages _ va _ _ s :=
    if s.free < s.nodes then (false, s)
    else (true, { s with
      free := s.free - s.nodes, held := s.held + s.nodes
      mapped := Function.update s.mapped va true })
  uvmunmap _ va s := { s with mapped := Function.update s.mapped va false }
  uvmfree _ _ s := ⟨s.free + s.held, 0, fun _ => false, 0⟩
  uvmcopy _ _ sz s :=
    if s.free < (sz + 4095) / 4096 then (false, s)
    else (true, { s with
      free := s.free - (sz + 4095) / 4096, held := s.held + (sz + 4095) / 4096, size := sz })

def poolSpec : VmSpec pool where
  free := Pool.free
  held s _ := s.held
  mapped s _ va := s.mapped va = true
  size s _ := s.size
  kalloc_none s s' h := by
    simp only [pool] at h
    split_ifs at h
    · obtain rfl := (Prod.mk.inj h).2
      rfl
    · cases (Prod.mk.inj h).1
  kalloc_some s pg s' h := by
    simp only [pool] at h
    split_ifs at h with h0
    · cases (Prod.mk.inj h).1
    · obtain ⟨-, rfl⟩ := Prod.mk.inj h
      exact Nat.succ_pred_eq_of_ne_zero h0
  kfree _ _ := ⟨rfl, rfl, rfl, rfl⟩
  uvmcreate_none s s' h := by
    simp only [pool] at h
    split_ifs at h
    · obtain rfl := (Prod.mk.inj h).2
      rfl
    · cases (Prod.mk.inj h).1
  uvmcreate_some s t s' h := by
    simp only [pool] at h
    split_ifs at h with h0
    · cases (Prod.mk.inj h).1
    · obtain ⟨-, rfl⟩ := Prod.mk.inj h
      exact ⟨Nat.succ_pred_eq_of_ne_zero h0, by simp, rfl⟩
  mappages t va pa perm s ok s' h _ := by
    simp only [pool] at h
    split_ifs at h with h0
    · obtain ⟨rfl, rfl⟩ := Prod.mk.inj h
      simp
    · obtain ⟨rfl, rfl⟩ := Prod.mk.inj h
      refine ⟨by dsimp only; omega, rfl, fun va' => ?_⟩
      by_cases hva : va' = va <;> simp [hva]
  uvmunmap t va s _ := by
    refine ⟨rfl, rfl, rfl, fun va' => ?_⟩
    by_cases hva : va' = va <;> simp [pool, hva]
  uvmfree _ _ _ _ _ := rfl
  uvmcopy old new sz s ok s' h h0 := by
    simp only [pool] at h
    split_ifs at h with hfree
    · obtain ⟨rfl, rfl⟩ := Prod.mk.inj h
      exact ⟨rfl, fun _ => Iff.rfl, h0⟩
    · obtain ⟨rfl, rfl⟩ := Prod.mk.inj h
      exact ⟨by dsimp only; omega, fun _ => Iff.rfl, rfl⟩

/-- The number of open files and directories. -/
def counted : Fs Nat where
  filedup f n := (f, n + 1)
  idup ip n := (ip, n + 1)

/-- One process, with two pages of memory and an open file, and so many pages left. -/
def oneProcess (pages : Nat) : Sys Pool Nat where
  mem := rbinit
    { proc := fun q => if q = 0 then { Proc.zero with state := .running, pid := 1 } else Proc.zero
      tree := (rbinit readyTable).tree }
  nextpid := 2
  user q :=
    if q = 0 then ⟨some ⟨7, fun _ => 9⟩, some 3, 8192, fun i => if i.val = 1 then some 4 else none,
      some 1⟩
    else ⟨none, none, 0, fun _ => none, none⟩
  phys := ⟨pages, 0, fun _ => false, 0⟩
  files := 0

theorem ready_oneProcess (pages : Nat) : Ready (oneProcess pages) 0 where
  queue := ⟨.nil, queueRep_rbinit _⟩
  unlocked := rfl
  idle q hq := by
    have hq0 : q ≠ 0 := fun e => by
      rw [e] at hq
      cases hq
    simp [oneProcess, hq0]
  running := rfl
  trapframe := rfl
  pagetable := rfl
  cwd := rfl
  pids q hq := by
    by_cases hq0 : q = 0
    · have hpid : (1 : Int) ≠ 2 := by decide
      subst hq0
      exact hpid
    · simp [oneProcess, rbinit, hq0, Proc.zero] at hq
  nextpid := Int.ofNat_succ_pos 1

/-- A trapframe, a table of three pages and two pages of memory are needed. -/
theorem fork_oneProcess : ∀ pages < 32,
    (fork pool counted (oneProcess pages) 0).toOption.map Prod.fst =
      some (if 6 ≤ pages then 2 else -1) := by
  decide +kernel

/-- With 20 pages the process has a child, with 5 it has none. -/
theorem fork_all_or_nothing_first :
    (∃ np w', fork pool counted (oneProcess 20) 0 = .ok (2, w') ∧
      Forked (oneProcess 20) w' 0 np 2) ∧
    ∃ w', fork pool counted (oneProcess 5) 0 = .ok (-1, w') ∧
      Refused poolSpec (oneProcess 5) w' := by
  constructor
  · obtain ⟨r, w', hrun, hcase⟩ := fork_all_or_nothing poolSpec counted (ready_oneProcess 20)
    have hr := fork_oneProcess 20 (by decide)
    rw [hrun] at hr
    obtain rfl : r = 2 := Option.some.inj hr
    rcases hcase with ⟨np, hforked⟩ | ⟨hno, -⟩
    · exact ⟨np, w', hrun, hforked⟩
    · cases hno
  · obtain ⟨r, w', hrun, hcase⟩ := fork_all_or_nothing poolSpec counted (ready_oneProcess 5)
    have hr := fork_oneProcess 5 (by decide)
    rw [hrun] at hr
    obtain rfl : r = -1 := Option.some.inj hr
    rcases hcase with ⟨np, hforked⟩ | ⟨-, hrefused⟩
    · exact absurd hforked.positive (by decide)
    · exact ⟨w', hrun, hrefused⟩

end Xv6Cfs.Alone
