import Xv6Cfs.Kernel.Instr

/-!
# `fork` and what it takes

`fork`, `allocproc`, `freeproc`, `proc_pagetable` and `proc_freepagetable` with the pages,
page tables and open files that the machine of `Kernel.Machine` leaves out, as one CPU runs
them with no other acting meanwhile: every lock is free then, and the locks are left out
here. The page allocator, the page tables and the file and inode tables are not part of the
repository. They are parameters, and `VmSpec` is what `fork` relies on.
-/

namespace Xv6Cfs.Alone

/-- The address of a page. -/
abbrev Page := Nat

/-- A `pagetable_t`. -/
abbrev Table := Nat

abbrev File := Nat

abbrev Inode := Nat

def NOFILE : Nat := 16

/-- The virtual addresses that `proc_pagetable` maps. -/
inductive Va where
  | TRAMPOLINE
  | TRAPFRAME
  deriving DecidableEq, Repr

/-- What is mapped there. -/
inductive Pa where
  | trampoline
  | trapframe (page : Option Page)
  deriving DecidableEq, Repr

/-- The permissions. -/
inductive Perm where
  | rx
  | rw
  deriving DecidableEq, Repr

/-- The words of a `struct trapframe`. -/
abbrev Regs := Fin 36 → UInt64

/-- `struct trapframe`: the page that it is in, and its words. -/
structure Trapframe where
  page : Page
  regs : Regs

/-- The place of `a0`. -/
def Regs.A0 : Fin 36 := 14

/-- What `struct proc` holds on to. -/
structure User where
  trapframe : Option Trapframe
  pagetable : Option Table
  sz : Nat
  ofile : Fin NOFILE → Option File
  cwd : Option Inode

/-- The page allocator and the page tables. A `false` is a returned `-1`. -/
structure Vm (σ : Type) where
  kalloc : σ → Option Page × σ
  kfree : Page → σ → σ
  /-- What a page holds. -/
  contents : σ → Page → Regs
  uvmcreate : σ → Option Table × σ
  mappages : Table → Va → Pa → Perm → σ → Bool × σ
  /-- `uvmunmap(pagetable, va, 1, 0)`. -/
  uvmunmap : Table → Va → σ → σ
  uvmfree : Table → Nat → σ → σ
  uvmcopy : Table → Table → Nat → σ → Bool × σ

/-- The file and inode tables. -/
structure Fs (φ : Type) where
  filedup : File → φ → File × φ
  idup : Inode → φ → Inode × φ

/-- **What is relied on.** Each call gives back what it took when it fails, and a table what it
holds when it is freed with no mappings left but those of its user memory. -/
structure VmSpec {σ : Type} (x : Vm σ) where
  /-- The number of free pages. -/
  free : σ → Nat
  /-- The pages of a table: those it consists of, and those of its user memory. -/
  held : σ → Table → Nat
  /-- The mappings besides those of user memory. -/
  mapped : σ → Table → Va → Prop
  /-- The size of the user memory. -/
  size : σ → Table → Nat
  kalloc_none : ∀ s s', x.kalloc s = (none, s') → free s' = free s
  kalloc_some : ∀ s pg s', x.kalloc s = (some pg, s') → free s' + 1 = free s
  kfree : ∀ pg s, free (x.kfree pg s) = free s + 1 ∧ held (x.kfree pg s) = held s ∧
    mapped (x.kfree pg s) = mapped s ∧ size (x.kfree pg s) = size s
  uvmcreate_none : ∀ s s', x.uvmcreate s = (none, s') → free s' = free s
  uvmcreate_some : ∀ s t s', x.uvmcreate s = (some t, s') →
    free s' + held s' t = free s ∧ (∀ va, ¬mapped s' t va) ∧ size s' t = 0
  /-- Pages for the table's own nodes stay with it, also on failure. -/
  mappages : ∀ t va pa perm s ok s', x.mappages t va pa perm s = (ok, s') → ¬mapped s t va →
    free s' + held s' t = free s + held s t ∧ size s' t = size s t ∧
    ∀ va', mapped s' t va' ↔ mapped s t va' ∨ ok = true ∧ va' = va
  uvmunmap : ∀ t va s, mapped s t va →
    free (x.uvmunmap t va s) = free s ∧ held (x.uvmunmap t va s) t = held s t ∧
    size (x.uvmunmap t va s) t = size s t ∧
    ∀ va', mapped (x.uvmunmap t va s) t va' ↔ mapped s t va' ∧ va' ≠ va
  uvmfree : ∀ t sz s, (∀ va, ¬mapped s t va) → size s t = sz →
    free (x.uvmfree t sz s) = free s + held s t
  /-- On failure the copied memory is gone again. -/
  uvmcopy : ∀ old new sz s ok s', x.uvmcopy old new sz s = (ok, s') → size s new = 0 →
    free s' + held s' new = free s + held s new ∧ (∀ va, mapped s' new va ↔ mapped s new va) ∧
    size s' new = if ok then sz else 0

/-- The kernel, as far as `fork` reads and writes it. -/
structure Sys (σ φ : Type) where
  mem : Mem
  nextpid : Int
  user : Slot → User
  phys : σ
  files : φ

namespace Sys

variable {σ φ : Type} (w : Sys σ φ)

@[simps] def write (p : Slot) (f : Proc → Proc) : Sys σ φ := { w with mem := w.mem.modify p f }

@[simps] def setPhys (s : σ) : Sys σ φ := { w with phys := s }

@[simps] def setFiles (f : φ) : Sys σ φ := { w with files := f }

/-- Change what a slot holds on to. -/
@[simps] def hold (p : Slot) (f : User → User) : Sys σ φ :=
  { w with user := Function.update w.user p (f (w.user p)) }

end Sys

/-- Follow a pointer. -/
def load {α : Type} : Option α → Except Fault α
  | some x => .ok x
  | none => .error .nullDeref

section

variable {σ φ : Type} (x : Vm σ)

/-- `allocpid`. -/
def allocpid (w : Sys σ φ) : Int × Sys σ φ :=
  (w.nextpid, { w with nextpid := int32 (w.nextpid + 1) })

/-- `proc_pagetable`. -/
def procPagetable (u : User) (s : σ) : Option Table × σ :=
  match x.uvmcreate s with
  | (none, s) => (none, s)
  | (some pagetable, s) =>
      match x.mappages pagetable .TRAMPOLINE .trampoline .rx s with
      | (false, s) => (none, x.uvmfree pagetable 0 s)
      | (true, s) =>
          match x.mappages pagetable .TRAPFRAME (.trapframe (u.trapframe.map (·.page))) .rw s with
          | (false, s) => (none, x.uvmfree pagetable 0 (x.uvmunmap pagetable .TRAMPOLINE s))
          | (true, s) => (some pagetable, s)

/-- `proc_freepagetable`. -/
def procFreepagetable (pagetable : Table) (sz : Nat) (s : σ) : σ :=
  x.uvmfree pagetable sz (x.uvmunmap pagetable .TRAPFRAME (x.uvmunmap pagetable .TRAMPOLINE s))

/-- `freeproc`: the pages. -/
def freePages (u : User) (s : σ) : σ :=
  let s := match u.trapframe with
    | some trapframe => x.kfree trapframe.page s
    | none => s
  match u.pagetable with
  | some pagetable => procFreepagetable x pagetable u.sz s
  | none => s

/-- `freeproc`. -/
def freeproc (w : Sys σ φ) (p : Slot) : Sys σ φ :=
  let w := w.setPhys (freePages x (w.user p) w.phys)
  let w := w.hold p fun u => { u with trapframe := none, pagetable := none, sz := 0 }
  w.write p Write.free.apply

/-- `allocproc` after `found`. -/
def allocFound (w : Sys σ φ) (p : Slot) : Option Slot × Sys σ φ :=
  let (pid, w) := allocpid w
  let w := w.write p (Write.pid pid).apply
  let w := w.write p Write.used.apply
  match x.kalloc w.phys with
  | (none, s) =>
      let w := (w.setPhys s).hold p fun u => { u with trapframe := none }
      (none, freeproc x w p)
  | (some page, s) =>
      let w := (w.setPhys s).hold p fun u =>
        { u with trapframe := some ⟨page, x.contents s page⟩ }
      match procPagetable x (w.user p) w.phys with
      | (none, s) =>
          let w := (w.setPhys s).hold p fun u => { u with pagetable := none }
          (none, freeproc x w p)
      | (some pagetable, s) =>
          let w := (w.setPhys s).hold p fun u => { u with pagetable := some pagetable }
          (some p, w.write p Proc.init)

/-- The loop of `allocproc`. -/
def allocFrom (w : Sys σ φ) : List Slot → Option Slot × Sys σ φ
  | [] => (none, w)
  | p :: ps => if (w.mem.proc p).state = .unused then allocFound x w p else allocFrom w ps

/-- `allocproc`. -/
def allocproc (w : Sys σ φ) : Option Slot × Sys σ φ := allocFrom x w slots

/-- In `fork`: the loop over the open files, from those in `fds` on. -/
def dupFiles (y : Fs φ) (p np : Slot) (w : Sys σ φ) : List (Fin NOFILE) → Sys σ φ
  | [] => w
  | i :: fds =>
      match (w.user p).ofile i with
      | some f =>
          let (f', files) := y.filedup f w.files
          let w := (w.setFiles files).hold np fun u =>
            { u with ofile := Function.update u.ofile i (some f') }
          dupFiles y p np w fds
      | none => dupFiles y p np w fds

/-- `fork` after the memory has been copied. -/
def forkCopied (y : Fs φ) (w : Sys σ φ) (p np : Slot) : Except Fault (Int × Sys σ φ) := do
  let w := w.hold np fun u => { u with sz := (w.user p).sz }
  let trapframe ← load (w.user p).trapframe
  let own ← load (w.user np).trapframe
  let w := w.hold np fun u => { u with trapframe := some { own with regs := trapframe.regs } }
  let w := w.hold np fun u =>
    { u with trapframe := some { own with regs := Function.update trapframe.regs Regs.A0 0 } }
  let w := dupFiles y p np w (List.finRange NOFILE)
  let dir ← load (w.user p).cwd
  let (cwd, files) := y.idup dir w.files
  let w := (w.setFiles files).hold np fun u => { u with cwd := some cwd }
  let pid := (w.mem.proc np).pid
  let w := w.write np (Write.parent (some p)).apply
  let w := w.write np Write.ready.apply
  let mem ← insertProcess (calculateWight loopFuel) w.mem np
  return (pid, { w with mem := mem })

/-- `fork`. -/
def fork (y : Fs φ) (w : Sys σ φ) (p : Slot) : Except Fault (Int × Sys σ φ) :=
  match allocproc x w with
  | (none, w) => .ok (-1, w)
  | (some np, w) => do
      let old ← load (w.user p).pagetable
      let new ← load (w.user np).pagetable
      match x.uvmcopy old new (w.user p).sz w.phys with
      | (false, s) => .ok (-1, freeproc x (w.setPhys s) np)
      | (true, s) => forkCopied y (w.setPhys s) p np

end

end Xv6Cfs.Alone
