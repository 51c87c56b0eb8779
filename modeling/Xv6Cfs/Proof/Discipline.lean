import Xv6Cfs.Proof.Reaping

/-!
# Which lock protects what

A CPU changes nothing but what a lock that it holds protects. `proc.h` says so of the
fields from `state` to `parent`; the fields of the scheduler are listed there among those
that are private to the process, which they are not: `wakeup` and `kill` fold the run of
another process into its key, under its lock.
-/

namespace Xv6Cfs

open RedBlack

variable {n : Nat} {k k' : Kernel n} {ℓ ℓ' : Ledger n} {V : Thread n → View} {c : Fin n}
  {tr : ColorTree Slot} {σ : Slot → Sit n} {p q : Slot} {e : Env} {i : Instr} {r : Answer i}

namespace Protected

theorem refl (k : Kernel n) (c : Fin n) (p : Slot) : Protected k c p (k.mem.proc p) where
  guarded h := absurd rfl h
  parent h := absurd rfl h
  key h := absurd rfl h
  run h := absurd rfl h
  slice h := absurd rfl h
  nice := rfl
  linked h := absurd rfl h

/-- Who holds the lock of `p` leaves it its parent, its slice and its links. -/
theorem of_lock {x : Proc} (hl : k.lock (.proc p) = some c)
    (hparent : x.parent ≠ (k.mem.proc p).parent → k.lock .wait = some c)
    (hslice : x.maxExecutionTime ≠ (k.mem.proc p).maxExecutionTime → (k.mem.proc p).state = .used)
    (hnice : x.niceVal = (k.mem.proc p).niceVal) (hlinked : x.linked = (k.mem.proc p).linked) :
    Protected k c p x where
  guarded _ := hl
  parent := hparent
  key _ := hl
  run _ := .inl hl
  slice h := .inr ⟨hl, hslice h⟩
  nice := hnice
  linked h := absurd hlinked h

/-- Who holds `tree.lock` changes what the queue keeps in a slot. -/
theorem of_tree {x : Proc} (hl : k.lock .tree = some c)
    (hsame : ∀ {β : Type} (f : Proc → β), (∀ x, f x.unlinked = f x) →
      (∀ x d, f (x.setWeightVal d) = f x) → (∀ x d, f (x.setMaxExecutionTime d) = f x) →
      f x = f (k.mem.proc p)) : Protected k c p x where
  guarded h := absurd (hsame Proc.guarded (fun _ => rfl) (fun _ _ => rfl) fun _ _ => rfl) h
  parent h := absurd (hsame Proc.parent (fun _ => rfl) (fun _ _ => rfl) fun _ _ => rfl) h
  key h := absurd (hsame Proc.virtualRuntime (fun _ => rfl) (fun _ _ => rfl) fun _ _ => rfl) h
  run h := absurd (hsame Proc.currentRuntime (fun _ => rfl) (fun _ _ => rfl) fun _ _ => rfl) h
  slice _ := .inl hl
  nice := hsame Proc.niceVal (fun _ => rfl) (fun _ _ => rfl) fun _ _ => rfl
  linked _ := hl

/-- **An assignment changes what a lock protects.** -/
theorem write (hb : Base k V tr σ) (hpar : Parents k V) {w : Write}
    (hpre : writePre (k.running c) (V (k.thread c)) p w) :
    Protected k c p (w.apply (k.mem.proc p)) := by
  have hlock : ∀ {l : Lock}, l ∈ (V (k.thread c)).held → k.lock l = some c := fun {l} hl =>
    (hb.locking.lock l c).mpr hl
  cases w with
  | parent q =>
      refine { refl k c p with parent := fun _ => hlock hpre.1 }
  | runtime d =>
      obtain ⟨hon, hme, -⟩ := hpre
      exact { refl k c p with
        run := fun _ =>
          .inr ⟨hme, hb.sits.running_state hme (Kernel.thread_eq_proc.mpr hme ▸ hon)⟩ }
  | free =>
      refine of_lock (hlock hpre.1) (fun hne => ?_) (fun h => absurd rfl h) rfl rfl
      rcases hpre.2.2 with ⟨-, hwait, -⟩ | ⟨-, g, hg, hhead⟩
      · exact hlock hwait
      · -- It has no parent yet.
        have hst := hb.used_of_head hhead
        refine absurd ?_ hne
        exact (hpar.parent_eq_none (fun hborn => hborn.2 hst)
          (not_adopted_of_head hb hg hhead)).symm
  | exit status | used =>
      exact of_lock (hlock hpre.1.1) (fun h => absurd rfl h) (fun h => absurd rfl h) rfl rfl
  | _ => exact of_lock (hlock hpre.1) (fun h => absurd rfl h) (fun h => absurd rfl h) rfl rfl

end Protected

namespace Disciplined

/-- A step that changes the slot `p` and nothing else. -/
theorem modify {f : Proc → Proc} (h : Protected k c p (f (k.mem.proc p)))
    (hmem : k'.mem = k.mem.modify p f) (hticks : k'.shared.ticks = k.shared.ticks)
    (hnextpid : k'.shared.nextpid = k.shared.nextpid)
    (hinit : k'.shared.initproc = k.shared.initproc) : Disciplined k k' c where
  proc q := by
    rw [hmem, Mem.modify_proc]
    split_ifs with hq
    · exact hq ▸ h
    · exact .refl k c q
  tree h := absurd (by rw [hmem]; rfl) h
  ticks h := absurd hticks h
  nextpid h := absurd hnextpid h
  initproc h := absurd hinit h

/-- A step that changes no process. -/
theorem of_mem (hmem : k'.mem = k.mem)
    (hticks : k'.shared.ticks ≠ k.shared.ticks → k.lock .ticks = some c)
    (hnextpid : k'.shared.nextpid ≠ k.shared.nextpid → k.lock .pid = some c)
    (hinit : k'.shared.initproc ≠ k.shared.initproc →
      k.shared.initproc = none ∧ ∀ c, k.running c = none) : Disciplined k k' c where
  proc q := hmem ▸ .refl k c q
  tree h := absurd (by rw [hmem]) h
  ticks := hticks
  nextpid := hnextpid
  initproc := hinit

theorem execute (hb : Base k V tr σ) (hpar : Parents k V)
    (hpre : instrPre (k.running c) i (V (k.thread c))) (hex : execute k c e i = some (k', r)) :
    Disciplined k k' c := by
  have hlock : ∀ {l : Lock}, l ∈ (V (k.thread c)).held → k.lock l = some c := fun {l} hl =>
    (hb.locking.lock l c).mpr hl
  have hrefl : Disciplined k k c :=
    of_mem rfl (fun h => absurd rfl h) (fun h => absurd rfl h) fun h => absurd rfl h
  cases i with
  | write p w =>
      simp only [Xv6Cfs.execute, Option.some.injEq, Prod.mk.injEq] at hex
      obtain ⟨rfl, -⟩ := hex
      exact modify (.write hb hpar hpre) rfl rfl rfl rfl
  | insert p =>
      obtain ⟨m', tr', rfl, hins, -⟩ := hb.insert_cases hpre.2 hex
      exact ⟨fun q => .of_tree (hlock hpre.1) fun f h1 h2 _ => hins.field f h1 h2 q,
        fun _ => hlock hpre.1, fun h => absurd rfl h, fun h => absurd rfl h,
        fun h => absurd rfl h⟩
  | retrieve =>
      rcases hb.retrieve_cases hex with ⟨-, rfl, rfl⟩ | ⟨p, m', tr', rfl, rfl, hret, -⟩
      · exact hrefl
      · exact ⟨fun q => .of_tree (hlock hpre.1) fun f h1 _ h3 => hret.field f h1 h3 q,
          fun _ => hlock hpre.1, fun h => absurd rfl h, fun h => absurd rfl h,
          fun h => absurd rfl h⟩
  | dispatch p =>
      simp only [Xv6Cfs.execute, Option.some.injEq, Prod.mk.injEq] at hex
      obtain ⟨rfl, -⟩ := hex
      have hl : k.lock (.proc p) = some c := hlock (by simp [hpre.2.1])
      refine modify (f := (Proc.setState · .running)) ?_ rfl rfl rfl rfl
      exact .of_lock hl (fun h => absurd rfl h) (fun h => absurd rfl h) rfl rfl
  | init p =>
      simp only [Xv6Cfs.execute, Option.some.injEq, Prod.mk.injEq] at hex
      obtain ⟨rfl, -⟩ := hex
      have hst := hb.used_of_head hpre.2
      have hout : p ∉ tr.toList := hb.not_queued (by simp [hst])
      refine modify (f := Proc.init) (.of_lock (hlock hpre.1) (fun h => absurd rfl h) (fun _ => hst)
        (hb.queue.nice p).symm ?_) rfl rfl rfl rfl
      -- A slot outside the queue has no children.
      simp only [Proc.linked, Proc.init, hb.queue.left p hout, hb.queue.right p hout]
  | tick =>
      simp only [Xv6Cfs.execute, Option.some.injEq, Prod.mk.injEq] at hex
      obtain ⟨rfl, -⟩ := hex
      exact of_mem rfl (fun _ => hlock hpre) (fun h => absurd rfl h) fun h => absurd rfl h
  | nextpid =>
      simp only [Xv6Cfs.execute, Option.some.injEq, Prod.mk.injEq] at hex
      obtain ⟨rfl, -⟩ := hex
      exact of_mem rfl (fun h => absurd rfl h) (fun _ => hlock hpre.1) fun h => absurd rfl h
  | initproc p =>
      simp only [Xv6Cfs.execute, Option.some.injEq, Prod.mk.injEq] at hex
      obtain ⟨rfl, -⟩ := hex
      have hnone := (hb.ancestry.starting _ hpre.2.1).1
      refine of_mem rfl (fun h => absurd rfl h) (fun h => absurd rfl h)
        fun _ => ⟨hnone, fun c' => ?_⟩
      by_contra hc
      obtain ⟨q, hq⟩ := Option.ne_none_iff_exists'.mp hc
      exact hb.ancestry.not_born hnone q (hb.sits.born_of_running hq)
  | acquire l | release l | switch p =>
      simp only [Xv6Cfs.execute, Option.ite_none_right_eq_some, Option.some.injEq,
        Prod.mk.injEq] at hex
      obtain ⟨-, rfl, -⟩ := hex
      exact of_mem rfl (fun h => absurd rfl h) (fun h => absurd rfl h) fun h => absurd rfl h
  | panic => simp [Xv6Cfs.execute] at hex
  | _ =>
      simp only [Xv6Cfs.execute, Option.some.injEq, Prod.mk.injEq] at hex
      obtain ⟨rfl, -⟩ := hex
      exact of_mem rfl (fun h => absurd rfl h) (fun h => absurd rfl h) fun h => absurd rfl h

end Disciplined

/-- **Whatever a CPU changes, it holds the lock that protects it.** -/
theorem disciplined {k k' : Kernel n} {ℓ ℓ' : Ledger n} {mv : Move n} (h : Run k ℓ)
    (hs : step k ℓ mv = some (k', ℓ')) : Disciplined k k' mv.cpu := by
  obtain ⟨V, hV⟩ := h.traced false
  have hcore := core_traced spared_false hV
  have hpar := parents_traced spared_false hV
  obtain ⟨tr, σ, hb⟩ := hcore.base
  obtain ⟨V', hstep⟩ := viewStep_of_step hs V
  cases hstep with
  | call hcode | interrupt hi hnoff =>
      exact .of_mem rfl (fun h => absurd rfl h) (fun h => absurd rfl h) fun h => absurd rfl h
  | instr hcode hex =>
      obtain ⟨h1, h2, h3, h4, h5⟩ := Disciplined.execute hb hpar (hcore.pre hcode) hex
      exact ⟨h1, h2, h3, h4, h5⟩

/-- On the CPU `a` of three: the first process has been made, and is to be inserted. -/
def makeMoves (a : Fin 3) : List (Move 3 × Thread 3 × Option Slot) := stretch 13 a (.cpu a) {}

theorem makeMoves_spec : (execAs (boot 3, Ledger.empty 3) (makeMoves 0)).any (fun s =>
    (step s.1 s.2 (.exec 0 {})).any fun s' => queue s.1.mem = [] ∧ queue s'.1.mem = [0]) := by
  decide +kernel

theorem disciplined_first : ∃ k k' : Kernel 3, queue k.mem = [] ∧ queue k'.mem = [0] ∧
    Disciplined k k' 0 := by
  obtain ⟨s, hs, hspec⟩ := (Option.any_eq_true _ _).mp makeMoves_spec
  obtain ⟨s', hs', hspec'⟩ := (Option.any_eq_true _ _).mp hspec
  obtain ⟨hempty, hfull⟩ := of_decide_eq_true hspec'
  exact ⟨s.1, s'.1, hempty, hfull, disciplined (run_execAs .init hs) hs'⟩

end Xv6Cfs
