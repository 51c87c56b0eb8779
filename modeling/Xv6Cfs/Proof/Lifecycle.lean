import Xv6Cfs.Proof.Reaping
import Xv6Cfs.Proof.Sleepers

/-!
# The life of a process

The state of a process changes along the edges of one diagram only, under its lock, and each
edge is taken by those who may take it: a process leaves the CPU by itself, is woken by
somebody else, ends when nobody is its child any more, and is freed by its parent.
-/

namespace Xv6Cfs

open RedBlack

variable {n : Nat} {k k' : Kernel n} {ℓ ℓ' : Ledger n} {V : Thread n → View} {c : Fin n}
  {tr : ColorTree Slot} {σ : Slot → Sit n} {p q : Slot} {e : Env} {i : Instr} {r : Answer i}

/-- An assignment that changes the state of a process. -/
theorem transition_write (hb : Base k V tr σ) (hpar : Parents k V) {w : Write}
    (hpre : writePre (k.running c) (V (k.thread c)) p w)
    (hne : (w.apply (k.mem.proc p)).state ≠ (k.mem.proc p).state) :
    k.lock (.proc p) = some c ∧
      Transition k c p (k.mem.proc p).state (w.apply (k.mem.proc p)).state := by
  have hlock : ∀ {l : Lock}, l ∈ (V (k.thread c)).held → k.lock l = some c := fun {l} hl =>
    (hb.locking.lock l c).mpr hl
  have hrun : k.running c = some p → (V (k.thread c)).on = true →
      (k.mem.proc p).state = .running := fun hme hon =>
    hb.sits.running_state hme (Kernel.thread_eq_proc.mpr hme ▸ hon)
  cases w with
  | fold =>
      obtain ⟨hheld, hon, -, hs | ⟨hme, -⟩⟩ := hpre
      · have hst := hb.sits.seen c p _ hs
        refine ⟨hlock hheld, ?_⟩
        rw [hst]
        refine .wake fun hme => ?_
        rw [hrun hme hon] at hst
        cases hst
      · rw [hrun hme hon]
        exact ⟨hlock hheld, .yield hme⟩
  | sleep chan =>
      obtain ⟨hheld, hon, hme, -⟩ := hpre
      rw [hrun hme hon]
      exact ⟨hlock hheld, .sleep hme⟩
  | exit status =>
      obtain ⟨⟨hheld, hon, hme, -⟩, -, hroot, hwait, hchildless, -⟩ := hpre
      have hinit := hb.ancestry.root p (hb.sits.born_of_running hme)
      rw [← Kernel.thread_eq_proc.mpr hme] at hinit
      have hno : ∀ q, (k.mem.proc q).parent ≠ some p := fun q hq => by
        obtain ⟨x, hx, hne⟩ := hchildless q
        exact hne ((hpar.known _ q x hx).2.symm.trans hq)
      rw [hrun hme hon]
      refine ⟨hlock hheld, .exit hme (hlock hwait) (fun hp => hroot ?_) hno⟩
      exact Option.some.inj (hinit.symm.trans hp)
  | used =>
      obtain ⟨⟨hheld, -, hs⟩, -⟩ := hpre
      rw [hb.sits.seen c p _ hs]
      exact ⟨hlock hheld, .alloc⟩
  | ready =>
      obtain ⟨hheld, -, hhead⟩ := hpre
      rw [hb.used_of_head hhead]
      exact ⟨hlock hheld, .ready⟩
  | free =>
      obtain ⟨hheld, -, ⟨hs, hwait, hsome, hmem⟩ | ⟨-, g, -, hhead⟩⟩ := hpre
      · obtain ⟨q, hq⟩ := Option.isSome_iff_exists.mp hsome
        rw [hb.sits.seen c p _ hs]
        exact ⟨hlock hheld, .reap ⟨q, hq, hq ▸ (hpar.known _ p _ hmem).2⟩ (hlock hwait)⟩
      · rw [hb.used_of_head hhead]
        exact ⟨hlock hheld, .giveBack⟩
  | _ => exact absurd rfl hne

namespace Lifecycle

theorem of_mem (hmem : k'.mem = k.mem) : Lifecycle k k' c :=
  ⟨fun p _ h => absurd (by rw [hmem]) h, fun p h => absurd (by rw [hmem]) h⟩

theorem execute (hb : Base k V tr σ) (hpar : Parents k V)
    (hpre : instrPre (k.running c) i (V (k.thread c))) (hex : execute k c e i = some (k', r)) :
    Lifecycle k k' c := by
  have hcases : ∀ p, (k'.mem.proc p).state ≠ (k.mem.proc p).state →
      (∃ w, i = .write p w ∧ k'.mem.proc p = w.apply (k.mem.proc p)) ∨
        i = .dispatch p ∧ (k.mem.proc p).state = .runnable ∧ (k'.mem.proc p).state = .running := by
    intro p hne
    rcases proc_execute hb hpre hex p with hsame | hw | ⟨⟨hi, hst⟩, hrun⟩
    · exact absurd (congrArg (·.1.1) hsame) hne
    · exact .inl hw
    · exact .inr ⟨hi, hst, by rw [hrun]; rfl⟩
  refine ⟨fun p q hp hq => ?_, fun p hp => ?_⟩
  · rcases hcases p hp with ⟨w, rfl, -⟩ | ⟨rfl, -⟩ <;>
      rcases hcases q hq with ⟨w', hw', -⟩ | ⟨hw', -⟩ <;> cases hw' <;> rfl
  · rcases hcases p hp with ⟨w, rfl, happly⟩ | ⟨rfl, hst, hrun⟩
    · rw [happly] at hp ⊢
      exact transition_write hb hpar hpre hp
    · obtain ⟨hme, hheld, hretrieved, -⟩ := hpre
      have hσ := (hb.sits.retrieved c p).mp (Kernel.thread_eq_cpu.mpr ⟨hme, rfl⟩ ▸ hretrieved)
      have hout : p ∉ queue k.mem := by
        rw [hb.queue.rep.queue_eq]
        exact hb.sits.not_queued (by simp [hσ])
      rw [hst, hrun]
      exact ⟨(hb.locking.lock _ c).mpr (by simp [hheld]), .dispatch hme hout⟩

end Lifecycle

/-- **The state of a process changes along the edges of one diagram.** -/
theorem lifecycle {k k' : Kernel n} {ℓ ℓ' : Ledger n} {mv : Move n} (h : Run k ℓ)
    (hs : step k ℓ mv = some (k', ℓ')) : Lifecycle k k' mv.cpu := by
  obtain ⟨V, hV⟩ := h.traced false
  have hcore := core_traced spared_false hV
  have hpar := parents_traced spared_false hV
  obtain ⟨tr, σ, hb⟩ := hcore.base
  obtain ⟨V', hstep⟩ := viewStep_of_step hs V
  cases hstep with
  | call hcode | interrupt hi hnoff => exact .of_mem rfl
  | instr hcode hex =>
      obtain ⟨hone, hchange⟩ := Lifecycle.execute hb hpar (hcore.pre hcode) hex
      exact ⟨hone, hchange⟩

/-- The first process is put on the CPU `b` of three, for the first time. -/
def startMoves (a b : Fin 3) : List (Move 3 × Thread 3 × Option Slot) :=
  stretch 18 a (.cpu a) {} ++ stretch 3 b (.cpu b) {} ++ fetch b 0 ++ stretch 6 b (.cpu b) {}

theorem startMoves_spec : (execAs (boot 3, Ledger.empty 3) (startMoves 0 1)).any (fun s =>
    (stepAs s.1 s.2 (.cpu 1) none (.exec 1 {})).any fun s' =>
      (s.1.mem.proc 0).state = .runnable ∧ (s'.1.mem.proc 0).state = .running) := by
  decide +kernel

theorem lifecycle_first : ∃ k k' : Kernel 3, (k.mem.proc 0).state = .runnable ∧
    (k'.mem.proc 0).state = .running ∧ Lifecycle k k' 1 := by
  obtain ⟨s, hs, hspec⟩ := (Option.any_eq_true _ _).mp startMoves_spec
  obtain ⟨s', hs', hspec'⟩ := (Option.any_eq_true _ _).mp hspec
  obtain ⟨hbefore, hafter⟩ := of_decide_eq_true hspec'
  exact ⟨s.1, s'.1, hbefore, hafter, lifecycle (run_execAs .init hs) (step_of_stepAs hs')⟩

end Xv6Cfs
