import Xv6Cfs.Proof.Frozen

/-!
# What the run queue serves

Whatever the CPUs do at the same time, the run queue answers like one stable priority queue
that is called by one caller after the other: its two bodies run under `tree.lock`, and no
other code touches the key of a queued process.
-/

namespace Xv6Cfs

open RedBlack StableQueue

variable {n : Nat} {k k' : Kernel n} {ℓ ℓ' : Ledger n} {V : Thread n → View} {c : Fin n}
  {tr : ColorTree Slot} {σ : Slot → Sit n} {p q : Slot} {e : Env} {i : Instr} {r : Answer i}
  {calls : List (Call Int Slot)}

/-- Only `retrieveProcess` gives a scheduler a process. -/
theorem Ledger.retrieved_before {c' : Fin n} (hret : i ≠ .retrieve)
    (h : (ℓ.record k k' c i r).retrieved c' = some q) : ℓ.retrieved c' = some q := by
  cases i with
  | retrieve => exact absurd rfl hret
  | acquire l | release l => cases l <;> exact h
  | write p w =>
      cases w with
      | free =>
          simp only [Ledger.record, Ledger.recordWrite] at h
          split_ifs at h <;> exact h
      | _ => exact h
  | dispatch p =>
      simp only [Ledger.record, Ledger.modify_retrieved, Ledger.setRetrieved_retrieved] at h
      by_cases hc : c' = c
      · subst hc
        simp at h
      · rwa [Function.update_of_ne hc] at h
  | user =>
      simp only [Ledger.record] at h
      split at h <;> exact h
  | _ => exact h

theorem Ledger.recordInterrupt_retrieved (me : Option Slot) (j : Interrupt) :
    (ℓ.recordInterrupt me j).retrieved = ℓ.retrieved := by
  unfold Ledger.recordInterrupt
  split <;> rfl

/-! ## One call after the other -/

theorem Base.keyedQueue_eq (hb : Base k V tr σ) : keyedQueue k.mem = entries k.mem tr := by
  unfold keyedQueue entries
  rw [hb.queue.rep.queue_eq]

/-- No other instruction touches a key in the queue. -/
theorem Base.keyedQueue_execute (hb : Base k V tr σ)
    (hpre : instrPre (k.running c) i (V (k.thread c))) (hex : execute k c e i = some (k', r))
    (hins : ∀ p, i ≠ .insert p) (hret : i ≠ .retrieve) : keyedQueue k'.mem = keyedQueue k.mem := by
  unfold keyedQueue
  rw [queue_execute hb hpre hex hins hret]
  refine List.map_congr_left fun p hp => ?_
  have hst : (k.mem.proc p).state = .runnable := by
    rw [hb.queue.rep.queue_eq] at hp
    exact hb.queue.rep.runnable p hp
  obtain ⟨hkey, -⟩ := noted_execute (ℓ := Ledger.empty n) hb hpre hex hst (hins p)
  rw [hkey]

/-- What an instruction does to the queue is what the call does that it makes. -/
theorem Base.replay_execute (hb : Base k V tr σ)
    (hpre : instrPre (k.running c) i (V (k.thread c))) (hi : k.issued c = some i)
    (hex : execute k c e i = some (k', r)) (h : replay [] calls = some (keyedQueue k.mem)) :
    replay [] (calls ++ k.queueCall (.exec c e)) = some (keyedQueue k'.mem) := by
  by_cases hins : ∃ p, i = .insert p
  · obtain ⟨p, rfl⟩ := hins
    obtain ⟨m', tr', rfl, hput, hq⟩ := hb.insert_cases hpre.2 hex
    have hcall : k.queueCall (.exec c e) = [.insert (k.mem.proc p).virtualRuntime p] := by
      simp [Kernel.queueCall, hi]
    have hnew : keyedQueue (k.setMem m').mem = entries m' tr' := by
      unfold keyedQueue entries
      rw [Kernel.setMem_mem, hput.rep.queue_eq]
    rw [hcall, hnew, replay_append, h, hb.keyedQueue_eq,
      entries_congr fun q _ => hput.virtualRuntime q]
    simp only [entries, hput.toList]
    exact congrArg some (push_map (fun q => (k.mem.proc q).virtualRuntime) p tr.toList)
  push Not at hins
  by_cases hret : i = .retrieve
  · subst hret
    have hanswer : (retrieveProcessLocked k.mem).toOption.bind Prod.snd = r := by
      cases hrun : retrieveProcessLocked k.mem with
      | error x => simp [execute, hrun] at hex
      | ok x =>
          simp only [execute, hrun, Option.some.injEq, Prod.mk.injEq] at hex
          exact hex.2
    have hcall : k.queueCall (.exec c e) = [.retrieve r] := by
      simp [Kernel.queueCall, hi, hanswer]
    rw [hcall, replay_append, h, hb.keyedQueue_eq]
    rcases hb.retrieve_cases hex with ⟨hnil, rfl, rfl⟩ | ⟨p, m', tr', rfl, rfl, hgot, hq⟩
    · simp [hb.keyedQueue_eq, entries, hnil, Call.run]
    · have hnew : keyedQueue (k.setMem m').mem = entries m' tr' := by
        unfold keyedQueue entries
        rw [Kernel.setMem_mem, hgot.rep.queue_eq]
      rw [hnew, entries_congr fun q _ => hgot.virtualRuntime q]
      simp [entries, hgot.toList, Call.run, pop]
  · have hcall : k.queueCall (.exec c e) = [] := by
      cases i with
      | insert p => exact absurd rfl (hins p)
      | retrieve => exact absurd rfl hret
      | _ => simp [Kernel.queueCall, hi]
    rw [hcall, List.append_nil, hb.keyedQueue_execute hpre hex hins hret, h]

/--
**The run queue of any number of CPUs is one stable priority queue.** Whatever the
interleaving, the calls of `insertProcess` and `retrieveProcess` have, in the order in which
they got `tree.lock`, the answers of a list that is kept sorted by the key, first come first
served; and that list is what is in the tree.
-/
theorem served_refines {k : Kernel n} {ℓ : Ledger n} {calls : List (Call Int Slot)}
    (h : Served k ℓ calls) :
    replay [] calls = some (keyedQueue k.mem) ∧ (queue k.mem).Perm (pending calls) := by
  have hreplay : replay [] calls = some (keyedQueue k.mem) := by
    induction h with
    | init =>
        have hb := base_boot n false
        rw [hb.keyedQueue_eq]
        rfl
    | @tail k k' ℓ ℓ' mv calls h hs ih =>
        obtain ⟨V, hV⟩ := h.run.traced false
        have hcore := core_traced spared_false hV
        obtain ⟨tr, σ, hb⟩ := hcore.base
        obtain ⟨V', hstep⟩ := viewStep_of_step hs V
        cases hstep with
        | interrupt hi hoff =>
            rw [Kernel.queueCall, List.append_nil]
            exact ih
        | @call c e f next hcode =>
            have hissued : k.issued c = none := by simp [Kernel.issued, hcode]
            rw [Kernel.queueCall, hissued, List.append_nil]
            exact ih
        | @instr c e i next k₁ r hcode hex =>
            have hissued : k.issued c = some i := by simp [Kernel.issued, hcode]
            have hnext := hb.replay_execute (hcore.pre hcode) hissued hex ih
            exact hnext
  refine ⟨hreplay, ?_⟩
  simpa [keyedQueue, Function.comp_def] using perm_pending hreplay

/-- A step, with the calls up to it. -/
def tend (s : (Kernel n × Ledger n) × List (Call Int Slot)) (mv : Move n × Thread n × Option Slot) :
    Option ((Kernel n × Ledger n) × List (Call Int Slot)) :=
  (stepAs s.1.1 s.1.2 mv.2.1 mv.2.2 mv.1).map (·, s.2 ++ s.1.1.queueCall mv.1)

theorem Served.foldlM {s s' : (Kernel n × Ledger n) × List (Call Int Slot)}
    {mvs : List (Move n × Thread n × Option Slot)} (h : Served s.1.1 s.1.2 s.2)
    (hs : mvs.foldlM tend s = some s') : Served s'.1.1 s'.1.2 s'.2 := by
  induction mvs generalizing s with
  | nil =>
      obtain rfl : s = s' := by simpa using hs
      exact h
  | cons mv mvs ih =>
      rw [List.foldlM_cons] at hs
      obtain ⟨s₁, h₁, hs⟩ := Option.bind_eq_some_iff.mp hs
      obtain ⟨s', hstep, rfl⟩ := Option.map_eq_some_iff.mp h₁
      exact ih (h.tail (step_of_stepAs hstep)) hs

/-- The child runs on `b` when the first process is inserted again on `a`. -/
def servedMoves (a b : Fin 2) : List (Move 2 × Thread 2 × Option Slot) :=
  rouseMoves a b ++ stretch 1 a (.cpu a) {}

/-- What is called: three insertions, and two retrievals. -/
def servedCalls : List (Call Int Slot) :=
  [.insert 0 0, .retrieve (some 0), .insert 0 1, .retrieve (some 1), .insert 1 0]

theorem servedMoves_spec : ((servedMoves 0 1).foldlM tend ((boot 2, Ledger.empty 2), [])).any
    (fun s => s.2 = servedCalls ∧ queue s.1.1.mem = [0]) := by
  decide +kernel

/-- The first process is queued with its charge after its child has been run. -/
theorem served_refines_first : ∃ (k : Kernel 2) (ℓ : Ledger 2), Served k ℓ servedCalls ∧
    queue k.mem = [0] ∧ replay [] servedCalls = some (keyedQueue k.mem) ∧
    (queue k.mem).Perm (pending servedCalls) := by
  obtain ⟨s, hs, hspec⟩ := (Option.any_eq_true _ _).mp servedMoves_spec
  obtain ⟨hcalls, hqueue⟩ := of_decide_eq_true hspec
  have hserved := Served.foldlM .init hs
  rw [hcalls] at hserved
  exact ⟨s.1.1, s.1.2, hserved, hqueue, served_refines hserved⟩

end Xv6Cfs
