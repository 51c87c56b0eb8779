import Xv6Cfs.Threads.Prog

/-!
# What a program can do

A thread may be watched from outside: it issues its instructions in turn, gets an
answer to each, and ends with a value. `Outcome` says which sequences of such
events a program can go through. The machine is not mentioned; what happens between
two events is left open, and an event may carry more than the instruction and its
answer.

A procedure is replaced by a summary of what its calls can do. A summary that its
bodies bear out may be used for calls of any depth.
-/

namespace Threads

variable {I : Type} {R : I → Type} {F V α β E : Type}

/-- From the events `L` the program can get the value `b`, its calls doing what `S` says. -/
def Outcome (ev : E → Sigma R) (S : F → List E → V → Prop) :
    Prog I R F V α → List E → α → Prop
  | .ret a, L, b => L = [] ∧ b = a
  | .instr i k, L, b => ∃ e L' r, L = e :: L' ∧ ev e = ⟨i, r⟩ ∧ Outcome ev S (k r) L' b
  | .call f k, L, b => ∃ v L₁ L₂, L = L₁ ++ L₂ ∧ S f L₁ v ∧ Outcome ev S (k v) L₂ b

variable {ev : E → Sigma R} {S : F → List E → V → Prop} {L : List E}

@[simp] theorem outcome_pure (a b : α) :
    Outcome ev S (pure a : Prog I R F V α) L b ↔ L = [] ∧ b = a := Iff.rfl

@[simp] theorem outcome_instr (i : I) (k : R i → Prog I R F V α) (b : α) :
    Outcome ev S (.instr i k) L b ↔
      ∃ e L' r, L = e :: L' ∧ ev e = ⟨i, r⟩ ∧ Outcome ev S (k r) L' b := Iff.rfl

@[simp] theorem outcome_call (f : F) (k : V → Prog I R F V α) (b : α) :
    Outcome ev S (.call f k) L b ↔
      ∃ v L₁ L₂, L = L₁ ++ L₂ ∧ S f L₁ v ∧ Outcome ev S (k v) L₂ b := Iff.rfl

@[simp] theorem outcome_issue (i : I) (r : R i) :
    Outcome ev S (Prog.issue i : Prog I R F V (R i)) L r ↔ ∃ e, L = [e] ∧ ev e = ⟨i, r⟩ := by
  constructor
  · rintro ⟨e, L', r', rfl, he, rfl, rfl⟩
    exact ⟨e, rfl, he⟩
  · rintro ⟨e, rfl, he⟩
    exact ⟨e, [], r, rfl, he, rfl, rfl⟩

@[simp] theorem outcome_invoke (f : F) (v : V) :
    Outcome ev S (Prog.invoke f : Prog I R F V V) L v ↔ S f L v := by
  constructor
  · rintro ⟨v', L₁, L₂, rfl, h, rfl, rfl⟩
    rwa [List.append_nil]
  · intro h
    exact ⟨v, L, [], (List.append_nil L).symm, h, rfl, rfl⟩

/-- **One program after another: the events follow each other.** -/
theorem outcome_bind (x : Prog I R F V α) (f : α → Prog I R F V β) (b : β) :
    Outcome ev S (x >>= f) L b ↔
      ∃ a L₁ L₂, L = L₁ ++ L₂ ∧ Outcome ev S x L₁ a ∧ Outcome ev S (f a) L₂ b := by
  induction x generalizing L with
  | ret a =>
      constructor
      · intro h
        exact ⟨a, [], L, rfl, ⟨rfl, rfl⟩, h⟩
      · rintro ⟨a', L₁, L₂, rfl, ⟨rfl, rfl⟩, h⟩
        exact h
  | instr i k ih =>
      constructor
      · rintro ⟨e, L', r, rfl, he, h⟩
        obtain ⟨a, L₁, L₂, rfl, h₁, h₂⟩ := (ih r).mp h
        exact ⟨a, e :: L₁, L₂, rfl, ⟨e, L₁, r, rfl, he, h₁⟩, h₂⟩
      · rintro ⟨a, L₁, L₂, rfl, ⟨e, L', r, rfl, he, h₁⟩, h₂⟩
        exact ⟨e, L' ++ L₂, r, rfl, he, (ih r).mpr ⟨a, L', L₂, rfl, h₁, h₂⟩⟩
  | call g k ih =>
      constructor
      · rintro ⟨v, K₁, K₂, rfl, hS, h⟩
        obtain ⟨a, L₁, L₂, rfl, h₁, h₂⟩ := (ih v).mp h
        exact ⟨a, K₁ ++ L₁, L₂, (List.append_assoc ..).symm, ⟨v, K₁, L₁, rfl, hS, h₁⟩, h₂⟩
      · rintro ⟨a, L₁, L₂, rfl, ⟨v, K₁, K₂, rfl, hS, h₁⟩, h₂⟩
        exact ⟨v, K₁, K₂ ++ L₂, List.append_assoc .., hS, (ih v).mpr ⟨a, K₂, L₂, rfl, h₁, h₂⟩⟩

/-- The bodies of the procedures bear out the summary. -/
def Summary (ev : E → Sigma R) (S : F → List E → V → Prop) (body : F → Prog I R F V V) : Prop :=
  ∀ f L v, Outcome ev S (body f) L v → S f L v

/-- **What a body does, the call does.** -/
theorem Summary.call {body : F → Prog I R F V V} (h : Summary ev S body) {f : F}
    {k : V → Prog I R F V α} {b : α} (hb : Outcome ev S (body f >>= k) L b) :
    Outcome ev S (.call f k) L b := by
  obtain ⟨v, L₁, L₂, rfl, h₁, h₂⟩ := (outcome_bind _ _ _).mp hb
  exact ⟨v, L₁, L₂, rfl, h f L₁ v h₁, h₂⟩

/-! ## Programs that issue certain instructions only -/

/-- All that the program can issue meets `C`, and all it can call meets `D`. -/
def Prog.Only (C : I → Prop) (D : F → Prop) : Prog I R F V α → Prop
  | .ret _ => True
  | .instr i k => C i ∧ ∀ r, (k r).Only C D
  | .call f k => D f ∧ ∀ v, (k v).Only C D

namespace Prog

variable {C : I → Prop} {D : F → Prop}

@[simp] theorem only_pure (a : α) : (pure a : Prog I R F V α).Only C D := trivial

@[simp] theorem only_issue (i : I) : (issue i : Prog I R F V (R i)).Only C D ↔ C i :=
  ⟨fun h => h.1, fun h => ⟨h, fun _ => trivial⟩⟩

@[simp] theorem only_invoke (f : F) : (invoke f : Prog I R F V V).Only C D ↔ D f :=
  ⟨fun h => h.1, fun h => ⟨h, fun _ => trivial⟩⟩

theorem Only.bind {x : Prog I R F V α} {f : α → Prog I R F V β} (hx : x.Only C D)
    (hf : ∀ a, (f a).Only C D) : (x >>= f).Only C D := by
  induction x with
  | ret a => exact hf a
  | instr i k ih => exact ⟨hx.1, fun r => ih r (hx.2 r)⟩
  | call g k ih => exact ⟨hx.1, fun v => ih v (hx.2 v)⟩

end Prog

/-- **Of what can be issued are the events.** -/
theorem Outcome.only {C : I → Prop} {D : F → Prop} {x : Prog I R F V α} {a : α}
    (hx : Outcome ev S x L a) (h : x.Only C D)
    (hS : ∀ f L v, D f → S f L v → ∀ e ∈ L, C (ev e).1) : ∀ e ∈ L, C (ev e).1 := by
  induction x generalizing L with
  | ret b =>
      obtain ⟨rfl, -⟩ := hx
      simp
  | instr i k ih =>
      obtain ⟨e, L', r, rfl, he, hx⟩ := hx
      intro e' he'
      rcases List.mem_cons.mp he' with rfl | he'
      · rw [he]
        exact h.1
      · exact ih r hx (h.2 r) e' he'
  | call f k ih =>
      obtain ⟨v, L₁, L₂, rfl, hf, hx⟩ := hx
      intro e' he'
      rcases List.mem_append.mp he' with he' | he'
      · exact hS f L₁ v h.1 hf e' he'
      · exact ih v hx (h.2 v) e' he'

end Threads
