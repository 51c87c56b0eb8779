import Mathlib.Data.List.Sort
import Mathlib.Data.List.Induction

/-!
# Stable priority queues

A stable priority queue is a list kept in order of its keys, where a newcomer
goes behind everything whose key is not larger than its own: among equal keys,
first come, first served.

`push` works on explicit entries, so that the queue is meaningful without
knowing where the keys come from; `insertBy` is the same insertion for labels
whose keys are given by a function.
-/

namespace StableQueue

variable {κ α : Type}

/-- A call on a queue together with its answer. -/
inductive Call (κ α : Type) where
  | insert (k : κ) (a : α)
  | retrieve (answer : Option α)
  deriving DecidableEq, Repr

section Pending

variable [DecidableEq α]

/-- What was inserted and not retrieved since, newest first. -/
def pending : List (Call κ α) → List α :=
  List.foldl (fun l c => match c with
    | .insert _ a => a :: l
    | .retrieve none => l
    | .retrieve (some a) => l.erase a) []

@[simp] theorem pending_insert (calls : List (Call κ α)) (k : κ) (a : α) :
    pending (calls ++ [.insert k a]) = a :: pending calls := by
  simp [pending]

@[simp] theorem pending_retrieve_none (calls : List (Call κ α)) :
    pending (calls ++ [.retrieve none]) = pending calls := by
  simp [pending]

@[simp] theorem pending_retrieve_some (calls : List (Call κ α)) (a : α) :
    pending (calls ++ [.retrieve (some a)]) = (pending calls).erase a := by
  simp [pending]

end Pending

variable [LinearOrder κ]

/-- Insert `a` behind every label whose key is not larger than its own. -/
def insertBy (key : α → κ) (a : α) (l : List α) : List α :=
  l.orderedInsert (fun x y => key x < key y) a

/-- Sorted by key, smallest first. -/
def SortedBy (key : α → κ) (l : List α) : Prop := l.Pairwise (fun x y => key x ≤ key y)

@[simp] theorem insertBy_nil (key : α → κ) (a : α) : insertBy key a [] = [a] := rfl

theorem insertBy_cons (key : α → κ) (a b : α) (l : List α) :
    insertBy key a (b :: l) = if key b ≤ key a then b :: insertBy key a l else a :: b :: l := by
  by_cases h : key a < key b
  · simp [insertBy, List.orderedInsert_cons, h]
  · simp [insertBy, List.orderedInsert_cons, h, not_lt.mp h]

theorem perm_insertBy (key : α → κ) (a : α) (l : List α) : (insertBy key a l).Perm (a :: l) :=
  List.perm_orderedInsert ..

@[simp] theorem mem_insertBy {key : α → κ} {a b : α} {l : List α} :
    b ∈ insertBy key a l ↔ b = a ∨ b ∈ l := by
  simp [(perm_insertBy key a l).mem_iff]

@[simp] theorem length_insertBy (key : α → κ) (a : α) (l : List α) :
    (insertBy key a l).length = l.length + 1 := (perm_insertBy key a l).length_eq

/-- Insertion behind a prefix none of whose keys is larger happens after the prefix. -/
theorem insertBy_append_right {key : α → κ} {a : α} {l : List α} (r : List α)
    (h : ∀ b ∈ l, key b ≤ key a) : insertBy key a (l ++ r) = l ++ insertBy key a r := by
  induction l with
  | nil => rfl
  | cons b l ih =>
      rw [List.cons_append, insertBy_cons, if_pos (h b (by simp)),
        ih (fun c hc => h c (by simp [hc])), List.cons_append]

/-- Insertion in front of a larger key does not reach past it. -/
theorem insertBy_append_left {key : α → κ} {a b : α} (l r : List α) (h : key a < key b) :
    insertBy key a (l ++ b :: r) = insertBy key a l ++ b :: r := by
  induction l with
  | nil => simp [insertBy_cons, not_le.mpr h]
  | cons c l ih =>
      rw [List.cons_append, insertBy_cons, insertBy_cons, ih]
      split <;> rfl

theorem sortedBy_insertBy {key : α → κ} {a : α} {l : List α} (h : SortedBy key l) :
    SortedBy key (insertBy key a l) := by
  induction l with
  | nil => simp [SortedBy]
  | cons b l ih =>
      obtain ⟨hb, hl⟩ := List.pairwise_cons.mp h
      rw [insertBy_cons]
      split
      · rename_i hba
        refine List.pairwise_cons.mpr ⟨?_, ih hl⟩
        intro c hc
        rcases mem_insertBy.mp hc with rfl | hc
        · exact hba
        · exact hb c hc
      · rename_i hba
        have hab : key a ≤ key b := le_of_lt (not_le.mp hba)
        refine List.pairwise_cons.mpr ⟨?_, h⟩
        intro c hc
        rcases List.mem_cons.mp hc with rfl | hc
        · exact hab
        · exact le_trans hab (hb c hc)

theorem SortedBy.tail {key : α → κ} {a : α} {l : List α} (h : SortedBy key (a :: l)) :
    SortedBy key l := (List.pairwise_cons.mp h).2

/-- The head of a sorted queue is a minimum. -/
theorem SortedBy.head_le {key : α → κ} {a b : α} {l : List α} (h : SortedBy key (a :: l))
    (hb : b ∈ a :: l) : key a ≤ key b := by
  rcases List.mem_cons.mp hb with rfl | hb
  · exact le_rfl
  · exact (List.pairwise_cons.mp h).1 b hb

/-! ## Queues of entries -/

/-- Put `a` in the queue under the key `k`. -/
def push (k : κ) (a : α) (q : List (κ × α)) : List (κ × α) := insertBy Prod.fst (k, a) q

/-- Take the first entry out of the queue. -/
def pop : List (κ × α) → Option (α × List (κ × α))
  | [] => none
  | (_, a) :: q => some (a, q)

/-- Entries whose keys are those of a function are a sorted list of labels. -/
theorem push_map (key : α → κ) (a : α) (l : List α) :
    push (key a) a (l.map fun b => (key b, b)) = (insertBy key a l).map fun b => (key b, b) := by
  induction l with
  | nil => rfl
  | cons b l ih =>
      simp only [push, List.map_cons, insertBy_cons] at ih ⊢
      split <;> simp [ih]

/-! ## Sequences of calls -/

variable [DecidableEq α]

/-- What a call does to the queue. There is no result when the answer is not the queue's. -/
def Call.run (q : List (κ × α)) : Call κ α → Option (List (κ × α))
  | .insert k a => some (push k a q)
  | .retrieve none => if q.isEmpty then some q else none
  | .retrieve (some a) =>
      match pop q with
      | none => none
      | some (b, q') => if b = a then some q' else none

/-- Run the calls one after the other, as long as their answers are right. -/
def replay (q : List (κ × α)) : List (Call κ α) → Option (List (κ × α))
  | [] => some q
  | c :: calls => (c.run q).bind (replay · calls)

theorem replay_append (q : List (κ × α)) (calls : List (Call κ α)) (c : Call κ α) :
    replay q (calls ++ [c]) = (replay q calls).bind c.run := by
  induction calls generalizing q with
  | nil => simp [replay]
  | cons d calls ih =>
      rw [List.cons_append, replay, replay, Option.bind_assoc]
      exact congrArg _ (funext ih)

/-- **The queue holds what was inserted and not retrieved since.** -/
theorem perm_pending {calls : List (Call κ α)} {q : List (κ × α)} (h : replay [] calls = some q) :
    (q.map Prod.snd).Perm (pending calls) := by
  induction calls using List.reverseRecOn generalizing q with
  | nil =>
      obtain rfl : [] = q := by simpa [replay] using h
      exact .nil
  | append_singleton calls c ih =>
      rw [replay_append] at h
      obtain ⟨q₀, hq₀, hc⟩ := Option.bind_eq_some_iff.mp h
      cases c with
      | insert k a =>
          obtain rfl : push k a q₀ = q := by simpa [Call.run] using hc
          rw [pending_insert]
          exact ((perm_insertBy Prod.fst (k, a) q₀).map Prod.snd).trans ((ih hq₀).cons a)
      | retrieve r =>
          cases r with
          | none =>
              rw [pending_retrieve_none]
              obtain ⟨_, rfl⟩ : q₀.isEmpty = true ∧ q₀ = q := by simpa [Call.run] using hc
              exact ih hq₀
          | some a =>
              rw [pending_retrieve_some]
              cases q₀ with
              | nil => simp [Call.run, pop] at hc
              | cons e q' =>
                  obtain ⟨h1, h2⟩ : e.2 = a ∧ q' = q := by simpa [Call.run, pop] using hc
                  subst h1 h2
                  simpa using (ih hq₀).erase e.2

end StableQueue
