import Mathlib.Data.Fintype.Card
import Mathlib.Logic.Relation

/-!
# Waiting in a cycle

Who waits for whom is a relation. Threads that take their locks in a fixed order
wait for ever higher locks along it, and so never in a cycle.
-/

namespace Threads

variable {α : Type}

/-- Somebody waits, through others, for himself. -/
def Cyclic (waitsFor : α → α → Prop) : Prop := ∃ a, Relation.TransGen waitsFor a a

variable {waitsFor : α → α → Prop}

/-- Along a chain of waits that goes on, the rank grows. -/
theorem rank_lt_of_transGen {rank : α → Nat}
    (hrank : ∀ a b, waitsFor a b → (∃ c, waitsFor b c) → rank a < rank b) {a b : α}
    (h : Relation.TransGen waitsFor a b) (hb : ∃ c, waitsFor b c) : rank a < rank b := by
  induction h using Relation.TransGen.head_induction_on with
  | single hab => exact hrank _ _ hab hb
  | head hac hcb ih =>
      obtain ⟨d, hd, -⟩ := Relation.TransGen.head'_iff.mp hcb
      exact Nat.lt_trans (hrank _ _ hac ⟨d, hd⟩) ih

/-- **A rank that grows towards whoever waits himself excludes a cycle.** -/
theorem not_cyclic_of_rank (rank : α → Nat)
    (hrank : ∀ a b, waitsFor a b → (∃ c, waitsFor b c) → rank a < rank b) :
    ¬Cyclic waitsFor := by
  rintro ⟨a, ha⟩
  obtain ⟨d, hd, -⟩ := Relation.TransGen.head'_iff.mp ha
  exact absurd (rank_lt_of_transGen hrank ha ⟨d, hd⟩) (Nat.lt_irrefl _)

/-- **Without a cycle whoever waits does so, through others, for somebody who does not.** -/
theorem exists_last_of_not_cyclic [Finite α] (h : ¬Cyclic waitsFor) (a : α) :
    ∃ b, Relation.ReflTransGen waitsFor a b ∧ ∀ c, ¬waitsFor b c := by
  have hirrefl : Std.Irrefl (Function.swap (Relation.TransGen waitsFor)) :=
    ⟨fun b hb => h ⟨b, hb⟩⟩
  have htrans : IsTrans α (Function.swap (Relation.TransGen waitsFor)) :=
    ⟨fun _ _ _ hab hbc => Relation.TransGen.trans hbc hab⟩
  have hwf := Finite.wellFounded_of_trans_of_irrefl (Function.swap (Relation.TransGen waitsFor))
  induction a using hwf.induction with
  | h a ih =>
      by_cases hlast : ∀ c, ¬waitsFor a c
      · exact ⟨a, .refl, hlast⟩
      · push Not at hlast
        obtain ⟨c, hc⟩ := hlast
        obtain ⟨b, hb, hlast⟩ := ih c (.single hc)
        exact ⟨b, .head hc hb, hlast⟩

end Threads
