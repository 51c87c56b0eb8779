import Xv6Cfs.Threads.Prog

/-!
# What a thread may do, and what it knows

A thread's view is what it may rely on whatever the other threads do: the locks
it holds, the duties it has taken over, what it has seen and nobody else can
change. A set of rules says in which views an instruction may be issued, which
answers it can get, and what the view is afterwards; likewise for the procedures.

`Rules.wp` is then the condition on a view under which a whole program keeps to
the rules. A machine keeps `wp` of every thread's program as an invariant; the
programs themselves are checked once, piece by piece.
-/

namespace Threads

/-- The rules for a thread whose views are of type `W`. -/
structure Rules (I : Type) (R : I → Type) (F W : Type) where
  /-- The instruction may be issued. -/
  pre : I → W → Prop
  /-- The answer is possible. -/
  can : (i : I) → W → R i → Prop
  /-- The view after the answer. -/
  next : (i : I) → W → R i → W
  /-- The procedure may be called. -/
  callPre : F → W → Prop
  /-- The view after the call. -/
  callNext : F → W → W

variable {I : Type} {R : I → Type} {F V W α β : Type}

namespace Rules

/-- From the view `v` the program keeps to the rules, and ends as `Q` says. -/
def wp (D : Rules I R F W) : Prog I R F V α → (α → W → Prop) → W → Prop
  | .ret a, Q, v => Q a v
  | .instr i k, Q, v => D.pre i v ∧ ∀ r, D.can i v r → D.wp (k r) Q (D.next i v r)
  | .call f k, Q, v => D.callPre f v ∧ ∀ r, D.wp (k r) Q (D.callNext f v)

variable {D : Rules I R F W} {Q Q' : α → W → Prop} {v : W}

@[simp] theorem wp_pure (a : α) : D.wp (pure a : Prog I R F V α) Q v ↔ Q a v := Iff.rfl

@[simp] theorem wp_instr (i : I) (k : R i → Prog I R F V α) :
    D.wp (.instr i k) Q v ↔ D.pre i v ∧ ∀ r, D.can i v r → D.wp (k r) Q (D.next i v r) :=
  Iff.rfl

@[simp] theorem wp_call (f : F) (k : V → Prog I R F V α) :
    D.wp (.call f k) Q v ↔ D.callPre f v ∧ ∀ r, D.wp (k r) Q (D.callNext f v) := Iff.rfl

@[simp] theorem wp_issue (i : I) {Q : R i → W → Prop} :
    D.wp (Prog.issue i : Prog I R F V (R i)) Q v ↔
      D.pre i v ∧ ∀ r, D.can i v r → Q r (D.next i v r) := Iff.rfl

@[simp] theorem wp_invoke (f : F) {Q : V → W → Prop} :
    D.wp (Prog.invoke f : Prog I R F V V) Q v ↔
      D.callPre f v ∧ ∀ r, Q r (D.callNext f v) := Iff.rfl

/-- What follows a program is checked from the views the program can end in. -/
@[simp] theorem wp_bind (x : Prog I R F V α) (f : α → Prog I R F V β) {Q : β → W → Prop} :
    D.wp (x >>= f) Q v ↔ D.wp x (fun a u => D.wp (f a) Q u) v := by
  induction x generalizing v with
  | ret a => exact Iff.rfl
  | instr i next ih =>
      exact and_congr_right fun _ => forall_congr' fun r => imp_congr_right fun _ => ih r
  | call g next ih => exact and_congr_right fun _ => forall_congr' fun r => ih r

theorem wp_mono {x : Prog I R F V α} (h : D.wp x Q v) (hQ : ∀ a v, Q a v → Q' a v) :
    D.wp x Q' v := by
  induction x generalizing v with
  | ret a => exact hQ a v h
  | instr i next ih => exact ⟨h.1, fun r hr => ih r (h.2 r hr)⟩
  | call g next ih => exact ⟨h.1, fun r => ih r (h.2 r)⟩

/-- A loop over a list keeps an invariant that may look at what is left of the list. -/
theorem wp_forEach {f : β → Prog I R F V Unit} (Inv : List β → W → Prop) {as : List β}
    (hstep : ∀ a as v, Inv (a :: as) v → D.wp (f a) (fun _ => Inv as) v) (h : Inv as v) :
    D.wp (Prog.forEach f as) (fun _ => Inv []) v := by
  induction as generalizing v with
  | nil => exact h
  | cons a as ih =>
      rw [Prog.forEach, wp_bind]
      exact wp_mono (hstep a as v h) fun _ _ h => ih h

/-- Whatever the rules allow in a view they allow in a better one, which stays better. -/
structure Monotone (D : Rules I R F W) (le : W → W → Prop) : Prop where
  pre : ∀ {i u w}, le u w → D.pre i u → D.pre i w
  can : ∀ {i u w r}, le u w → D.can i w r → D.can i u r
  next : ∀ {i u w r}, le u w → D.pre i u → le (D.next i u r) (D.next i w r)
  callPre : ∀ {f u w}, le u w → D.callPre f u → D.callPre f w
  callNext : ∀ {f u w}, le u w → le (D.callNext f u) (D.callNext f w)

theorem wp_monotone {le : W → W → Prop} (h : D.Monotone le) {x : Prog I R F V α} {u : W}
    (hle : le v u) (hx : D.wp x (fun _ _ => True) v) : D.wp x (fun _ _ => True) u := by
  induction x generalizing v u with
  | ret a => trivial
  | instr i next ih =>
      exact ⟨h.pre hle hx.1, fun r hr => ih r (h.next hle hx.1) (hx.2 r (h.can hle hr))⟩
  | call g next ih => exact ⟨h.callPre hle hx.1, fun r => ih r (h.callNext hle) (hx.2 r)⟩

/-- The same views, but everything is allowed. -/
def lax (D : Rules I R F W) : Rules I R F W :=
  { D with pre := fun _ _ => True, callPre := fun _ _ => True }

/-- The rules that forbid some instructions and some procedures outright. -/
def avoiding (ok : I → Prop) (okCall : F → Prop) : Rules I R F Unit where
  pre i _ := ok i
  can _ _ _ := True
  next _ _ _ := ()
  callPre f _ := okCall f
  callNext _ _ := ()

/-- The bodies of the procedures keep to the rules and do what the rules say of them. -/
def Sound (D : Rules I R F W) (body : F → Prog I R F V V) : Prop :=
  ∀ f v, D.callPre f v → D.wp (body f) (fun _ v' => v' = D.callNext f v) v

/-- **A call may be replaced by the body of the procedure.** -/
theorem Sound.unfold {body : F → Prog I R F V V} (h : D.Sound body) {f : F}
    {k : V → Prog I R F V α} (hk : D.wp (.call f k) Q v) : D.wp (body f >>= k) Q v := by
  rw [wp_bind]
  refine wp_mono (h f v hk.1) fun r v' hv => ?_
  subst hv
  exact hk.2 r

end Rules

end Threads
