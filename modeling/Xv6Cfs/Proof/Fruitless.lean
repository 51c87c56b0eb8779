import Xv6Cfs.Proof.Clock

/-!
# When `wait` comes back with nothing

A call of `wait` that frees no child has a reason to return: the copy of the status has
failed, the caller has been killed, or at one moment of the call it had no child. The scan
reads one parent after the other, but under `wait_lock`, so what it has read is so all at once.
-/

namespace Xv6Cfs

open RedBlack Threads Prog

variable {n : Nat} {P : Kernel n → Ledger n → Move n → Prop} {t : Thread n} {k k₀ : Kernel n}
  {ℓ ℓ₀ : Ledger n} {K L : List (Act n)} {p : Slot} {addr : Bool} {r : Int} {m : Mem}

/-! ## What the code of `wait` does -/

/-- The parents of the slots have been read, and none was `p`. -/
def Scanned (p : Slot) (ps : List Slot) (L : List (Act n)) : Prop :=
  List.Forall₂ (fun q e => ∃ x, Act.event e = ⟨.parentOf q, x⟩ ∧ x ≠ some p) ps L

/-- Why a call of `wait` may come to its end. -/
inductive Ends (p : Slot) (addr : Bool) (L : List (Act n)) : Prop where
  | freed {e : Act n} {q : Slot} : e ∈ L → e.event = ⟨.write q .free, ()⟩ → Ends p addr L
  | copyout {e : Act n} : addr = true → e ∈ L → e.event = ⟨.choose, .fail⟩ → Ends p addr L
  | killed {K : List (Act n)} : K <:+: L → Asks p true K → Ends p addr L
  | childless {K : List (Act n)} : K <:+: L → Scanned p slots K → Ends p addr L

theorem Ends.mono (h : Ends p addr K) (hK : K <:+: L) : Ends p addr L := by
  cases h with
  | freed he hw => exact .freed (hK.subset he) hw
  | copyout haddr he hfail => exact .copyout haddr (hK.subset he) hfail
  | killed hJ hask => exact .killed (hJ.trans hK) hask
  | childless hJ hscan => exact .childless (hJ.trans hK) hscan

/-- What the procedures do, as far as it is a reason to return. -/
def endSummary : Routine → List (Act n) → Int → Prop
  | .wait p addr, L, _ => Ends p addr L
  | _, _, _ => True

/-- A scan that has found no children has read all parents. -/
theorem outcome_childless {S : Routine → List (Act n) → Int → Prop} (ps : List Slot)
    (havekids : Bool) (hx : Outcome Act.event S (waitScan p addr ps havekids) L (.inr false)) :
    havekids = false ∧ Scanned p ps L := by
  induction ps generalizing havekids L with
  | nil =>
      obtain ⟨rfl, hres⟩ := hx
      exact ⟨(Sum.inr.inj hres).symm, .nil⟩
  | cons pp ps ih =>
      simp only [waitScan, outcome_bind] at hx
      obtain ⟨par, _, L', rfl, h₁, hx⟩ := hx
      obtain ⟨e₁, rfl, he₁⟩ := (outcome_issue _ _).mp h₁
      split_ifs at hx with hpar
      · simp only [outcome_bind] at hx
        obtain ⟨_, _, _, rfl, -, zombie, _, _, rfl, -, hx⟩ := hx
        split_ifs at hx with hz
        · simp only [outcome_bind] at hx
          obtain ⟨_, _, _, -, -, -, hres⟩ := hx
          simp at hres
        · simp only [outcome_bind] at hx
          obtain ⟨_, _, _, rfl, -, hx⟩ := hx
          obtain ⟨hkids, -⟩ := ih true hx
          simp at hkids
      · obtain ⟨hkids, hscan⟩ := ih havekids hx
        exact ⟨hkids, .cons ⟨par, he₁, hpar⟩ hscan⟩

/-- A child that is found is freed, unless the copy fails. -/
theorem Reaps.ends {q : Slot} (h : Reaps p addr q L r) : Ends p addr L := by
  obtain ⟨e₁, e₂, e₃, L', rfl, -, -, -, e₄, e₅, L'', s, ch, rfl, -, he₅, hcase⟩ := h
  rcases hcase with ⟨⟨haddr, rfl⟩, -⟩ | ⟨-, -, e₆, e₇, e₈, rfl, he₆, -⟩
  · exact .copyout haddr (by simp) he₅
  · exact .freed (e := e₆) (by simp) he₆

/-- **What a round of `wait` ends with, the loop ends with.** -/
theorem endSummary_sound : Summary (Act.event (n := n)) endSummary Routine.body := by
  intro f L r hx
  cases f with
  | wait p addr =>
      simp only [Routine.body, waitRound, outcome_bind] at hx
      obtain ⟨res, L₁, L₂, rfl, hscan, hx⟩ := hx
      cases res with
      | inl r' =>
          obtain ⟨rfl, rfl⟩ := hx
          rcases outcome_waitScan slots false hscan with ⟨⟨b, hb⟩, -⟩ |
            ⟨_, K₁, K₂, q, -, rfl, -, hreap⟩
          · simp at hb
          · exact hreap.ends.mono ⟨K₁, [], by simp⟩
      | inr havekids =>
          simp only [outcome_bind] at hx
          obtain ⟨b, K₁, K₂, rfl, hpoint, hx⟩ := hx
          cases havekids with
          | false =>
              have hscan := (outcome_childless slots false hscan).2
              exact .childless ⟨[], K₁ ++ K₂, by simp⟩ hscan
          | true =>
              have hask : Asks p b K₁ := outcome_killed hpoint
              cases b with
              | true => exact .killed ⟨L₁, K₂, by simp⟩ hask
              | false =>
                  simp only [Bool.false_eq_true, if_false, outcome_bind] at hx
                  obtain ⟨_, K₃, J, rfl, -, hloop⟩ := hx
                  have hends : Ends p addr J := (outcome_invoke (Routine.wait p addr) r).mp hloop
                  exact hends.mono ⟨L₁ ++ K₁ ++ K₃, [], by simp⟩
  | _ => trivial

/-! ## What the scan has seen -/

/-- Under `wait_lock` the parents are what they were when the scan began. -/
theorem Scanned.parents {ps : List Slot} (h : Scanned p ps L) (hc : Course t L)
    (hg : ∀ e ∈ L.head?, Guards t .wait m e.before) : ∀ q ∈ ps, (m.proc q).parent ≠ some p := by
  induction h with
  | nil => simp
  | @cons q e ps L hq _ ih =>
      obtain ⟨x, he, hx⟩ := hq
      have hi := Act.instr_of_event he
      obtain ⟨-, -, -, -, hex⟩ := hc.executed e (by simp)
      have hguards := hg e rfl
      have hread := Act.execute_of_event he hex
      simp only [execute, Option.some.injEq, Prod.mk.injEq] at hread
      have hafter := hguards.exec hex (by simp [hi, Instr.Changes]) (by simp [hi]) (by simp [hi])
      intro q' hq'
      rcases List.mem_cons.mp hq' with rfl | hq'
      · rw [← (hguards.keeps q').1, hread.2]
        exact hx
      · have hrest : Course t ([e] ++ L) := hc
        refine ih hrest.append_right (fun e' he' => ?_) q' hq'
        obtain ⟨L', rfl⟩ := List.head?_eq_some_iff.mp he'
        exact hafter.next (List.isChain_cons_cons.mp hc.still).1

/-- **There is a moment at which the process has no child.** -/
theorem Scanned.childless (h : Scanned p slots L) (hc : Course t L) :
    ∃ e ∈ L, e.before.Holds t .wait ∧ ∀ q, (e.before.mem.proc q).parent ≠ some p := by
  cases L with
  | nil =>
      have hlen : NPROC = 0 := by simpa [slots] using h.length_eq
      exact absurd hlen (by decide)
  | cons e L =>
      obtain ⟨q, ps, ⟨x, he, -⟩, -, -⟩ := List.forall₂_cons_right_iff.mp h
      obtain ⟨ℓ, hrun, ht, hissue, -⟩ := hc.executed e (by simp)
      obtain ⟨V, hV⟩ := hrun.traced false
      have hcore := core_traced spared_false hV
      obtain ⟨tr, σ, hb⟩ := hcore.base
      rw [Act.instr_of_event he] at hissue
      obtain ⟨g, hcode⟩ := hissue
      have hwait : e.before.Holds t .wait :=
        ⟨e.cpu, ht, (hb.locking.lock _ _).mpr (hcore.pre hcode)⟩
      have hguards : ∀ e' ∈ (e :: L).head?, Guards t .wait e.before.mem e'.before := by
        rintro _ ⟨⟩
        exact ⟨hwait, .refl _ _⟩
      exact ⟨e, by simp, hwait, fun q => h.parents hc hguards q (List.mem_finRange q)⟩

/-! ## What a call of `wait` comes back with -/

/-- Why a call of `wait` has freed no child: the copy of a status has failed, the caller was killed,
or there was a moment at which it held `wait_lock` and had no child. -/
def Fruitless (t : Thread n) (p : Slot) (addr : Bool) (L : List (Act n)) : Prop :=
  (addr = true ∧ ∃ e ∈ L, e.event = ⟨.choose, .fail⟩) ∨
    (∃ e ∈ L, (e.before.mem.proc p).killed = true) ∨
      ∃ e ∈ L, e.before.Holds t .wait ∧ ∀ q, (e.before.mem.proc q).parent ≠ some p

/-- Why a call has come to its end is so. -/
theorem Ends.fruitless (h : Ends p addr L) (hc : Course t L) (hnone : frees L = []) :
    Fruitless t p addr L := by
  cases h with
  | @freed e q he hw =>
      have hq : q ∈ frees L := List.mem_filterMap.mpr ⟨e, he, by rw [Act.instr_of_event hw]; rfl⟩
      simp [hnone] at hq
  | copyout haddr he hfail => exact .inl ⟨haddr, _, he, hfail⟩
  | killed hK hask =>
      obtain ⟨e, he, hkilled⟩ := hask.killed (hc.within hK)
      exact .inr (.inl ⟨e, hK.subset he, hkilled⟩)
  | childless hK hscan =>
      obtain ⟨e, he, hwait, hnobody⟩ := hscan.childless (hc.within hK)
      exact .inr (.inr ⟨e, hK.subset he, hwait, hnobody⟩)

/--
**`wait` reaps a child, or has a reason not to.** A call that returns has freed one child of the
caller, a zombie, and returns its pid; or it has freed none, returns -1, and has a reason.
-/
theorem waitReasons (h : Returned P t (wait p addr) k₀ ℓ₀ k ℓ L r) :
    (∃ q, frees L = [q] ∧ ∃ e ∈ L, e.instr = .write q .free ∧
      (e.before.mem.proc q).state = .zombie ∧ (e.before.mem.proc q).parent = some p ∧
        r = (e.before.mem.proc q).pid) ∨
      frees L = [] ∧ r = -1 ∧ Fruitless t p addr L := by
  have hx := h.outcome endSummary_sound
  simp only [wait, outcome_bind] at hx
  obtain ⟨_, K, J, rfl, -, hloop⟩ := hx
  have hloop : Ends p addr J := (outcome_invoke (Routine.wait p addr) r).mp hloop
  have hends : Ends p addr (K ++ J) := hloop.mono ⟨K, [], by simp⟩
  rcases h.waitSpec.result with ⟨hnone, hr⟩ | ⟨q, hq, -, -, e, he, hi, hst, hparent, -, -, hr⟩
  · exact .inr ⟨hnone, hr, hends.fruitless h.course hnone⟩
  · exact .inl ⟨q, hq, e, he, hi, hst, hparent, hr⟩

/-- The first process begins to wait. -/
def beginWait (s : Kernel 2 × Ledger 2) : Followed 2 Int := ⟨s.1, s.2, wait 0 false⟩

theorem fruitlessMoves_spec : ((execAs (boot 2, Ledger.empty 2) (riseMoves 0 1)).any fun s =>
    (s.1.calls (.proc 0) (.user 0) ∧ (s.1.mem.proc 0).killed = false) &&
    ((execAs s (stretch 6 1 (.proc 0) { trap := .syscall (.wait false) })).any fun s' =>
      decide (s'.1.thread 1 = .proc 0) &&
      ((stretch 67 1 (.proc 0) {}).foldlM (follow (.proc 0) (afterSyscall s.1 0))
        (beginWait s')).any fun s =>
        match s.x with
        | .ret r => r = -1
        | _ => false)) = true := by
  decide +kernel

/-- The first process has no child to wait for. -/
theorem waitReasons_first : ∃ L : List (Act 2), (∃ q, frees L = [q] ∧ ∃ e ∈ L,
    e.instr = .write q .free ∧ (e.before.mem.proc q).state = .zombie ∧
      (e.before.mem.proc q).parent = some 0 ∧ -1 = (e.before.mem.proc q).pid) ∨
    frees L = [] ∧ (-1 : Int) = -1 ∧ Fruitless (.proc 0) 0 false L := by
  obtain ⟨s, hs, hspec⟩ := (Option.any_eq_true _ _).mp fruitlessMoves_spec
  obtain ⟨hrise, hspec⟩ := Bool.and_eq_true_iff.mp hspec
  obtain ⟨hcall, hkilled⟩ := of_decide_eq_true hrise
  obtain ⟨s', hs', hspec⟩ := (Option.any_eq_true _ _).mp hspec
  obtain ⟨hb, hspec⟩ := Bool.and_eq_true_iff.mp hspec
  obtain ⟨⟨k₁, ℓ₁, x⟩, hs₁, hret⟩ := (Option.any_eq_true _ _).mp hspec
  have hd := During.syscall (run_execAs .init hs) hcall hkilled hs' (of_decide_eq_true hb)
  obtain ⟨⟨L, hd⟩, -⟩ := hd.followAll (s := beginWait s') hs₁
  cases x with
  | instr i g => exact absurd hret (by simp)
  | call f g => exact absurd hret (by simp)
  | ret r =>
      obtain rfl : r = -1 := of_decide_eq_true hret
      exact ⟨L, waitReasons ⟨_, _, hd⟩⟩

end Xv6Cfs
