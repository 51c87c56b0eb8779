import Xv6Cfs.Proof.QueueRep
import Xv6Cfs.RedBlack.PopMin
import Mathlib.Algebra.Order.BigOperators.Group.List

/-!
# `retrieveProcess` removes the first process

Case 1 of `retrievingCases` takes the minimum out of the links, which leaves the
tree of the trail above it with its right child plugged in. The loop of case 2
then performs the repair `fixDelete` on that tree, one level of the left spine an
iteration.
-/

namespace Xv6Cfs

open RedBlack StableQueue

theorem Matches.isBlack {m : Mem} {par : Option Slot} {t : ColorTree Slot}
    (h : Matches m.proc par t) : isBlack m t.root? = true ↔ t.color = .black := by
  cases t with
  | nil => simp [Xv6Cfs.isBlack]
  | node c l a r => simp [Xv6Cfs.isBlack, h.1]

/-! ## The loop -/

/-- What the loop does when it stops: the current node is painted black. -/
theorem retrievingLoop_stop {m : Mem} (up : Trail Slot) {t : ColorTree Slot} (par : Option Slot)
    (fuel : Nat) (h : Denotes m (Trail.fill up t)) (hstop : up = [] ∨ t.color = .red) :
    ∃ m', retrievingLoop (fuel + 1) m par t.root? = .ok m' ∧
      Reshaped m (Trail.fill up t) m' (Trail.fill up (t.paint .black)) := by
  have hcond : ¬(t.root? ≠ m.tree.root ∧ isBlack m t.root? = true) := by
    rintro ⟨h1, h2⟩
    rcases hstop with rfl | hred
    · exact h1 h.root.symm
    · rw [((denotes_fill _).mp h).inner.isBlack, hred] at h2
      cases h2
  rw [retrievingLoop, if_neg hcond]
  cases t with
  | nil => exact ⟨m, rfl, .refl h⟩
  | node c l a r => exact ⟨_, rfl, reshaped_setColor up .black h⟩

/-- The last rotation, after which the loop stops at the root. -/
theorem rotate_nephew {m : Mem} {up : Trail Slot} {c d : Color} {t sl sr : ColorTree Slot}
    {a x z : Slot} (h : Denotes m (Trail.fill up (.node c t a (.node d sl x sr))))
    (hz : sr.root? = some z) :
    ∃ m', rotateLeft (((m.setColor x c).setColor a .black).setColor z .black) a = .ok m' ∧
      Reshaped m (Trail.fill up (.node c t a (.node d sl x sr))) m'
        (Trail.fill up (.node c (.node .black t a sl) x (sr.paint .black))) := by
  cases sr with
  | nil => simp at hz
  | node e l b r =>
      obtain rfl : b = z := by simpa using hz
      have h₁ := reshaped_setColor (.right c t a :: up) c h
      have h₂ := reshaped_setColor up .black h₁.denotes
      have h₃ := reshaped_setColor (.right c sl x :: .right .black t a :: up) .black h₂.denotes
      obtain ⟨m', hrot, h₄⟩ := reshaped_rotateLeft up h₃.denotes
      exact ⟨m', hrot, ((h₁.trans h₂).trans h₃).trans h₄⟩

/-- After `turnSibling` the sibling `y` has a red right child `z`. -/
theorem turnSibling_spec {m : Mem} {up : Trail Slot} {c : Color} {t sl sr : ColorTree Slot}
    {a x : Slot} (h : Denotes m (Trail.fill up (.node c t a (.node .black sl x sr))))
    (hred : ¬(sl.color = .black ∧ sr.color = .black)) :
    ∃ m' d sl' y sr' z, turnSibling m a x = .ok (m', y) ∧
      Reshaped m (Trail.fill up (.node c t a (.node .black sl x sr))) m'
        (Trail.fill up (.node c t a (.node d sl' y sr'))) ∧ sr'.root? = some z ∧
      fixNephew c a sl x sr up t =
        (Trail.fill up (.node c (.node .black t a sl') y (sr'.paint .black))).paint .black := by
  obtain ⟨_, hleft, hright, _, hsl, hsr⟩ := (denotes_fill (.right c t a :: up)).mp h |>.inner
  have hblack := hsr.isBlack
  unfold turnSibling fixNephew
  rw [hleft, hright]
  by_cases hs : sr.color = .red
  · rw [if_pos hs, if_neg (show ¬isBlack m sr.root? = true by simp [hblack, hs])]
    cases sr with
    | nil => simp at hs
    | node e l z r => exact ⟨m, .black, sl, x, _, z, rfl, .refl h, rfl, rfl⟩
  · have hsr' : sr.color = .black := by cases hc : sr.color <;> simp_all
    rw [if_neg hs, if_pos (hblack.mpr hsr')]
    cases sl with
    | nil => exact absurd ⟨rfl, hsr'⟩ hred
    | node e l y r =>
        have h₁ := reshaped_setColor (.left .black x sr :: .right c t a :: up) .black h
        have h₂ := reshaped_setColor (.right c t a :: up) .red h₁.denotes
        obtain ⟨m', hrot, h₃⟩ := reshaped_rotateRight (.right c t a :: up) h₂.denotes
        have hy : (m'.proc a).right = some y :=
          (denotes_fill up).mp h₃.denotes |>.inner.2.2.1
        refine ⟨m', .black, l, y, .node .red r x sr, x, ?_, (h₁.trans h₂).trans h₃, rfl, rfl⟩
        simp only [ColorTree.root?_node, paintBlack, hrot, ok_bind, hy, deref_some, pure_eq_ok]

/-- With black nephews the sibling is painted red and the parent is next. -/
theorem settleSibling_black {m : Mem} (up : Trail Slot) {c : Color} {t sl sr : ColorTree Slot}
    {a x : Slot} (h : Denotes m (Trail.fill up (.node c t a (.node .black sl x sr))))
    (hb : sl.color = .black ∧ sr.color = .black) :
    ∃ m', settleSibling m a = .ok (m', parentOf up, some a) ∧
      Reshaped m (Trail.fill up (.node c t a (.node .black sl x sr))) m'
        (Trail.fill up (.node c t a (.node .red sl x sr))) := by
  obtain ⟨_, hleft, hright, _, hsl, hsr⟩ := (denotes_fill (.right c t a :: up)).mp h |>.inner
  obtain ⟨_, _, hx, _, _, _⟩ := (denotes_fill up).mp h |>.inner
  have h₁ := reshaped_setColor (.right c t a :: up) .red h
  obtain ⟨_, _, _, hpar, _, _⟩ := (denotes_fill up).mp h₁.denotes |>.inner
  refine ⟨_, ?_, h₁⟩
  unfold settleSibling
  rw [hx]
  simp only [ColorTree.root?_node, deref_some, ok_bind, hleft, hright, hsl.isBlack, hsr.isBlack,
    if_pos hb, hpar, pure_eq_ok]

/-- With a red nephew the rotations end the repair. -/
theorem settleSibling_red {m : Mem} (up : Trail Slot) {c : Color} {t sl sr : ColorTree Slot}
    {a x : Slot} (h : Denotes m (Trail.fill up (.node c t a (.node .black sl x sr))))
    (hred : ¬(sl.color = .black ∧ sr.color = .black)) :
    ∃ m' t', settleSibling m a = .ok (m', some a, t'.root?) ∧
      Reshaped m (Trail.fill up (.node c t a (.node .black sl x sr))) m' t' ∧
      t'.paint .black = fixNephew c a sl x sr up t := by
  obtain ⟨_, hleft, hright, _, hsl, hsr⟩ := (denotes_fill (.right c t a :: up)).mp h |>.inner
  obtain ⟨_, _, hx, _, _, _⟩ := (denotes_fill up).mp h |>.inner
  obtain ⟨m₁, d, sl', y, sr', z, hturn, h₁, hz, hfix⟩ := turnSibling_spec h hred
  obtain ⟨m', hrot, h₂⟩ := rotate_nephew h₁.denotes hz
  obtain ⟨hcol, _, _, _, _, _⟩ := (denotes_fill up).mp h₁.denotes |>.inner
  have hnephew : (((m₁.setColor y c).setColor a .black).proc y).right = some z := by
    rw [Mem.setColor_right, Mem.setColor_right, ← hz]
    exact ((denotes_fill (.right c t a :: up)).mp h₁.denotes).inner.2.2.1
  refine ⟨m', _, ?_, h₁.trans h₂, hfix.symm⟩
  unfold settleSibling
  rw [hx]
  simp only [ColorTree.root?_node, deref_some, ok_bind, hleft, hright, hsl.isBlack, hsr.isBlack,
    if_neg hred, hturn, hcol, hnephew, hrot, h₂.denotes.root, pure_eq_ok]

/-- A black node below the root keeps the loop going. -/
theorem retrievingLoop_enter {m : Mem} {up : Trail Slot} {c : Color} {t s : ColorTree Slot}
    {a : Slot} (fuel : Nat) (h : Denotes m (Trail.fill (.left c a s :: up) t))
    (ht : t.color = .black) :
    retrievingLoop (fuel + 1) m (some a) t.root? = (do
      let m ← raiseSibling m a
      let (m, parentProc, process) ← settleSibling m a
      retrievingLoop fuel m parentProc process) := by
  have h' := (denotes_fill _).mp h
  obtain ⟨_, hleft, _⟩ := h'.outer
  have hroot : t.root? ≠ m.tree.root := by
    rw [h'.root]
    intro e
    obtain ⟨q, hq⟩ : ∃ q, rootOf t.root? (.left c a s :: up) = some q := rootOf_cons _ _ _
    exact h'.inner_ne (ColorTree.root?_mem (e.trans hq)) (rootOf_mem hq) rfl
  rw [retrievingLoop, if_pos ⟨hroot, h'.inner.isBlack.mpr ht⟩]
  simp only [deref_some, ok_bind]
  rw [if_pos hleft.symm]

/-- With a red parent the loop stops after this iteration. -/
theorem settle_red_parent {m : Mem} (up : Trail Slot) {t sl sr : ColorTree Slot} {a x : Slot}
    (fuel : Nat) (h : Denotes m (Trail.fill up (.node .red t a (.node .black sl x sr)))) :
    ∃ m', (do
        let (m, parentProc, process) ← settleSibling m a
        retrievingLoop (fuel + 1) m parentProc process) = .ok m' ∧
      Reshaped m (Trail.fill up (.node .red t a (.node .black sl x sr))) m'
        (if sl.color = .black ∧ sr.color = .black then
          Trail.fill up (.node .black t a (.node .red sl x sr))
        else fixNephew .red a sl x sr up t) := by
  by_cases hb : sl.color = .black ∧ sr.color = .black
  · obtain ⟨m₁, hrun, h₁⟩ := settleSibling_black up h hb
    obtain ⟨m', hstop, h₂⟩ := retrievingLoop_stop up (parentOf up) fuel h₁.denotes (Or.inr rfl)
    rw [if_pos hb]
    exact ⟨m', by rw [hrun]; exact hstop, h₁.trans h₂⟩
  · obtain ⟨m₁, t', hrun, h₁, hfix⟩ := settleSibling_red up h hb
    obtain ⟨m', hstop, h₂⟩ := retrievingLoop_stop [] (some a) fuel h₁.denotes
      (Or.inl rfl)
    rw [if_neg hb, ← hfix]
    exact ⟨m', by rw [hrun]; exact hstop, h₁.trans h₂⟩

/-- **The loop performs the repair.** -/
theorem retrievingLoop_spec {m : Mem} {up : Trail Slot} {t : ColorTree Slot} {c d : Color}
    {n fuel : Nat} (h : Denotes m (Trail.fill up t)) (hl : Trail.Leftmost up)
    (ht : t.Balanced d n) (hu : Trail.Balanced up c (n + 1)) (hfuel : up.length + 2 ≤ fuel) :
    ∃ m', retrievingLoop fuel m (parentOf up) t.root? = .ok m' ∧
      Reshaped m (Trail.fill up t) m' (fixDelete up t) := by
  induction up generalizing m t c d n fuel with
  | nil =>
      obtain ⟨fuel, rfl⟩ : ∃ k, fuel = k + 1 := ⟨fuel - 1, by omega⟩
      have : fixDelete [] t = Trail.fill [] (t.paint .black) := by
        unfold fixDelete; split <;> rfl
      rw [this]
      exact retrievingLoop_stop [] _ fuel h (Or.inl rfl)
  | cons f up ih =>
      obtain ⟨fuel, rfl⟩ : ∃ k, fuel = k + 2 := ⟨fuel - 2, by omega⟩
      simp only [List.length_cons] at hfuel
      by_cases hred : t.color = .red
      · rw [fixDelete, if_pos hred]
        exact retrievingLoop_stop (f :: up) _ (fuel + 1) h (Or.inr hred)
      have hblack : t.color = .black := by cases hc : t.color <;> simp_all
      obtain rfl : d = .black := ht.color_eq.symm.trans hblack
      obtain ⟨c', a, s, rfl⟩ := hl f (by simp)
      rw [fixDelete, if_neg hred, parentOf_cons, Frame.label_left, retrievingLoop_enter _ h hblack]
      obtain ⟨_, _, hs, _, hms, _⟩ := ((denotes_fill _).mp h).outer
      have hraise : s.color = .black → raiseSibling m a = .ok m := by
        intro hsc
        unfold raiseSibling
        rw [hs]
        cases s with
        | nil => rfl
        | node e l b r => simp [hms.1, show e = .black from hsc]
      cases hu with
      | redLeft hsb hup =>
          cases hsb with
          | @black sl sr x _ _ _ h1 h2 =>
              rw [hraise rfl, fixShort]
              simpa using settle_red_parent up fuel h
      | blackLeft hsb hup =>
          cases hsb with
          | @red sib r b _ hsib hr =>
              cases hsib with
              | @black sl sr x _ _ _ h1 h2 =>
                  -- the red sibling is rotated up, and the parent is red from here on
                  have h₁ := reshaped_setColor (.right .black t a :: up) .black h
                  have h₂ := reshaped_setColor up .red h₁.denotes
                  obtain ⟨m₁, hrot, h₃⟩ := reshaped_rotateLeft up h₂.denotes
                  have hraised : raiseSibling m a = .ok m₁ := by
                    unfold raiseSibling
                    rw [hs]
                    simpa [hms.1] using hrot
                  obtain ⟨m', hrun, h₄⟩ := settle_red_parent (.left .black b r :: up) fuel
                    h₃.denotes
                  rw [hraised, fixShort]
                  exact ⟨m', hrun, ((h₁.trans h₂).trans h₃).trans h₄⟩
          | @black sl sr x e₁ e₂ _ h1 h2 =>
              rw [hraise rfl, fixShort]
              simp only [ok_bind]
              by_cases hb : sl.color = .black ∧ sr.color = .black
              · obtain ⟨m₁, hrun, h₁⟩ := settleSibling_black up h hb
                rw [if_pos hb, if_neg (by decide)]
                rw [h1.color_eq, h2.color_eq] at hb
                obtain ⟨rfl, rfl⟩ := hb
                obtain ⟨m', hrun', h₂⟩ := ih h₁.denotes hl.tail (.black ht (.red h1 h2)) hup
                  (show up.length + 2 ≤ fuel + 1 by omega)
                exact ⟨m', by rw [hrun]; exact hrun', h₁.trans h₂⟩
              · obtain ⟨m₁, t', hrun, h₁, hfix⟩ := settleSibling_red up h hb
                obtain ⟨m', hstop, h₂⟩ := retrievingLoop_stop [] (some a) fuel
                  h₁.denotes (Or.inl rfl)
                rw [if_neg hb, ← hfix]
                exact ⟨m', by rw [hrun]; exact hstop, h₁.trans h₂⟩

/-! ## The removal -/

/-- `child->pParent = parent`, if there is a child. -/
def adopt (m : Mem) (parent : Option Slot) : Option Slot → Mem
  | none => m
  | some q => m.setPParent q parent

theorem adopt_ne {m : Mem} {parent child : Option Slot} {q : Slot} (h : child ≠ some q) :
    (adopt m parent child).proc q = m.proc q := by
  cases child with
  | none => rfl
  | some x => exact m.modify_ne (Proc.setPParent · parent) fun e : q = x => h (by rw [e])

theorem adopt_self {m : Mem} {parent : Option Slot} {q : Slot} :
    (adopt m parent (some q)).proc q = (m.proc q).setPParent parent := by
  simp [adopt, Mem.setPParent]

@[simp] theorem adopt_tree {m : Mem} {parent child : Option Slot} :
    (adopt m parent child).tree = m.tree := by
  cases child <;> rfl

theorem adopt_unlinked {m : Mem} {parent child : Option Slot} (q : Slot) :
    ((adopt m parent child).proc q).unlinked = (m.proc q).unlinked := by
  by_cases h : child = some q
  · subst h; rw [adopt_self]; rfl
  · rw [adopt_ne h]

/-- An adopted subtree matches below its new parent. -/
theorem matches_adopt {m : Mem} {par : Option Slot} (par' : Option Slot) {t : ColorTree Slot}
    (h : Matches m.proc par t) (hnd : t.toList.Nodup) :
    Matches (adopt m par' t.root?).proc par' t := by
  refine h.reparent hnd (fun a ha => ?_) (fun a _ ha => ?_)
  · rw [ha, adopt_self]; exact ⟨rfl, rfl, rfl, rfl⟩
  · rw [adopt_ne ha]; exact ⟨rfl, rfl, rfl, rfl⟩

/-- Taking the minimum out of the root. -/
theorem denotes_unlink_root {m : Mem} {c : Color} {p : Slot} {r : ColorTree Slot}
    (h : Denotes m (.node c .nil p r)) :
    Denotes (adopt (m.setRoot r.root?) none r.root?) r ∧
      Relinked r m (adopt (m.setRoot r.root?) none r.root?) := by
  obtain ⟨_, _, _, _, _, hr⟩ := h.links
  have hnd : r.toList.Nodup := (List.nodup_cons.mp h.nodup).2
  refine ⟨⟨?_, matches_adopt (m := m.setRoot r.root?) none hr hnd, hnd⟩, ?_, ?_, ?_⟩
  · simp
  · intro q hq
    exact adopt_ne fun e => hq (ColorTree.root?_mem e)
  · exact adopt_unlinked
  · simp

/-- Taking the minimum out from below its parent. -/
theorem denotes_unlink {m : Mem} {up : Trail Slot} {c d : Color} {p a : Slot}
    {r s : ColorTree Slot} (h : Denotes m (Trail.fill (.left d a s :: up) (.node c .nil p r))) :
    Denotes ((adopt m (some a) r.root?).setLeft a r.root?) (Trail.fill (.left d a s :: up) r) ∧
      Relinked (Trail.fill (.left d a s :: up) r) m
        ((adopt m (some a) r.root?).setLeft a r.root?) := by
  have h' := (denotes_fill _).mp h
  obtain ⟨_, _, _, _, _, hr⟩ := h'.inner
  obtain ⟨k1, k2, k3, k4, k5, k6⟩ := h'.outer
  have hnd := h'.nodup
  have hsub : (Trail.before (.left d a s :: up) ++ r.toList
      ++ Trail.after (.left d a s :: up)).Nodup := by
    refine hnd.sublist (List.Sublist.append_right (List.Sublist.append_left ?_ _) _)
    simp
  have har : a ∉ r.toList := fun e => h'.inner_ne (p := a) (by simp [e]) (Or.inr (by simp)) rfl
  have hndr : r.toList.Nodup := (List.nodup_append.mp (List.nodup_append.mp hsub).1).2.1
  set m' := (adopt m (some a) r.root?).setLeft a r.root? with hm'
  have hne : ∀ q, q ≠ a → m'.proc q = (adopt m (some a) r.root?).proc q :=
    fun q hq => Mem.modify_ne _ _ hq
  have hself : m'.proc a = (m.proc a).setLeft r.root? := by
    rw [hm', Mem.setLeft, Mem.modify_self, adopt_ne fun e => har (ColorTree.root?_mem e)]
  have hout : ∀ q, q ≠ a → q ∉ r.toList → m'.proc q = m.proc q := fun q h1 h2 => by
    rw [hne q h1, adopt_ne fun e => h2 (ColorTree.root?_mem e)]
  have hsame : ∀ q, q ≠ a → q ∉ r.toList → SameLinks (m'.proc q) (m.proc q) := fun q h1 h2 => by
    rw [hout q h1 h2]; exact ⟨rfl, rfl, rfl, rfl⟩
  have hnd' := hsub
  simp only [Trail.before_cons, Trail.after_cons, Frame.before_left, Frame.after_left,
    List.append_nil, List.nodup_append, List.mem_append, List.mem_cons, List.cons_append,
    List.nodup_cons] at hnd'
  obtain ⟨⟨_, _, hbr⟩, ⟨has, _, _, hsu⟩, hbs⟩ := hnd'
  refine ⟨(denotes_fill _).mpr ⟨?_, ?_, ⟨?_, ?_, ?_, ?_, ?_, ?_⟩, hsub⟩, ?_, ?_, ?_⟩
  · change (adopt m (some a) r.root?).tree.root = _
    rw [adopt_tree]
    exact h'.root
  · refine (matches_adopt (some a) hr hndr).congr fun q hq => ?_
    rw [hne q fun e => har (e ▸ hq)]
    exact ⟨rfl, rfl, rfl, rfl⟩
  · rw [hself]; exact k1
  · rw [hself]; rfl
  · rw [hself]; exact k3
  · rw [hself]; exact k4
  · refine k5.congr fun q hq => hsame q ?_ ?_
    · rintro rfl; exact has (Or.inl hq)
    · intro hqr; exact hbs q (Or.inr hqr) q (Or.inr (Or.inl hq)) rfl
  · refine k6.congr fun q hq => hsame q ?_ ?_
    · rintro rfl
      rcases hq with hq | hq
      · exact hbs q (Or.inl hq) q (Or.inl rfl) rfl
      · exact has (Or.inr hq)
    · intro hqr
      rcases hq with hq | hq
      · exact hbr q hq q hqr rfl
      · exact hbs q (Or.inr hqr) q (Or.inr (Or.inr hq)) rfl
  · intro q hq
    rw [Trail.mem_fill] at hq
    push Not at hq
    refine hout q ?_ hq.2.1
    rintro rfl; exact hq.2.2 (by simp)
  · intro q
    by_cases hq : q = a
    · rw [hq, hself]; rfl
    · rw [hne q hq, adopt_unlinked]
  · change { (adopt m (some a) r.root?).tree with root := none } = _
    rw [adopt_tree]

/-- Reshaping after a removal relinks what the removal left. -/
theorem Relinked.reshaped {m m' m'' : Mem} {t t' : ColorTree Slot} (h : Relinked t m m')
    (h' : Reshaped m' t m'' t') : Relinked t m m'' where
  outside p hp := by rw [h'.relinked.outside p hp, h.outside p hp]
  unlinked p := by rw [h'.relinked.unlinked, h.unlinked]
  tree := by rw [h'.relinked.tree, h.tree]

/-- **Case 1 of `retrievingCases` removes the minimum.** -/
theorem replaceByChild_spec {m : Mem} {up : Trail Slot} {c e : Color} {p : Slot}
    {r : ColorTree Slot} {n : Nat} (fuel : Nat) (h : Denotes m (Trail.fill up (.node c .nil p r)))
    (hl : Trail.Leftmost up) (ht : (ColorTree.node c .nil p r).Balanced e n)
    (hu : Trail.Balanced up e n) (hfuel : up.length + 2 ≤ fuel) :
    ∃ m', replaceByChild fuel m (parentOf up) p = .ok m' ∧ Denotes m' (removeMin up c r) ∧
      Relinked (Trail.fill up r) m m' := by
  have h' := (denotes_fill _).mp h
  obtain ⟨hc, _, hr, _, _, hmr⟩ := h'.inner
  cases up with
  | nil =>
      obtain ⟨hden, hrel⟩ := denotes_unlink_root h
      have hroot : some p = m.tree.root := h.root.symm
      unfold replaceByChild removeMin
      rw [if_pos hroot, if_pos rfl, hr]
      cases r with
      | nil => exact ⟨_, rfl, hden, hrel⟩
      | node f l q y =>
          have h₁ := reshaped_setColor [] .black hden
          exact ⟨_, rfl, h₁.denotes, hrel.reshaped h₁⟩
  | cons f up =>
      obtain ⟨d, a, s, rfl⟩ := hl f (by simp)
      obtain ⟨hden, hrel⟩ := denotes_unlink h
      have hroot : some p ≠ m.tree.root := by
        rw [h'.root]
        intro e
        exact h'.inner_ne (p := p) (by simp) (rootOf_mem e.symm) rfl
      unfold replaceByChild
      rw [if_neg hroot, hr, hc]
      -- a black minimum: the loop repairs what is left
      have hloop : c = .black → ∃ m', retrievingLoop fuel
          ((adopt m (some a) r.root?).setLeft a r.root?) (some a) r.root? = .ok m' ∧
          Reshaped ((adopt m (some a) r.root?).setLeft a r.root?)
            (Trail.fill (.left d a s :: up) r) m' (fixDelete (.left d a s :: up) r) := by
        rintro rfl
        cases ht with
        | black _ hrb => exact retrievingLoop_spec hden hl hrb hu hfuel
      cases r with
      | nil =>
          cases c with
          | red => exact ⟨_, rfl, by simpa [removeMin, adopt] using hden, hrel⟩
          | black =>
              obtain ⟨m', hrun, h₁⟩ := hloop rfl
              exact ⟨m', hrun, by simpa [removeMin] using h₁.denotes, hrel.reshaped h₁⟩
      | node f l q y =>
          have hq : (m.proc q).color = f := hmr.1
          simp only [ColorTree.root?_node, hq, parentOf_cons, Frame.label_left, deref_some, ok_bind,
            pure_eq_ok]
          by_cases hcf : c = f
          · subst hcf
            cases c with
            | red => cases ht with | red _ hrb => cases hrb
            | black =>
                obtain ⟨m', hrun, h₁⟩ := hloop rfl
                exact ⟨m', hrun, by simpa [removeMin] using h₁.denotes, hrel.reshaped h₁⟩
          · have h₁ := reshaped_setColor (.left d a s :: up) .black hden
            rw [if_pos hcf]
            exact ⟨_, rfl, by simpa [removeMin, adopt, hcf] using h₁.denotes, hrel.reshaped h₁⟩

/-- What removing `p`, the first process, does to the memory `m` whose links denote `t`. -/
structure Removed (m : Mem) (t : ColorTree Slot) (p : Slot) (m' : Mem) (t' : ColorTree Slot) :
    Prop where
  denotes : Denotes m' t'
  toList : t.toList = p :: t'.toList
  outside : ∀ q, q ∉ t.toList → m'.proc q = m.proc q
  unlinked : ∀ q, (m'.proc q).unlinked = (m.proc q).unlinked
  left : (m'.proc p).left = none
  right : (m'.proc p).right = none
  pParent : (m'.proc p).pParent = none
  tree : { m'.tree with root := none } = { m.tree with root := none }

/-- **`retrievingCases` removes the first process.** -/
theorem retrievingCases_spec {m : Mem} {t : ColorTree Slot} {p : Slot} {n : Nat}
    (h : Denotes m t) (hb : t.Balanced .black n) (hp : t.toList.head? = some p) :
    ∃ m' t', retrievingCases loopFuel m (m.proc p).pParent p = .ok m' ∧ Removed m t p m' t' ∧
      ∃ k, t'.Balanced .black k := by
  have hne : t ≠ .nil := by rintro rfl; simp at hp
  obtain ⟨up, c, a, r, -, hl, hfill, ⟨e, k, hnode, hup⟩, hlist, hbal⟩ := removeMin_spec hne hb
  obtain rfl : a = p := by simpa [hlist] using hp
  have hlen : up.length ≤ NPROC := by
    refine (Trail.length_le up (.node c .nil a r)).trans ?_
    rw [← hfill]
    exact length_le_NPROC h.nodup
  rw [hfill] at h
  obtain ⟨_, _, _, hpar, _, _⟩ := ((denotes_fill _).mp h).inner
  obtain ⟨m₁, hrun, hden, hrel⟩ := replaceByChild_spec loopFuel h hl hnode hup
    (by simp only [loopFuel, NPROC] at *; omega)
  set m' := ((m₁.setPParent a none).setLeft a none).setRight a none with hm'
  have hself : m'.proc a = (((m₁.proc a).setPParent none).setLeft none).setRight none := by
    simp [hm', Mem.setPParent, Mem.setLeft, Mem.setRight]
  have hother : ∀ q, q ≠ a → m'.proc q = m₁.proc q := fun q hq => by
    simp [hm', Mem.setPParent, Mem.setLeft, Mem.setRight, Mem.modify_proc, hq]
  have hnd : (a :: (removeMin up c r).toList).Nodup := by
    rw [← hlist, hfill]; exact h.nodup
  refine ⟨m', removeMin up c r, ?_, ⟨?_, hlist, ?_, ?_, ?_, ?_, ?_, hrel.tree⟩, hbal⟩
  · rw [retrievingCases, hpar, hrun]; rfl
  · refine hden.congr rfl fun q hq => ?_
    rw [hother q fun e => (List.nodup_cons.mp hnd).1 (e ▸ hq)]
    exact ⟨rfl, rfl, rfl, rfl⟩
  · intro q hq
    rw [hlist, List.mem_cons] at hq
    push Not at hq
    rw [hother q hq.1, hrel.outside q fun e => hq.2 (toList_removeMin up c r ▸ e)]
  · intro q
    by_cases hq : q = a
    · rw [hq, hself, ← hrel.unlinked a]; rfl
    · rw [hother q hq, hrel.unlinked]
  · rw [hself]; rfl
  · rw [hself]; rfl
  · rw [hself]; rfl

/-! ## The whole of `retrieveProcess` -/

/-- The period after a retrieval from a queue of `n` processes. -/
def nextPeriod (n period : Int) : Int :=
  if n > latency.tdiv minGranularity then n * minGranularity else period

/-- What retrieving `p` does to the memory `m` whose queue is `t`. -/
structure Retrieved (m : Mem) (t : ColorTree Slot) (p : Slot) (m' : Mem) (t' : ColorTree Slot) :
    Prop where
  rep : QueueRep m' t'
  toList : t.toList = p :: t'.toList
  outside : ∀ q, q ∉ t.toList → m'.proc q = m.proc q
  unlinked : ∀ q, q ≠ p → (m'.proc q).unlinked = (m.proc q).unlinked
  retrieved : (m'.proc p).unlinked = (m.proc p).unlinked.setMaxExecutionTime
    ((nextPeriod m.tree.count m.tree.period * (m.proc p).weightVal).tdiv m.tree.treeWeight)
  left : (m'.proc p).left = none
  right : (m'.proc p).right = none
  pParent : (m'.proc p).pParent = none
  period : m'.tree.period = nextPeriod m.tree.count m.tree.period
  locked : m'.tree.locked = m.tree.locked

/-- An empty queue gives nothing. -/
theorem retrieveProcessLocked_empty {m : Mem} {t : ColorTree Slot} (h : QueueRep m t)
    (ht : t.toList = []) : retrieveProcessLocked m = .ok (m, none) := by
  unfold retrieveProcessLocked
  rw [if_pos (by simp [RBTree.isEmpty, h.count, ht])]

/-- **`retrieveProcess` takes the first process out of the queue.** -/
theorem retrieveProcessLocked_spec {m : Mem} {t : ColorTree Slot} {p : Slot}
    (h : QueueRep m t) (hp : t.toList.head? = some p) :
    ∃ m' t', retrieveProcessLocked m = .ok (m', some p) ∧ Retrieved m t p m' t' := by
  obtain ⟨n, hb⟩ := h.balanced
  have hmem : p ∈ t.toList := List.mem_of_head? hp
  have hempty : m.tree.isEmpty = false := by
    have := List.length_pos_of_mem hmem
    simp only [RBTree.isEmpty, h.count, beq_eq_false_iff_ne]
    omega
  -- the period is written first
  set m₁ := updatePeriod m with hm₁
  have hproc₁ : m₁.proc = m.proc := by
    simp only [hm₁, updatePeriod]; split <;> rfl
  have htree₁ : m₁.tree = m.tree.setPeriod (nextPeriod m.tree.count m.tree.period) := by
    simp only [hm₁, updatePeriod, nextPeriod]; split <;> rfl
  have hden₁ : Denotes m₁ t := h.denotes.congr (by rw [htree₁]; rfl) fun q _ => by
    rw [hproc₁]; exact ⟨rfl, rfl, rfl, rfl⟩
  obtain ⟨m₂, t', hrun, hrem, hb'⟩ := retrievingCases_spec hden₁ hb hp
  have htree₂ : { m₂.tree with root := none } = { m₁.tree with root := none } := hrem.tree
  simp only [htree₁, RBTree.mk.injEq, RBTree.setPeriod_count, RBTree.setPeriod_treeWeight,
    RBTree.setPeriod_minvRuntime, RBTree.setPeriod_locked, RBTree.setPeriod_period] at htree₂
  obtain ⟨hcount₂, hweight₂, -, hmin₂, hlocked₂, hperiod₂⟩ := htree₂
  have hun : ∀ q, (m₂.proc q).unlinked = (m.proc q).unlinked := fun q => by
    rw [hrem.unlinked, hproc₁]
  have hw₂ : (m₂.proc p).weightVal = (m.proc p).weightVal := by
    simpa using congrArg Proc.weightVal (hun p)
  -- what is left of the queue
  have hnd : (p :: t'.toList).Nodup := hrem.toList ▸ h.denotes.nodup
  have hsum : m.tree.treeWeight = (m.proc p).weightVal +
      (t'.toList.map fun q => (m.proc q).weightVal).sum := by
    rw [h.treeWeight, hrem.toList, List.map_cons, List.sum_cons]
  have hpos : 0 < m.tree.treeWeight := by
    have h1 := h.weight_pos p hmem
    have h2 : 0 ≤ (t'.toList.map fun q => (m.proc q).weightVal).sum := by
      refine List.sum_nonneg fun x hx => ?_
      obtain ⟨q, hq, rfl⟩ := List.mem_map.mp hx
      exact (h.weight_pos q (by rw [hrem.toList]; simp [hq])).le
    omega
  have hfind : setMinimumVRuntimeproc (m₂.setCount (m₂.tree.count - 1)) loopFuel
      (m₂.setCount (m₂.tree.count - 1)).tree.root = .ok t'.toList.head? := by
    refine (congrArg _ hrem.denotes.root).trans ?_
    exact setMinimumVRuntimeproc_eq (m := m₂.setCount _) hrem.denotes.links
      ((height_le_NPROC hrem.denotes.nodup).trans_lt (by decide))
  set slice := (nextPeriod m.tree.count m.tree.period * (m.proc p).weightVal).tdiv
    m.tree.treeWeight
  set m' := (((m₂.setCount (m₂.tree.count - 1)).setMin t'.toList.head?).setMaxExecutionTime p
    slice).setTreeWeight (m.tree.treeWeight - (m.proc p).weightVal) with hm'
  have hself : m'.proc p = (m₂.proc p).setMaxExecutionTime slice := by
    simp [hm', Mem.setMaxExecutionTime]
  have hother : ∀ q, q ≠ p → m'.proc q = m₂.proc q := fun q hq => by
    simp [hm', Mem.setMaxExecutionTime, Mem.modify_proc, hq]
  have hne : ∀ q ∈ t'.toList, q ≠ p := fun q hq e => (List.nodup_cons.mp hnd).1 (e ▸ hq)
  have hun' : ∀ q, q ≠ p → (m'.proc q).unlinked = (m.proc q).unlinked := fun q hq => by
    rw [hother q hq, hun]
  have hfields : ∀ q ∈ t'.toList, (m'.proc q).virtualRuntime = (m.proc q).virtualRuntime ∧
      (m'.proc q).weightVal = (m.proc q).weightVal ∧ (m'.proc q).state = (m.proc q).state := by
    intro q hq
    have e := hun' q (hne q hq)
    exact ⟨by simpa using congrArg Proc.virtualRuntime e,
      by simpa using congrArg Proc.weightVal e, by simpa using congrArg Proc.state e⟩
  have hold : ∀ q ∈ t'.toList, q ∈ t.toList := fun q hq => by rw [hrem.toList]; simp [hq]
  refine ⟨m', t', ?_, ⟨⟨?_, hb', ?_, ?_, ?_, ?_, rfl, ?_⟩, hrem.toList, ?_, hun', ?_, ?_, ?_, ?_,
    hperiod₂, hlocked₂⟩⟩
  · unfold retrieveProcessLocked
    have hminv : m₁.tree.minvRuntime = some p := by rw [htree₁]; exact h.minvRuntime.trans hp
    have hstate : (m₁.proc p).state = .runnable := by rw [hproc₁]; exact h.runnable p hmem
    have hdiv : divInt (((m₂.setCount (m₂.tree.count - 1)).setMin t'.toList.head?).tree.period *
        (((m₂.setCount (m₂.tree.count - 1)).setMin t'.toList.head?).proc p).weightVal)
        ((m₂.setCount (m₂.tree.count - 1)).setMin t'.toList.head?).tree.treeWeight = .ok slice := by
      simp [divInt, hperiod₂, hw₂, hweight₂, hpos.ne', slice]
    simp only [hempty, Bool.false_eq_true, if_false, ← hm₁, hminv, deref_some, ok_bind, hstate,
      ne_eq, not_true_eq_false, hrun, hfind, hdiv, pure_eq_ok]
    simp only [hm', Mem.setMaxExecutionTime, Mem.modify_tree, Mem.modify_self, Mem.setMin_tree,
      Mem.setCount_tree, RBTree.setMin_treeWeight, RBTree.setCount_treeWeight, hweight₂,
      Proc.setMaxExecutionTime_weightVal, Mem.setMin_proc, Mem.setCount_proc, hw₂]
  · refine hrem.denotes.congr rfl fun q hq => ?_
    rw [hother q (hne q hq)]
    exact ⟨rfl, rfl, rfl, rfl⟩
  · have hs := h.sorted
    rw [hrem.toList] at hs
    refine hs.tail.imp_of_mem fun hq hr hle => ?_
    simpa only [(hfields _ hq).1, (hfields _ hr).1] using hle
  · change m₂.tree.count - 1 = _
    rw [hcount₂, h.count, hrem.toList]
    simp
  · change m.tree.treeWeight - (m.proc p).weightVal = _
    rw [hsum, List.map_congr_left fun q hq => (hfields q hq).2.1]
    omega
  · intro q hq
    rw [(hfields q hq).2.1]
    exact h.weight_pos q (hold q hq)
  · intro q hq
    rw [(hfields q hq).2.2]
    exact h.runnable q (hold q hq)
  · intro q hq
    rw [hother q fun e => hq (e ▸ hmem), hrem.outside q hq, hproc₁]
  · rw [hself, ← hun p]; rfl
  · rw [hself]; exact hrem.left
  · rw [hself]; exact hrem.right
  · rw [hself]; exact hrem.pParent

end Xv6Cfs
