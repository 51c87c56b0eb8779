import Xv6Cfs.RedBlack.Tree

/-!
# Removing the minimum of a red-black tree

The minimum is at the bottom of the left spine, so it has no left child and
every frame above it is a left frame. Its right child takes its place. When that
costs a black node, the repair climbs the spine, always looking at a sibling on
the right: no mirror image is ever needed.
-/

namespace RedBlack

variable {α : Type}

/-- Follow the left spine: the trail above the minimum, its colour, its label, its right child. -/
def zoomMin : ColorTree α → Trail α → Option (Trail α × Color × α × ColorTree α)
  | .nil, _ => none
  | .node c .nil a r, up => some (up, c, a, r)
  | .node c (.node d l b s) a r, up => zoomMin (.node d l b s) (.left c a r :: up)

theorem zoomMin_spec {t : ColorTree α} (ht : t ≠ .nil) {up : Trail α} (hup : Trail.Leftmost up) :
    ∃ trail c a r, zoomMin t up = some (trail, c, a, r) ∧ Trail.Leftmost trail ∧
      Trail.fill up t = Trail.fill trail (.node c .nil a r) ∧
      ∀ d n, t.Balanced d n → Trail.Balanced up d n →
        ∃ e m, (ColorTree.node c .nil a r).Balanced e m ∧ Trail.Balanced trail e m := by
  fun_induction zoomMin t up with
  | case1 => exact absurd rfl ht
  | case2 c a r up => exact ⟨up, c, a, r, rfl, hup, rfl, fun d n h1 h2 => ⟨d, n, h1, h2⟩⟩
  | case3 c d l b s a r up ih =>
      obtain ⟨trail, e, x, q, h1, h2, h3, h4⟩ := ih (by simp) hup.cons
      refine ⟨trail, e, x, q, h1, h2, h3, ?_⟩
      intro f n hb hu
      cases hb with
      | red hl hr => exact h4 _ _ hl (.redLeft hr hu)
      | black hl hr => exact h4 _ _ hl (.blackLeft hr hu)

/--
The last rotations of the repair, when the black sibling `x` of the deficient
subtree `t` has a red child: `x`, or its left child if the right one is black,
takes the place and the colour of the parent `a`.
-/
def fixNephew (c : Color) (a : α) (sl : ColorTree α) (x : α) (sr : ColorTree α) (up : Trail α)
    (t : ColorTree α) : ColorTree α :=
  if sr.color = .red then
    (Trail.fill up (.node c (.node .black t a sl) x (sr.paint .black))).paint .black
  else match sl with
    | .node _ l y r =>
        (Trail.fill up (.node c (.node .black t a l) y (.node .black r x sr))).paint .black
    | .nil => Trail.fill up (.node c t a (.node .black sl x sr))

/--
Repair a left trail whose hole now holds a black subtree one black node short.

A red sibling is rotated above the parent, which gives the subtree a black
sibling and a red parent. A black sibling with black children is painted red,
which settles the matter under a red parent and otherwise moves the shortage up.
A black sibling with a red child ends the repair.
-/
def fixShort : Trail α → ColorTree α → ColorTree α
  | [], t => t.paint .black
  | .left _ a (.node .red (.node _ sl x sr) b r) :: up, t =>
      if sl.color = .black ∧ sr.color = .black then
        Trail.fill up (.node .black (.node .black t a (.node .red sl x sr)) b r)
      else fixNephew .red a sl x sr (.left .black b r :: up) t
  | .left c a (.node .black sl x sr) :: up, t =>
      if sl.color = .black ∧ sr.color = .black then
        if c = .red then Trail.fill up (.node .black t a (.node .red sl x sr))
        else fixShort up (.node .black t a (.node .red sl x sr))
      else fixNephew c a sl x sr up t
  | up, t => Trail.fill up t

/-- Repair a left trail: a red subtree is painted black, and that is all. -/
def fixDelete (up : Trail α) (t : ColorTree α) : ColorTree α :=
  if t.color = .red then Trail.fill up (t.paint .black) else fixShort up t

theorem toList_fixNephew (c : Color) (a : α) (sl : ColorTree α) (x : α) (sr : ColorTree α)
    (up : Trail α) (t : ColorTree α) : (fixNephew c a sl x sr up t).toList =
      (Trail.fill up (.node c t a (.node .black sl x sr))).toList := by
  unfold fixNephew
  split
  · simp [Trail.toList_fill]
  · cases sl <;> simp [Trail.toList_fill]

theorem toList_fixShort (up : Trail α) (t : ColorTree α) :
    (fixShort up t).toList = (Trail.fill up t).toList := by
  fun_induction fixShort up t <;> simp_all [Trail.toList_fill, toList_fixNephew]

/-- Repairing moves no label. -/
theorem toList_fixDelete (up : Trail α) (t : ColorTree α) :
    (fixDelete up t).toList = (Trail.fill up t).toList := by
  unfold fixDelete
  split
  · simp [Trail.toList_fill]
  · exact toList_fixShort up t

/-- A red nephew pays for the missing black node. -/
theorem balanced_fixNephew {c d e : Color} {a x : α} {sl sr t : ColorTree α} {up : Trail α}
    {n k : Nat}
    (ht : t.Balanced .black n) (hl : sl.Balanced d n) (hr : sr.Balanced e n)
    (hred : ¬(sl.color = .black ∧ sr.color = .black))
    (hu : Trail.Balanced up c k) (hk : k = n + 1 + (if c = .black then 1 else 0)) :
    ∃ m, (fixNephew c a sl x sr up t).Balanced .black m := by
  have hnode : ∀ {p q : ColorTree α} {y : α},
      p.Balanced .black (n + 1) → q.Balanced .black (n + 1) →
      (ColorTree.node c p y q).Balanced c k := by
    intro p q y hp hq
    cases c with
    | red => simp at hk; subst hk; exact .red hp hq
    | black => simp at hk; subst hk; exact .black hp hq
  unfold fixNephew
  cases e with
  | red =>
      rw [if_pos hr.color_eq]
      obtain ⟨m, hm⟩ := hu.fill (hnode (y := x) (.black (a := a) ht hl) hr.paint_red)
      exact ⟨m, hm.paint_black⟩
  | black =>
      rw [if_neg (by rw [hr.color_eq]; decide)]
      cases hl with
      | nil => exact absurd ⟨rfl, hr.color_eq⟩ hred
      | black h1 h2 => exact absurd ⟨rfl, hr.color_eq⟩ hred
      | @red l r y _ h1 h2 =>
          obtain ⟨m, hm⟩ := hu.fill
            (hnode (y := y) (.black (a := a) ht h1) (.black (a := x) h2 hr))
          exact ⟨m, hm.paint_black⟩

theorem balanced_fixShort (up : Trail α) (t : ColorTree α) {c : Color} {n : Nat}
    (hl : Trail.Leftmost up) (ht : t.Balanced .black n) (hu : Trail.Balanced up c (n + 1)) :
    ∃ m, (fixShort up t).Balanced .black m := by
  induction up generalizing t c n with
  | nil => exact ⟨n, ht.paint_black⟩
  | cons f up ih =>
    obtain ⟨c', a, s, rfl⟩ := hl f (by simp)
    cases hu with
    | redLeft hs hup =>
        -- a red parent has a black sibling below it, and absorbs the shortage
        cases hs with
        | @black sl sr x d e _ h1 h2 =>
            rw [fixShort]
            split
            · rename_i hb
              rw [h1.color_eq, h2.color_eq] at hb
              obtain ⟨rfl, rfl⟩ := hb
              exact hup.black_of_any.fill (.black ht (.red h1 h2))
            · rename_i hb
              exact balanced_fixNephew ht h1 h2 hb hup (by simp)
    | blackLeft hs hup =>
        cases hs with
        | @red sib r b _ hsib hr =>
            cases hsib with
            | @black sl sr x d e _ h1 h2 =>
                rw [fixShort]
                split
                · rename_i hb
                  rw [h1.color_eq, h2.color_eq] at hb
                  obtain ⟨rfl, rfl⟩ := hb
                  exact hup.fill (.black (.black ht (.red h1 h2)) hr)
                · rename_i hb
                  -- the rotated trail: a red parent under the old sibling, now black
                  exact balanced_fixNephew ht h1 h2 hb (.blackLeft hr hup) (by simp)
        | @black sl sr x d e _ h1 h2 =>
            rw [fixShort]
            split
            · rename_i hb
              rw [h1.color_eq, h2.color_eq] at hb
              obtain ⟨rfl, rfl⟩ := hb
              exact ih _ hl.tail (.black ht (.red h1 h2)) hup
            · rename_i hb
              exact balanced_fixNephew ht h1 h2 hb hup (by simp)

/-- **Repairing restores the balance.** -/
theorem balanced_fixDelete (up : Trail α) (t : ColorTree α) {c d : Color} {n : Nat}
    (hl : Trail.Leftmost up) (ht : t.Balanced d n) (hu : Trail.Balanced up c (n + 1)) :
    ∃ m, (fixDelete up t).Balanced .black m := by
  unfold fixDelete
  rw [ht.color_eq]
  cases d with
  | red => exact hu.black_of_any.fill ht.paint_red
  | black => exact balanced_fixShort up t hl ht hu

/--
Put the right child `r` of the minimum in its place. At the root and when one of
the two is red nothing but a colour changes; when both are black the trail is one
black node short.
-/
def removeMin (up : Trail α) (c : Color) (r : ColorTree α) : ColorTree α :=
  if up = [] then r.paint .black
  else if r.root?.isSome ∧ c ≠ r.color then Trail.fill up (r.paint .black)
  else if c = .red then Trail.fill up r
  else fixDelete up r

theorem toList_removeMin (up : Trail α) (c : Color) (r : ColorTree α) :
    (removeMin up c r).toList = (Trail.fill up r).toList := by
  unfold removeMin
  split
  · rename_i h; subst h; simp
  · split
    · simp [Trail.toList_fill]
    · split
      · rfl
      · exact toList_fixDelete up r

theorem balanced_removeMin {up : Trail α} {c e : Color} {a : α} {r : ColorTree α} {n : Nat}
    (hl : Trail.Leftmost up) (ht : (ColorTree.node c .nil a r).Balanced e n)
    (hu : Trail.Balanced up e n) : ∃ m, (removeMin up c r).Balanced .black m := by
  unfold removeMin
  cases ht with
  | red _ hr =>
      split
      · rename_i h; subst h; cases hu
      · split
        · exact hu.black_of_any.fill hr.paint_black
        · exact hu.black_of_any.fill hr
  | @black _ _ _ _ d k _ hr =>
      split
      · cases d with
        | red => exact ⟨_, hr.paint_red⟩
        | black => exact ⟨_, hr.paint_black⟩
      · split
        · rename_i h
          have hd : d = .red := by
            rw [hr.color_eq] at h
            cases d with
            | red => rfl
            | black => exact absurd rfl h.2
          subst hd
          exact hu.fill hr.paint_red
        · exact balanced_fixDelete up r hl hr hu

/--
**Removing the minimum of a red-black tree.** The bottom of the left spine holds
the first label of the list; what is left after the repair is a red-black tree
holding the rest of the list.
-/
theorem removeMin_spec {t : ColorTree α} {n : Nat} (ht : t ≠ .nil) (hb : t.Balanced .black n) :
    ∃ up c a r, zoomMin t [] = some (up, c, a, r) ∧ Trail.Leftmost up ∧
      t = Trail.fill up (.node c .nil a r) ∧
      (∃ d m, (ColorTree.node c .nil a r).Balanced d m ∧ Trail.Balanced up d m) ∧
      t.toList = a :: (removeMin up c r).toList ∧
      ∃ m, (removeMin up c r).Balanced .black m := by
  obtain ⟨up, c, a, r, hz, hl, ht', hbal⟩ := zoomMin_spec ht Trail.Leftmost.nil
  obtain ⟨e, m, h1, h2⟩ := hbal _ _ hb .root
  refine ⟨up, c, a, r, hz, hl, ht', ⟨e, m, h1, h2⟩, ?_, balanced_removeMin hl h1 h2⟩
  rw [toList_removeMin, show t = Trail.fill up (.node c .nil a r) from ht']
  simp [Trail.toList_fill, hl.before]

end RedBlack
