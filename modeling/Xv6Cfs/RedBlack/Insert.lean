import Xv6Cfs.RedBlack.Tree
import Xv6Cfs.Queue.Stable

/-!
# Insertion into a red-black tree

The newcomer descends to a missing child, equal keys to the right, and is
attached there as a red leaf. If its parent is red too, the repair climbs two
levels at a time, recolouring while the uncle is red, and ends with at most two
rotations.

Every step of the repair keeps the labels in place, so the list of the tree is
the list of a stable priority queue after one insertion.
-/

namespace RedBlack

open StableQueue

variable {α κ : Type} [LinearOrder κ]

namespace ColorTree

/-- Attach `p` as a red leaf, to the right of everything whose key is not larger. -/
def insertLeaf (key : α → κ) (p : α) : ColorTree α → ColorTree α
  | nil => node .red nil p nil
  | node c l a r =>
      if key a ≤ key p then node c l a (insertLeaf key p r) else node c (insertLeaf key p l) a r

/-- The trail from the place of `p` in `t` up to the root. -/
def descend (key : α → κ) (p : α) : ColorTree α → Trail α → Trail α
  | nil, up => up
  | node c l a r, up =>
      if key a ≤ key p then descend key p r (.right c l a :: up)
      else descend key p l (.left c a r :: up)

theorem perm_insertLeaf (key : α → κ) (p : α) (t : ColorTree α) :
    (t.insertLeaf key p).toList.Perm (p :: t.toList) := by
  induction t with
  | nil => exact .refl _
  | node c l b r ihl ihr =>
      rw [insertLeaf]
      split
      · refine ((List.Perm.cons b ihr).append_left l.toList).trans ?_
        exact ((List.Perm.swap p b r.toList).append_left l.toList).trans List.perm_middle
      · exact ihl.append_right (b :: r.toList)

theorem mem_insertLeaf {key : α → κ} {p a : α} {t : ColorTree α} :
    a ∈ (t.insertLeaf key p).toList ↔ a = p ∨ a ∈ t.toList := by
  simp [(perm_insertLeaf key p t).mem_iff]

theorem nodup_insertLeaf (key : α → κ) {p : α} {t : ColorTree α} (hp : p ∉ t.toList)
    (ht : t.toList.Nodup) : (t.insertLeaf key p).toList.Nodup :=
  (perm_insertLeaf key p t).nodup_iff.mpr (List.nodup_cons.mpr ⟨hp, ht⟩)

theorem fill_descend (key : α → κ) (p : α) (t : ColorTree α) (up : Trail α) :
    Trail.fill (t.descend key p up) (node .red nil p nil) = Trail.fill up (t.insertLeaf key p) := by
  induction t generalizing up with
  | nil => rfl
  | node c l a r ihl ihr =>
      rw [descend, insertLeaf]
      split
      · exact ihr _
      · exact ihl _

theorem length_descend (key : α → κ) (p : α) (t : ColorTree α) (up : Trail α) :
    (t.descend key p up).length ≤ t.height + up.length := by
  induction t generalizing up with
  | nil => simp [descend]
  | node c l a r ihl ihr =>
      rw [descend, height]
      split
      · have := ihr (.right c l a :: up)
        simp only [List.length_cons] at this
        omega
      · have := ihl (.left c a r :: up)
        simp only [List.length_cons] at this
        omega

/-- A new minimum descends to the left of the old one. -/
theorem leftmost_descend {key : α → κ} {p : α} {t : ColorTree α} {up : Trail α}
    (h : ∀ a ∈ t.toList, key p < key a) (hup : Trail.Leftmost up) :
    Trail.Leftmost (t.descend key p up) ∧ ∀ q, t.toList.head? = some q →
      ∃ f trail, t.descend key p up = f :: trail ∧ f.label = q := by
  induction t generalizing up with
  | nil => exact ⟨hup, by simp⟩
  | node c l a r ihl ihr =>
      rw [descend, if_neg (not_le.mpr (h a (by simp)))]
      obtain ⟨h1, h2⟩ := ihl (fun b hb => h b (by simp [hb])) (hup.cons (c := c) (a := a) (r := r))
      refine ⟨h1, fun q hq => ?_⟩
      cases l with
      | nil => exact ⟨.left c a r, up, rfl, by simpa using hq⟩
      | node d l b s =>
          refine h2 q ?_
          rw [toList_node, List.head?_append] at hq
          cases hl : (node d l b s).toList.head? with
          | none => simp at hl
          | some x => rw [hl] at hq; exact hq

/-- The hole at the end of the descent is where a missing child was. -/
theorem Balanced.descend {t : ColorTree α} {c : Color} {n : Nat} (key : α → κ) (p : α)
    (ht : t.Balanced c n) {up : Trail α} (hu : Trail.Balanced up c n) :
    Trail.Balanced (t.descend key p up) .black 0 := by
  induction ht generalizing up with
  | nil => exact hu
  | red hl hr ihl ihr =>
      rw [ColorTree.descend]
      split
      · exact ihr (.redRight hl hu)
      · exact ihl (.redLeft hr hu)
  | black hl hr ihl ihr =>
      rw [ColorTree.descend]
      split
      · exact ihr (.blackRight hl hu)
      · exact ihl (.blackLeft hr hu)

/-- **Attaching a leaf in a search tree is inserting into its list.** -/
theorem toList_insertLeaf {key : α → κ} (p : α) {t : ColorTree α} (h : SortedBy key t.toList) :
    (t.insertLeaf key p).toList = insertBy key p t.toList := by
  induction t with
  | nil => rfl
  | node c l a r ihl ihr =>
      obtain ⟨hl, har, hlr⟩ := List.pairwise_append.mp h
      obtain ⟨_, hr⟩ := List.pairwise_cons.mp har
      rw [insertLeaf, toList_node]
      split
      · rename_i hap
        have hpre : ∀ b ∈ l.toList ++ [a], key b ≤ key p := by
          intro b hb
          rcases List.mem_append.mp hb with hb | hb
          · exact le_trans (hlr b hb a (by simp)) hap
          · rw [List.mem_singleton.mp hb]; exact hap
        have := insertBy_append_right r.toList hpre
        simpa [ihr hr] using this.symm
      · rename_i hap
        rw [toList_node, ihl hl, insertBy_append_left _ _ (not_le.mp hap)]

end ColorTree

/--
Repair a trail below which a red node `t` has appeared. Only a red parent is a
problem, and then there is a grandparent: with a red uncle the two are painted
black and the grandparent becomes the new red node, otherwise the trail below the
grandparent is rotated into place.
-/
def fixInsert : Trail α → ColorTree α → ColorTree α
  | [], t => t.paint .black
  | .left .red p s :: .left _ g u :: up, t =>
      if u.color = .red then fixInsert up (.node .red (.node .black t p s) g (u.paint .black))
      else Trail.fill up (.node .black t p (.node .red s g u))
  | .right .red s p :: .left c g u :: up, t =>
      if u.color = .red then fixInsert up (.node .red (.node .black s p t) g (u.paint .black))
      else match t with
        | .node _ l x r => Trail.fill up (.node .black (.node .red s p l) x (.node .red r g u))
        | .nil => Trail.fill (.right .red s p :: .left c g u :: up) t
  | .left .red p s :: .right c u g :: up, t =>
      if u.color = .red then fixInsert up (.node .red (u.paint .black) g (.node .black t p s))
      else match t with
        | .node _ l x r => Trail.fill up (.node .black (.node .red u g l) x (.node .red r p s))
        | .nil => Trail.fill (.left .red p s :: .right c u g :: up) t
  | .right .red s p :: .right _ u g :: up, t =>
      if u.color = .red then fixInsert up (.node .red (u.paint .black) g (.node .black s p t))
      else Trail.fill up (.node .black (.node .red u g s) p t)
  | up, t => Trail.fill up t

/-- Repairing moves no label. -/
theorem toList_fixInsert (up : Trail α) (t : ColorTree α) :
    (fixInsert up t).toList = (Trail.fill up t).toList := by
  fun_induction fixInsert up t <;> simp_all [Trail.toList_fill]

/-- A black parent leaves nothing to repair. -/
theorem fixInsert_black {f : Frame α} (hf : f.color = .black) (up : Trail α) (t : ColorTree α) :
    fixInsert (f :: up) t = Trail.fill (f :: up) t := by
  cases f <;> simp_all [fixInsert]

/-- A red parent with a red sibling: both are painted black, and the repair climbs. -/
theorem fixInsert_recolor {f g : Frame α} (hf : f.color = .red) (hg : g.sibling.color = .red)
    (up : Trail α) (t : ColorTree α) :
    fixInsert (f :: g :: up) t =
      fixInsert up (((g.paintSibling .black).recolor .red).attach
        ((f.recolor .black).attach t)) := by
  cases f <;> cases g <;>
    simp_all [fixInsert, Frame.sibling, Frame.recolor, Frame.paintSibling]

/--
Above a new minimum only outer rotations happen, so the old minimum `q`, its
parent, keeps a left child.
-/
theorem hasLeft_fixInsert {up : Trail α} {t : ColorTree α} {q : α} (hup : Trail.Leftmost up)
    (ht : t ≠ .nil) (hq : t.HasLeft q ∨ ∃ f trail, up = f :: trail ∧ f.label = q) :
    (fixInsert up t).HasLeft q := by
  fun_induction fixInsert up t with
  | case1 t => simpa using hq
  | case2 t p s c g u up hu ih =>
      refine ih hup.tail.tail (by simp) (Or.inl ?_)
      rcases hq with h | ⟨f, trail, e, h⟩
      · simp [h]
      · obtain ⟨rfl, rfl⟩ := List.cons.inj e
        simp_all
  | case3 =>
      refine Trail.hasLeft_fill _ ?_
      rcases hq with h | ⟨f, trail, e, h⟩
      · simp [h]
      · obtain ⟨rfl, rfl⟩ := List.cons.inj e
        simp_all
  | case4 => exact absurd hup Trail.Leftmost.not_right
  | case5 => exact absurd hup Trail.Leftmost.not_right
  | case6 => exact absurd hup Trail.Leftmost.not_right
  | case7 => exact absurd hup.tail Trail.Leftmost.not_right
  | case8 => exact absurd hup.tail Trail.Leftmost.not_right
  | case9 => exact absurd hup.tail Trail.Leftmost.not_right
  | case10 => exact absurd hup Trail.Leftmost.not_right
  | case11 => exact absurd hup Trail.Leftmost.not_right
  | case12 up t h1 h2 h3 h4 h5 =>
      rcases hq with h | ⟨f, trail, rfl, h⟩
      · exact Trail.hasLeft_fill up h
      · obtain ⟨c, a, r, rfl⟩ := hup f (by simp)
        refine Trail.hasLeft_fill (t := .node c t a r) trail ?_
        simp_all

/-- **Repairing restores the balance.** -/
theorem balanced_fixInsert (up : Trail α) (l r : ColorTree α) (x : α) {c : Color} {n : Nat}
    (hl : l.Balanced .black n) (hr : r.Balanced .black n) (hu : Trail.Balanced up c n) :
    ∃ m, (fixInsert up (.node .red l x r)).Balanced .black m := by
  induction hlen : up.length using Nat.strongRecOn generalizing up l r x c n with
  | ind k ih =>
    subst hlen
    cases hu with
    | root => exact ⟨n + 1, .black hl hr⟩
    | blackLeft hs hu =>
        rw [fixInsert_black rfl]
        exact Trail.Balanced.fill (.blackLeft hs hu) (.red hl hr)
    | blackRight hs hu =>
        rw [fixInsert_black rfl]
        exact Trail.Balanced.fill (.blackRight hs hu) (.red hl hr)
    | @redLeft _ p s _ hs hu =>
        -- a red parent is not the root, and the grandparent above it is black
        cases hu with
        | @blackLeft up g u _ d _ hun hup =>
            rw [fixInsert, hun.color_eq]
            cases d with
            | red =>
                exact ih _ (by simp only [List.length_cons]; omega) up _ _ g (.black (.red hl hr) hs) hun.paint_red
                  hup rfl
            | black => exact hup.fill (.black (.red hl hr) (.red hs hun))
        | @blackRight up g u _ d _ hun hup =>
            rw [fixInsert, hun.color_eq]
            cases d with
            | red =>
                exact ih _ (by simp only [List.length_cons]; omega) up _ _ g hun.paint_red (.black (.red hl hr) hs)
                  hup rfl
            | black => exact hup.fill (.black (.red hun hl) (.red hr hs))
    | @redRight _ p s _ hs hu =>
        cases hu with
        | @blackLeft up g u _ d _ hun hup =>
            rw [fixInsert, hun.color_eq]
            cases d with
            | red =>
                exact ih _ (by simp only [List.length_cons]; omega) up _ _ g (.black hs (.red hl hr)) hun.paint_red
                  hup rfl
            | black => exact hup.fill (.black (.red hs hl) (.red hr hun))
        | @blackRight up g u _ d _ hun hup =>
            rw [fixInsert, hun.color_eq]
            cases d with
            | red =>
                exact ih _ (by simp only [List.length_cons]; omega) up _ _ g hun.paint_red (.black hs (.red hl hr))
                  hup rfl
            | black => exact hup.fill (.black (.red hun hs) (.red hl hr))

/--
**Insertion into a red-black search tree.** Attaching a leaf and repairing the
trail above it gives a red-black tree again, and its list is the list of a stable
priority queue after the same insertion.
-/
theorem insert_spec {key : α → κ} (p : α) {t : ColorTree α} {n : Nat}
    (hb : t.Balanced .black n) (hs : SortedBy key t.toList) :
    (∃ m, (fixInsert (t.descend key p []) (.node .red .nil p .nil)).Balanced .black m) ∧
      (fixInsert (t.descend key p []) (.node .red .nil p .nil)).toList
        = insertBy key p t.toList := by
  refine ⟨balanced_fixInsert _ _ _ _ .nil .nil (hb.descend key p .root), ?_⟩
  rw [toList_fixInsert, ColorTree.fill_descend, Trail.fill_nil, ColorTree.toList_insertLeaf p hs]

/-- After an insertion the old minimum is the minimum still, or it has a left child. -/
theorem head_or_hasLeft {key : α → κ} (p : α) {t : ColorTree α} {q : α}
    (hs : SortedBy key t.toList) (hq : t.toList.head? = some q) :
    (fixInsert (t.descend key p []) (.node .red .nil p .nil)).toList.head? = some q ∨
      (fixInsert (t.descend key p []) (.node .red .nil p .nil)).HasLeft q := by
  obtain ⟨rest, hl⟩ : ∃ rest, t.toList = q :: rest := List.head?_eq_some_iff.mp hq
  rcases le_or_gt (key q) (key p) with hle | hlt
  · left
    rw [toList_fixInsert, ColorTree.fill_descend, Trail.fill_nil, ColorTree.toList_insertLeaf p hs,
      hl, insertBy_cons, if_pos hle]
    rfl
  · right
    have hall : ∀ a ∈ t.toList, key p < key a := by
      intro a ha
      rw [hl] at hs ha
      exact hlt.trans_le (hs.head_le ha)
    obtain ⟨hleft, hpar⟩ := ColorTree.leftmost_descend hall .nil
    exact hasLeft_fixInsert hleft (by simp) (Or.inr (hpar q hq))

end RedBlack
