import Xv6Cfs.Proof.QueueRep
import Xv6Cfs.RedBlack.Insert

/-!
# `insertProcess` inserts

`insertProc` attaches a red leaf where the tree library's `insertLeaf` does, and
`insertionCases` performs the repair `fixInsert`, two levels of the trail at a
time. Along the way nothing but colours and links is written.
-/

namespace Xv6Cfs

open RedBlack StableQueue

/-! ## The descent -/

/-- From `m` to `m'` the tree `t` came about below `par`, and nothing else did. -/
structure Attached (m m' : Mem) (par : Option Slot) (t : ColorTree Slot) : Prop where
  links : Matches m'.proc par t
  tree : m'.tree = m.tree
  outside : ∀ q, q ∉ t.toList → m'.proc q = m.proc q
  unlinked : ∀ q, (m'.proc q).unlinked = (m.proc q).unlinked

/-- Hang a new right subtree below `a`. -/
theorem Attached.hangRight {m m' : Mem} {par : Option Slot} {a : Slot} {c : Color}
    {l r r' : ColorTree Slot} (h : Attached m m' (some a) r')
    (hm : Matches m.proc par (.node c l a r)) (hnd : (l.toList ++ a :: r'.toList).Nodup) :
    Attached m (m'.setRight a r'.root?) par (.node c l a r') := by
  obtain ⟨h1, h2, _, h4, h5, _⟩ := hm
  simp only [List.nodup_append, List.nodup_cons, List.mem_cons] at hnd
  obtain ⟨_, ⟨ha, _⟩, hl⟩ := hnd
  have hne : ∀ q, q ≠ a → (m'.setRight a r'.root?).proc q = m'.proc q :=
    fun q hq => m'.modify_ne _ hq
  have ha' : (m'.setRight a r'.root?).proc a = (m.proc a).setRight r'.root? := by
    rw [← h.outside a ha]; simp [Mem.setRight]
  refine ⟨⟨?_, ?_, ?_, ?_, ?_, ?_⟩, h.tree, ?_, ?_⟩
  · simp [ha', h1]
  · simp [ha', h2]
  · simp [ha']
  · simp [ha', h4]
  · refine h5.congr fun q hq => ?_
    rw [hne q (hl q hq a (Or.inl rfl)), h.outside q fun e => hl q hq q (Or.inr e) rfl]
    exact ⟨rfl, rfl, rfl, rfl⟩
  · refine h.links.congr fun q hq => ?_
    rw [hne q fun e => ha (e ▸ hq)]
    exact ⟨rfl, rfl, rfl, rfl⟩
  · intro q hq
    simp only [ColorTree.toList_node, List.mem_append, List.mem_cons, not_or] at hq
    rw [hne q hq.2.1, h.outside q hq.2.2]
  · intro q
    by_cases hq : q = a
    · rw [hq, ha']; rfl
    · rw [hne q hq, h.unlinked]

/-- Hang a new left subtree below `a`. -/
theorem Attached.hangLeft {m m' : Mem} {par : Option Slot} {a : Slot} {c : Color}
    {l r l' : ColorTree Slot} (h : Attached m m' (some a) l')
    (hm : Matches m.proc par (.node c l a r)) (hnd : (l'.toList ++ a :: r.toList).Nodup) :
    Attached m (m'.setLeft a l'.root?) par (.node c l' a r) := by
  obtain ⟨h1, _, h3, h4, _, h6⟩ := hm
  simp only [List.nodup_append, List.nodup_cons, List.mem_cons] at hnd
  obtain ⟨_, ⟨har, _⟩, hl⟩ := hnd
  have hal : a ∉ l'.toList := fun e => hl a e a (Or.inl rfl) rfl
  have hne : ∀ q, q ≠ a → (m'.setLeft a l'.root?).proc q = m'.proc q :=
    fun q hq => m'.modify_ne _ hq
  have ha' : (m'.setLeft a l'.root?).proc a = (m.proc a).setLeft l'.root? := by
    rw [← h.outside a hal]; simp [Mem.setLeft]
  refine ⟨⟨?_, ?_, ?_, ?_, ?_, ?_⟩, h.tree, ?_, ?_⟩
  · simp [ha', h1]
  · simp [ha']
  · simp [ha', h3]
  · simp [ha', h4]
  · refine h.links.congr fun q hq => ?_
    rw [hne q fun e => hal (e ▸ hq)]
    exact ⟨rfl, rfl, rfl, rfl⟩
  · refine h6.congr fun q hq => ?_
    rw [hne q fun e => har (e ▸ hq), h.outside q fun e => hl q e q (Or.inr hq) rfl]
    exact ⟨rfl, rfl, rfl, rfl⟩
  · intro q hq
    simp only [ColorTree.toList_node, List.mem_append, List.mem_cons, not_or] at hq
    rw [hne q hq.2.1, h.outside q hq.1]
  · intro q
    by_cases hq : q = a
    · rw [hq, ha']; rfl
    · rw [hne q hq, h.unlinked]

/-- Writing to the links of a slot of the new tree beforehand makes no difference. -/
theorem Attached.of_write {m m₁ m' : Mem} {par : Option Slot} {t : ColorTree Slot} {p : Slot}
    (h : Attached m₁ m' par t) (hp : p ∈ t.toList) (ht : m₁.tree = m.tree)
    (hne : ∀ q, q ≠ p → m₁.proc q = m.proc q)
    (hun : (m₁.proc p).unlinked = (m.proc p).unlinked) : Attached m m' par t where
  links := h.links
  tree := by rw [h.tree, ht]
  outside q hq := by rw [h.outside q hq, hne q fun e => hq (e ▸ hp)]
  unlinked q := by
    rw [h.unlinked]
    by_cases hq : q = p
    · rw [hq, hun]
    · rw [hne q hq]

/-- **`insertProc` attaches a red leaf.** -/
theorem insertProc_spec {key : Slot → Int} {p : Slot} {t : ColorTree Slot} {m : Mem}
    (par : Option Slot) {fuel : Nat} (hkey : ∀ q, (m.proc q).virtualRuntime = key q)
    (hm : Matches m.proc par t) (hp : p ∉ t.toList) (hl : (m.proc p).left = none)
    (hr : (m.proc p).right = none) (hnil : t = .nil → (m.proc p).pParent = par)
    (hnd : t.toList.Nodup) (hfuel : t.height < fuel) :
    ∃ m', insertProc fuel m t.root? p = .ok (m', (t.insertLeaf key p).root?) ∧
      Attached m m' par (t.insertLeaf key p) := by
  induction t generalizing m par fuel with
  | nil =>
      obtain ⟨fuel, rfl⟩ : ∃ k, fuel = k + 1 := ⟨fuel - 1, by omega⟩
      refine ⟨m.setColor p .red, rfl, ⟨?_, rfl, ?_, ?_⟩⟩
      · simp [ColorTree.insertLeaf, Matches, Mem.setColor, hl, hr, hnil]
      · intro q hq
        exact m.modify_ne _ (by simpa [ColorTree.insertLeaf] using hq)
      · intro q
        rw [Mem.setColor, Mem.modify_proc]
        split
        · rename_i h; rw [h]; rfl
        · rfl
  | node c l a r ihl ihr =>
      obtain ⟨fuel, rfl⟩ : ∃ k, fuel = k + 1 := ⟨fuel - 1, by omega⟩
      have hpa : a ≠ p := fun e => hp (by simp [e])
      have hnd' := hnd
      simp only [ColorTree.toList_node, List.nodup_append, List.nodup_cons, List.mem_cons] at hnd'
      obtain ⟨hndl, ⟨har, hndr⟩, hlar⟩ := hnd'
      -- the memory in which the recursive call starts
      let m₁ := (m.setColor p .red).setPParent p (some a)
      have hne : ∀ q, q ≠ p → m₁.proc q = m.proc q := by
        intro q hq
        simp only [m₁, Mem.setColor, Mem.setPParent, Mem.modify_proc, if_neg hq]
      have hpp : m₁.proc p = ((m.proc p).setColor .red).setPParent (some a) := by
        simp [m₁, Mem.setColor, Mem.setPParent]
      have hun : (m₁.proc p).unlinked = (m.proc p).unlinked := by rw [hpp]; rfl
      have hkey₁ : ∀ q, (m₁.proc q).virtualRuntime = key q := by
        intro q
        by_cases hq : q = p
        · rw [hq, hpp]; exact hkey p
        · rw [hne q hq]; exact hkey q
      have hm₁ : Matches m₁.proc par (.node c l a r) := hm.congr fun q hq => by
        rw [hne q fun e => hp (e ▸ hq)]; exact ⟨rfl, rfl, rfl, rfl⟩
      obtain ⟨-, hml, hmr, -, hsl, hsr⟩ := id hm₁
      have hnd₂ := ColorTree.nodup_insertLeaf key hp hnd
      rw [ColorTree.insertLeaf] at hnd₂ ⊢
      have hcmp : ((m.setColor p .red).proc a).virtualRuntime ≤
          ((m.setColor p .red).proc p).virtualRuntime ↔ key a ≤ key p := by
        simp [Mem.setColor, Mem.modify_proc, hpa, hkey]
      simp only [ColorTree.root?_node, insertProc, hcmp]
      simp only [ColorTree.height] at hfuel
      split
      · rename_i hle
        rw [if_pos hle] at hnd₂
        obtain ⟨m₂, hrun, hatt⟩ := ihr (some a) hkey₁ hsr
          (fun e => hp (by simp [e])) (by simp [hpp, hl]) (by simp [hpp, hr]) (by simp [hpp]) hndr
          (show r.height < fuel by omega)
        refine ⟨m₂.setRight a (r.insertLeaf key p).root?, ?_, ?_⟩
        · rw [hmr, hrun]; rfl
        · exact (hatt.hangRight hm₁ hnd₂).of_write (p := p)
            (by simp [ColorTree.mem_insertLeaf]) rfl hne hun
      · rename_i hle
        rw [if_neg hle] at hnd₂
        obtain ⟨m₂, hrun, hatt⟩ := ihl (some a) hkey₁ hsl
          (fun e => hp (by simp [e])) (by simp [hpp, hl]) (by simp [hpp, hr]) (by simp [hpp]) hndl
          (show l.height < fuel by omega)
        refine ⟨m₂.setLeft a (l.insertLeaf key p).root?, ?_, ?_⟩
        · rw [hml, hrun]; rfl
        · exact (hatt.hangLeft hm₁ hnd₂).of_write (p := p)
            (by simp [ColorTree.mem_insertLeaf]) rfl hne hun

/-! ## The repair -/

/-- The relatives of a node that has a parent and a grandparent, as the links show them. -/
structure Family (m : Mem) (p : Slot) (f g : Frame Slot) : Prop where
  parent : (m.proc p).pParent = some f.label
  color : (m.proc f.label).color = f.color
  grandparent : getGrandparentProc m (some p) = some g.label
  uncle : getUncleProc m p = g.sibling.root?
  uncle_color : ∀ u, g.sibling.root? = some u → (m.proc u).color = g.sibling.color

theorem Matches.root {h : Slot → Proc} {par : Option Slot} {t : ColorTree Slot} {p : Slot}
    (hm : Matches h par t) (hp : t.root? = some p) :
    (h p).pParent = par ∧ (h p).color = t.color := by
  cases t with
  | nil => simp at hp
  | node c l a r =>
      obtain rfl : a = p := by simpa using hp
      exact ⟨hm.2.2.2.1, hm.1⟩

/-- The parent of a frame has the child `p` on the frame's side, and only there. -/
def ChildLinks (m : Mem) (p : Slot) : Frame Slot → Prop
  | .left _ a r => (m.proc a).left = some p ∧ (m.proc a).right = r.root? ∧ some p ≠ r.root?
  | .right _ l a => (m.proc a).right = some p ∧ (m.proc a).left = l.root? ∧ some p ≠ l.root?

/-- The innermost parent is linked to the hole on the frame's side only. -/
theorem DenotesAt.sides {m : Mem} {f : Frame Slot} {up : Trail Slot} {t : ColorTree Slot}
    {p : Slot} (h : DenotesAt m (f :: up) t) (hp : t.root? = some p) :
    (m.proc f.label).color = f.color ∧ (m.proc f.label).pParent = parentOf up ∧
      (∃ par, Matches m.proc par f.sibling) ∧
      ChildLinks m p f := by
  have hpt : p ∈ t.toList := ColorTree.root?_mem hp
  cases f with
  | left c a r =>
      obtain ⟨h1, h2, h3, h4, h5, _⟩ := h.outer
      refine ⟨h1, h4, ⟨_, h5⟩, by rw [h2, hp], h3, fun e => ?_⟩
      exact h.inner_ne hpt (Or.inr (by simp [ColorTree.root?_mem e.symm])) rfl
  | right c l a =>
      obtain ⟨h1, h2, h3, h4, h5, _⟩ := h.outer
      refine ⟨h1, h4, ⟨_, h5⟩, by rw [h3, hp], h2, fun e => ?_⟩
      exact h.inner_ne hpt (Or.inl (by simp [ColorTree.root?_mem e.symm])) rfl

theorem DenotesAt.family {m : Mem} {f g : Frame Slot} {up : Trail Slot} {t : ColorTree Slot}
    {p : Slot} (h : Denotes m (Trail.fill (f :: g :: up) t)) (hp : t.root? = some p) :
    Family m p f g := by
  have hf := (denotes_fill _).mp h
  have hg := (denotes_fill (g :: up)).mp h
  obtain ⟨hcol, hpar, _, _⟩ := hf.sides hp
  obtain ⟨_, _, ⟨par, hu⟩, hside⟩ := hg.sides (root?_attach f t)
  have hpp : (m.proc p).pParent = some f.label := (hf.inner.root hp).1
  have hgp : getGrandparentProc m (some p) = some g.label := by
    simp [getGrandparentProc, hpp, hpar]
  refine ⟨hpp, hcol, hgp, ?_, fun u e => (hu.root e).2⟩
  rw [getUncleProc, hgp]
  cases g with
  | left c a r =>
      obtain ⟨h1, h2, _⟩ := hside
      simp [hpp, h1, h2, Frame.sibling]
  | right c l a =>
      obtain ⟨h1, h2, h3⟩ := hside
      simp [hpp, h2, h3, Frame.sibling]

/-- **Painting the innermost parent of a hole.** -/
theorem reshaped_recolor {m : Mem} (f : Frame Slot) (up : Trail Slot) {t : ColorTree Slot}
    (d : Color) (h : Denotes m (Trail.fill (f :: up) t)) :
    Reshaped m (Trail.fill (f :: up) t) (m.setColor f.label d)
      (Trail.fill (f.recolor d :: up) t) := by
  cases f <;> exact reshaped_setColor up d h

/-- **Painting the sibling of a hole.** -/
theorem reshaped_paintSibling {m : Mem} (f : Frame Slot) (up : Trail Slot) {t : ColorTree Slot}
    {u : Slot} (d : Color) (h : Denotes m (Trail.fill (f :: up) t))
    (hu : f.sibling.root? = some u) :
    Reshaped m (Trail.fill (f :: up) t) (m.setColor u d)
      (Trail.fill (f.paintSibling d :: up) t) := by
  cases f with
  | left c a r =>
      cases r with
      | nil => simp [Frame.sibling] at hu
      | node e x b y =>
          obtain rfl : b = u := by simpa [Frame.sibling] using hu
          exact reshaped_setColor (.right c t a :: up) d h
  | right c l a =>
      cases l with
      | nil => simp [Frame.sibling] at hu
      | node e x b y =>
          obtain rfl : b = u := by simpa [Frame.sibling] using hu
          exact reshaped_setColor (.left c a t :: up) d h

/-- Case 5 on the left: the parent is rotated over the grandparent. -/
theorem insertionCases_five_left {m : Mem} {up : Trail Slot} {c d : Color} {t s u : ColorTree Slot}
    {p q g : Slot} (fuel : Nat)
    (h : Denotes m (Trail.fill (.left d q s :: .left c g u :: up) t)) (hp : t.root? = some p) :
    ∃ m', insertionCases (fuel + 1) m p 5 = .ok m' ∧
      Reshaped m (Trail.fill (.left d q s :: .left c g u :: up) t) m'
        (Trail.fill up (.node .black t q (.node .red s g u))) := by
  have h₁ := reshaped_recolor (.left c g u) up (t := .node d t q s) .red h
  have h₂ := reshaped_recolor (.left d q s) (.left .red g u :: up) .black h₁.denotes
  obtain ⟨m', hrot, h₃⟩ := reshaped_rotateRight up (c := .red) (d := .black) h₂.denotes
  obtain ⟨_, _, _, hq⟩ := ((denotes_fill _).mp h).sides hp
  obtain ⟨_, _, _, hg⟩ := ((denotes_fill (.left c g u :: up)).mp h).sides (p := q) rfl
  refine ⟨m', ?_, (h₁.trans h₂).trans h₃⟩
  have hpar : ((m.setColor g .red).proc p).pParent = some q :=
    (DenotesAt.family (f := .left d q s) (g := .left .red g u) h₁.denotes hp).parent
  simp only [insertionCases, (DenotesAt.family h hp).grandparent, Frame.label_left, hpar,
    deref_some]
  simp only [Frame.label_left] at hq hg hrot
  simpa [hq.1, hg.1] using hrot

/-- Case 5 on the right. -/
theorem insertionCases_five_right {m : Mem} {up : Trail Slot} {c d : Color} {t s u : ColorTree Slot}
    {p q g : Slot} (fuel : Nat)
    (h : Denotes m (Trail.fill (.right d s q :: .right c u g :: up) t)) (hp : t.root? = some p) :
    ∃ m', insertionCases (fuel + 1) m p 5 = .ok m' ∧
      Reshaped m (Trail.fill (.right d s q :: .right c u g :: up) t) m'
        (Trail.fill up (.node .black (.node .red u g s) q t)) := by
  have h₁ := reshaped_recolor (.right c u g) up (t := .node d s q t) .red h
  have h₂ := reshaped_recolor (.right d s q) (.right .red u g :: up) .black h₁.denotes
  obtain ⟨m', hrot, h₃⟩ := reshaped_rotateLeft up (c := .red) (d := .black) h₂.denotes
  obtain ⟨_, _, _, hq⟩ := ((denotes_fill _).mp h).sides hp
  obtain ⟨_, _, _, hg⟩ := ((denotes_fill (.right c u g :: up)).mp h).sides (p := q) rfl
  refine ⟨m', ?_, (h₁.trans h₂).trans h₃⟩
  have hpar : ((m.setColor g .red).proc p).pParent = some q :=
    (DenotesAt.family (f := .right d s q) (g := .right .red u g) h₁.denotes hp).parent
  simp only [insertionCases, (DenotesAt.family h hp).grandparent, Frame.label_right, hpar,
    deref_some]
  simp only [Frame.label_right] at hq hg hrot
  simpa [hq.1, hq.2.1, hq.2.2, hg.1] using hrot

/--
Cases 4 and 5: a red parent below a black uncle. An inner grandchild is first
rotated to the outside, and then the parent is rotated over the grandparent.
-/
theorem insertionCases_four {m : Mem} {f g : Frame Slot} {up : Trail Slot} {l r : ColorTree Slot}
    {p : Slot} (fuel : Nat)
    (h : Denotes m (Trail.fill (f :: g :: up) (.node .red l p r))) (hf : f.color = .red)
    (hu : g.sibling.color ≠ .red) :
    ∃ m', insertionCases (fuel + 2) m p 4 = .ok m' ∧
      Reshaped m (Trail.fill (f :: g :: up) (.node .red l p r)) m'
        (fixInsert (f :: g :: up) (.node .red l p r)) := by
  have hfam := DenotesAt.family h rfl
  obtain ⟨_, _, _, hq⟩ := ((denotes_fill _).mp h).sides rfl
  obtain ⟨_, _, _, hg⟩ := ((denotes_fill (g :: up)).mp h).sides (root?_attach f _)
  rw [insertionCases, hfam.parent, hfam.grandparent]
  cases f with
  | left d q s =>
      obtain rfl : d = .red := hf
      cases g with
      | left c g u =>
          -- outer, on the left
          obtain ⟨m', hrun, h'⟩ := insertionCases_five_left fuel h rfl
          have hgu : some q ≠ u.root? := hg.2.2
          refine ⟨m', ?_, ?_⟩
          · simpa [hq.1, hq.2.1, hq.2.2, hg.2.1, hgu] using hrun
          · rw [fixInsert, if_neg (show ¬u.color = .red from hu)]
            exact h'
      | right c u g =>
          -- inner: the left child of a right child
          obtain ⟨m₁, hrot, h₁⟩ := reshaped_rotateRight (.right c u g :: up) h
          obtain ⟨m', hrun, h'⟩ := insertionCases_five_right fuel
            (d := .red) (s := l) (q := p) (t := .node .red r q s) h₁.denotes rfl
          obtain ⟨_, _, hr, _⟩ := ((denotes_fill _).mp h₁.denotes).inner
          refine ⟨m', ?_, ?_⟩
          · simpa [hq.1, hq.2.1, hq.2.2, hg.1, hrot, hr] using hrun
          · rw [fixInsert, if_neg (show ¬u.color = .red from hu)]
            exact h₁.trans h'
  | right d s q =>
      obtain rfl : d = .red := hf
      cases g with
      | left c g u =>
          obtain ⟨m₁, hrot, h₁⟩ := reshaped_rotateLeft (.left c g u :: up) h
          obtain ⟨m', hrun, h'⟩ := insertionCases_five_left fuel
            (d := .red) (s := r) (q := p) (t := .node .red s q l) h₁.denotes rfl
          obtain ⟨_, hl, _, _⟩ := ((denotes_fill _).mp h₁.denotes).inner
          refine ⟨m', ?_, ?_⟩
          · simpa [hq.1, hg.1, hrot, hl] using hrun
          · rw [fixInsert, if_neg (show ¬u.color = .red from hu)]
            exact h₁.trans h'
      | right c u g =>
          obtain ⟨m', hrun, h'⟩ := insertionCases_five_right fuel h rfl
          have hgu : some q ≠ u.root? := hg.2.2
          refine ⟨m', ?_, ?_⟩
          · simpa [hq.1, hq.2.1, hq.2.2, hg.2.1, hgu] using hrun
          · rw [fixInsert, if_neg (show ¬u.color = .red from hu)]
            exact h'

/-- Case 3 with a red uncle: parent and uncle become black, the grandparent red. -/
theorem insertionCases_three_red {m : Mem} {f g : Frame Slot} {up : Trail Slot}
    {t : ColorTree Slot} {p : Slot} (fuel : Nat)
    (h : Denotes m (Trail.fill (f :: g :: up) t)) (hp : t.root? = some p)
    (hu : g.sibling.color = .red) :
    ∃ m', insertionCases (fuel + 1) m p 3 = insertionCases fuel m' g.label 1 ∧
      Reshaped m (Trail.fill (f :: g :: up) t) m'
        (Trail.fill up (((g.paintSibling .black).recolor .red).attach
          ((f.recolor .black).attach t))) := by
  have hfam := DenotesAt.family h hp
  obtain ⟨u, hs⟩ : ∃ u, g.sibling.root? = some u := by
    cases hg : g.sibling with
    | nil => rw [hg] at hu; simp at hu
    | node c l a r => exact ⟨a, rfl⟩
  have h₁ := reshaped_recolor f (g :: up) .black h
  have h₂ := reshaped_paintSibling g up (t := (f.recolor .black).attach t) .black
    h₁.denotes hs
  have h₃ := reshaped_recolor (g.paintSibling .black) up (t := (f.recolor .black).attach t) .red
    h₂.denotes
  have hfam₂ := DenotesAt.family (f := f.recolor .black) (g := g.paintSibling .black) h₂.denotes hp
  refine ⟨_, ?_, (h₁.trans h₂).trans h₃⟩
  simp [insertionCases, hfam.uncle, hs, hfam.uncle_color u hs, hu, hfam.parent, hfam₂.grandparent]

/-- **`insertionCases` performs the repair.** -/
theorem insertionCases_spec {m : Mem} {up : Trail Slot} {l r : ColorTree Slot} {p : Slot}
    {c : Color} {n : Nat} (fuel : Nat) (h : Denotes m (Trail.fill up (.node .red l p r)))
    (hb : Trail.Balanced up c n) (hfuel : 3 * up.length + 6 ≤ fuel) :
    ∃ m', insertionCases fuel m p 1 = .ok m' ∧
      Reshaped m (Trail.fill up (.node .red l p r)) m' (fixInsert up (.node .red l p r)) := by
  induction hlen : up.length using Nat.strongRecOn generalizing m up l r p c n fuel with
  | ind k ih =>
    subst hlen
    obtain ⟨fuel, rfl⟩ : ∃ k, fuel = k + 5 := ⟨fuel - 5, by omega⟩
    have hpar := (((denotes_fill _).mp h).inner.root rfl).1
    cases up with
    | nil =>
        rw [insertionCases, hpar]
        exact ⟨_, rfl, reshaped_setColor [] .black h⟩
    | cons f up =>
        have hcol := (((denotes_fill _).mp h).sides rfl).1
        rw [insertionCases, hpar]
        simp only [parentOf_cons]
        rw [insertionCases, hpar]
        simp only [parentOf_cons, deref_some, ok_bind, hcol]
        by_cases hf : f.color = .red
        · rw [if_pos hf]
          -- the parent of a red node below the root is not the root
          obtain ⟨g, up, rfl, c', n', hup⟩ :
              ∃ g up', up = g :: up' ∧ ∃ c n, Trail.Balanced up' c n := by
            cases hb with
            | redLeft _ hu => cases hu <;> exact ⟨_, _, rfl, _, _, by assumption⟩
            | redRight _ hu => cases hu <;> exact ⟨_, _, rfl, _, _, by assumption⟩
            | blackLeft _ _ => cases hf
            | blackRight _ _ => cases hf
          by_cases hu : g.sibling.color = .red
          · obtain ⟨m₁, hrun, h₁⟩ := insertionCases_three_red (fuel + 2) h rfl hu
            simp only [List.length_cons] at hfuel
            obtain ⟨l', r', ht⟩ : ∃ l' r', ((g.paintSibling .black).recolor .red).attach
                ((f.recolor .black).attach (.node .red l p r)) = .node .red l' g.label r' := by
              cases g <;> exact ⟨_, _, rfl⟩
            rw [hrun, fixInsert_recolor hf hu]
            rw [ht] at h₁ ⊢
            obtain ⟨m', hrun', h'⟩ := ih up.length
              (by simp only [List.length_cons]; omega) (fuel + 2) h₁.denotes hup
              (by omega) rfl
            exact ⟨m', hrun', h₁.trans h'⟩
          · obtain ⟨m', hrun, h'⟩ := insertionCases_four fuel h hf hu
            refine ⟨m', ?_, h'⟩
            rw [← hrun]
            have hfam := DenotesAt.family h rfl
            cases hs : g.sibling.root? with
            | none => simp [insertionCases, hfam.uncle, hs]
            | some u => simp [insertionCases, hfam.uncle, hs, hfam.uncle_color u hs, hu]
        · rw [if_neg hf, fixInsert_black (by cases hc : f.color <;> simp_all)]
          exact ⟨m, rfl, .refl h⟩

/-! ## The whole of `insertProcess` -/

/-- The descent from the root, and the parent pointer of a lone root cleared. -/
theorem insertProc_root {m : Mem} {t : ColorTree Slot} {p : Slot} (key : Slot → Int)
    (h : Denotes m t) (hzero : m.tree.count = 0 ↔ t = .nil)
    (hkey : ∀ q, (m.proc q).virtualRuntime = key q) (hp : p ∉ t.toList)
    (hl : (m.proc p).left = none) (hr : (m.proc p).right = none) :
    ∃ m₁ root m₂, insertProc loopFuel m m.tree.root p = .ok (m₁, root) ∧
      clearRootParent (m₁.setRoot root) = .ok m₂ ∧
      Denotes m₂ (t.insertLeaf key p) ∧ Relinked (t.insertLeaf key p) m m₂ := by
  have hfuel : t.height < loopFuel := (height_le_NPROC h.nodup).trans_lt (by decide)
  have hnd := ColorTree.nodup_insertLeaf key hp h.nodup
  cases ht : t with
  | nil =>
      subst ht
      obtain ⟨m₁, hrun, hatt⟩ := insertProc_spec (t := .nil) (m.proc p).pParent hkey
        trivial hp hl hr (fun _ => rfl) h.nodup hfuel
      obtain ⟨h1, h2, h3, -⟩ := hatt.links
      refine ⟨m₁, some p, (m₁.setRoot (some p)).setPParent p none, by rw [h.root]; exact hrun, ?_,
        ⟨rfl, ?_, hnd⟩, ⟨fun q hq => ?_, fun q => ?_, ?_⟩⟩
      · simp [clearRootParent, hatt.tree, hzero.mpr rfl]
      · simp_all [ColorTree.insertLeaf, Matches, Mem.setPParent]
      · rw [Mem.setPParent, Mem.modify_ne _ _ (by simpa [ColorTree.insertLeaf] using hq)]
        exact hatt.outside q hq
      · rw [Mem.setPParent, Mem.modify_proc, ← hatt.unlinked q]
        split
        · rename_i e; rw [e]; rfl
        · rfl
      · simp [Mem.setPParent, hatt.tree]
  | node c l a r =>
      rw [← ht]
      have hne : t ≠ .nil := by simp [ht]
      obtain ⟨m₁, hrun, hatt⟩ := insertProc_spec none hkey h.links hp hl hr
        (fun e => absurd e hne) h.nodup hfuel
      refine ⟨m₁, _, m₁.setRoot (t.insertLeaf key p).root?, by rw [h.root]; exact hrun, ?_,
        ⟨rfl, hatt.links, hnd⟩, hatt.outside, hatt.unlinked, ?_⟩
      · simp [clearRootParent, hatt.tree, hzero, hne]
      · simp [hatt.tree]

/-- What placing `p` with weight `w` into the tree `t` does to the memory `m`. -/
structure Placed (m : Mem) (t : ColorTree Slot) (p : Slot) (w : Int) (m' : Mem)
    (t' : ColorTree Slot) : Prop where
  denotes : Denotes m' t'
  balanced : ∃ n, t'.Balanced .black n
  toList : t'.toList = insertBy (fun q => (m.proc q).virtualRuntime) p t.toList
  outside : ∀ q, q ∉ t'.toList → m'.proc q = m.proc q
  unlinked : ∀ q, q ≠ p → (m'.proc q).unlinked = (m.proc q).unlinked
  inserted : (m'.proc p).unlinked = (m.proc p).unlinked.setWeightVal w
  tree : { m'.tree with root := none } =
    { m.tree with root := none, count := m.tree.count + 1, treeWeight := m.tree.treeWeight + w }
  /-- The old first process is first again, or has a left child. -/
  first : ∀ q, t.toList.head? = some q → t'.toList.head? = some q ∨ t'.HasLeft q

/-- **`insertProc` and `insertionCases` place a process in the tree.** -/
theorem insertRepaired_spec (wight : Int → Except Fault Int) {m : Mem} {t : ColorTree Slot}
    {p : Slot} {w : Int} (h : TreeRep m t) (hp : p ∉ t.toList) (hl : (m.proc p).left = none)
    (hr : (m.proc p).right = none) (hw : wight (m.proc p).niceVal = .ok w) :
    ∃ m' t', insertRepaired wight m p = .ok m' ∧ Placed m t p w m' t' := by
  set key : Slot → Int := fun q => (m.proc q).virtualRuntime with hkey
  have hzero : m.tree.count = 0 ↔ t = .nil := by
    rw [h.count, ← ColorTree.toList_eq_nil, ← List.length_eq_zero_iff]
    omega
  obtain ⟨m₁, root, m₂, hdesc, hclear, hden₂, hrel₂⟩ :=
    insertProc_root key h.denotes hzero (fun _ => rfl) hp hl hr
  have hnice : (m₂.proc p).niceVal = (m.proc p).niceVal :=
    by simpa using congrArg Proc.niceVal (hrel₂.unlinked p)
  -- the counters
  set m₃ := ((m₂.setCount (m₂.tree.count + 1)).setWeightVal p w).setTreeWeight
    (m₂.tree.treeWeight + w) with hm₃
  have hproc₃ : ∀ q, m₃.proc q = if q = p then (m₂.proc p).setWeightVal w else m₂.proc q := by
    intro q
    simp [hm₃, Mem.setWeightVal, Mem.modify_proc]
  have hden₃ : Denotes m₃ (t.insertLeaf key p) := by
    refine hden₂.congr rfl fun q _ => ?_
    rw [hproc₃]
    split
    · rename_i e; rw [e]; exact ⟨rfl, rfl, rfl, rfl⟩
    · exact ⟨rfl, rfl, rfl, rfl⟩
  -- the repair
  obtain ⟨n, hbal⟩ := h.balanced
  have hlen := ColorTree.length_descend key p t []
  have hheight := height_le_NPROC h.denotes.nodup
  have hfill : t.insertLeaf key p = Trail.fill (t.descend key p []) (.node .red .nil p .nil) :=
    (ColorTree.fill_descend key p t []).symm
  rw [hfill] at hden₃
  obtain ⟨m₄, hcases, hre⟩ := insertionCases_spec loopFuel hden₃
    (hbal.descend key p .root) (by simp [loopFuel, NPROC] at *; omega)
  obtain ⟨hbal', hlist⟩ := insert_spec p hbal h.sorted
  set t' := fixInsert (t.descend key p []) (.node .red .nil p .nil)
  -- what has changed
  have hun : ∀ q, (m₄.proc q).unlinked =
      if q = p then (m.proc p).unlinked.setWeightVal w else (m.proc q).unlinked := by
    intro q
    rw [hre.relinked.unlinked, hproc₃]
    split
    · rw [← hrel₂.unlinked p]; rfl
    · exact hrel₂.unlinked q
  refine ⟨m₄, t', ?_, hre.denotes, hbal', hlist, ?_, fun q hq => ?_, ?_, ?_, ?_⟩
  · have hw₂ : wight ((m₂.setCount (m₂.tree.count + 1)).proc p).niceVal = .ok w := by
      simpa [hnice] using hw
    have hw₃ : (((m₂.setCount (m₂.tree.count + 1)).setWeightVal p w).proc p).weightVal = w := by
      simp [Mem.setWeightVal]
    unfold insertRepaired
    rw [hdesc]
    simp only [ok_bind, hclear, hw₂, hw₃]
    exact hcases
  · intro q hq
    have hq' : q ∉ (t.insertLeaf key p).toList := by
      rw [ColorTree.toList_insertLeaf p h.sorted, ← hlist]
      exact hq
    have hqp : q ≠ p := fun e => hq' (by simp [ColorTree.mem_insertLeaf, e])
    rw [hre.relinked.outside q (hfill ▸ hq'), hproc₃, if_neg hqp, hrel₂.outside q hq']
  · rw [hun, if_neg hq]
  · rw [hun, if_pos rfl]
  · obtain ⟨c₂, w₂, k₂, b₂, d₂⟩ := hrel₂.tree_fields
    obtain ⟨c₄, w₄, k₄, b₄, d₄⟩ := hre.relinked.tree_fields
    rw [RBTree.mk.injEq]
    refine ⟨?_, ?_, rfl, k₄.trans k₂, b₄.trans b₂, d₄.trans d₂⟩
    · rw [← c₂]; exact c₄
    · rw [← w₂]; exact w₄
  · intro q hq
    exact head_or_hasLeft p h.sorted hq

/-- What inserting `p` with weight `w` into the tree `t` does to the memory `m`. -/
structure Grown (m : Mem) (t : ColorTree Slot) (p : Slot) (w : Int) (m' : Mem)
    (t' : ColorTree Slot) : Prop where
  rep : TreeRep m' t'
  toList : t'.toList = insertBy (fun q => (m.proc q).virtualRuntime) p t.toList
  outside : ∀ q, q ∉ t'.toList → m'.proc q = m.proc q
  unlinked : ∀ q, q ≠ p → (m'.proc q).unlinked = (m.proc q).unlinked
  inserted : (m'.proc p).unlinked = (m.proc p).unlinked.setWeightVal w
  treeWeight : m'.tree.treeWeight = m.tree.treeWeight + w
  period : m'.tree.period = m.tree.period
  locked : m'.tree.locked = m.tree.locked

/-- No key has changed. -/
theorem Placed.virtualRuntime {m m' : Mem} {t t' : ColorTree Slot} {p : Slot} {w : Int}
    (h : Placed m t p w m' t') (q : Slot) :
    (m'.proc q).virtualRuntime = (m.proc q).virtualRuntime := by
  by_cases hq : q = p
  · subst hq
    simpa using congrArg Proc.virtualRuntime h.inserted
  · simpa using congrArg Proc.virtualRuntime (h.unlinked q hq)

/-- The cached minimum is looked for again when it has to be. -/
theorem Placed.updateMinimum {m m' : Mem} {t t' : ColorTree Slot} {p : Slot} {w : Int}
    (h : TreeRep m t) (hp : Placed m t p w m' t') :
    updateMinimum m' = .ok (m'.setMin t'.toList.head?) := by
  refine updateMinimum_eq hp.denotes fun q hq => ?_
  have hmin : m'.tree.minvRuntime = m.tree.minvRuntime := (RBTree.mk.inj hp.tree).2.2.2.1
  have hhead : t.toList.head? = some q := by rw [← h.minvRuntime, ← hmin, hq]
  refine ⟨by rw [hp.toList]; simp [List.mem_of_head? hhead], fun hno => ?_⟩
  exact (hp.first q hhead).resolve_right hno

/-- **The body of `insertProcess` keeps the tree.** -/
theorem insertProcessLocked_grown {wight : Int → Except Fault Int} {m : Mem} {t : ColorTree Slot}
    {p : Slot} {w : Int} (h : TreeRep m t) (hp : p ∉ t.toList) (hl : (m.proc p).left = none)
    (hr : (m.proc p).right = none) (hw : wight (m.proc p).niceVal = .ok w) :
    ∃ m' t', insertProcessLocked wight m p = .ok m' ∧ Grown m t p w m' t' := by
  have hfull : m.tree.isFull = false := by
    have := length_lt_NPROC h.denotes.nodup hp
    simp only [RBTree.isFull, h.count, beq_eq_false_iff_ne]
    omega
  obtain ⟨m₁, t', hrun, hpl⟩ := insertRepaired_spec wight h hp hl hr hw
  obtain ⟨hcount, hweight, -, -, hlocked, hperiod⟩ := RBTree.mk.inj hpl.tree
  refine ⟨m₁.setMin t'.toList.head?, t', ?_, ⟨?_, hpl.balanced, ?_, ?_, rfl⟩, hpl.toList,
    hpl.outside, hpl.unlinked, hpl.inserted, hweight, hperiod, hlocked⟩
  · rw [insertProcessLocked, hfull, hrun]
    exact hpl.updateMinimum h
  · exact hpl.denotes.congr rfl fun q _ => ⟨rfl, rfl, rfl, rfl⟩
  · have hkey : (fun q => (m₁.proc q).virtualRuntime) = fun q => (m.proc q).virtualRuntime :=
      funext hpl.virtualRuntime
    change SortedBy (fun q => (m₁.proc q).virtualRuntime) _
    rw [hkey, hpl.toList]
    exact sortedBy_insertBy h.sorted
  · rw [hpl.toList, length_insertBy]
    change m₁.tree.count = _
    rw [hcount, h.count]
    simp

/-- What inserting `p` with weight `w` does to the memory `m` whose queue is `t`. -/
structure Inserted (m : Mem) (t : ColorTree Slot) (p : Slot) (w : Int) (m' : Mem)
    (t' : ColorTree Slot) : Prop where
  rep : QueueRep m' t'
  toList : t'.toList = insertBy (fun q => (m.proc q).virtualRuntime) p t.toList
  outside : ∀ q, q ∉ t'.toList → m'.proc q = m.proc q
  unlinked : ∀ q, q ≠ p → (m'.proc q).unlinked = (m.proc q).unlinked
  inserted : (m'.proc p).unlinked = (m.proc p).unlinked.setWeightVal w
  period : m'.tree.period = m.tree.period
  locked : m'.tree.locked = m.tree.locked

/-- **`insertProcess` inserts a process into the queue.** -/
theorem insertProcessLocked_spec {wight : Int → Except Fault Int} {m : Mem} {t : ColorTree Slot}
    {p : Slot} {w : Int} (h : QueueRep m t) (hp : p ∉ t.toList) (hl : (m.proc p).left = none)
    (hr : (m.proc p).right = none) (hrun : (m.proc p).state = .runnable)
    (hw : wight (m.proc p).niceVal = .ok w) (hpos : 0 < w) :
    ∃ m' t', insertProcessLocked wight m p = .ok m' ∧ Inserted m t p w m' t' := by
  obtain ⟨m', t', hins, hg⟩ := insertProcessLocked_grown h.tree hp hl hr hw
  have hother : ∀ q ∈ t.toList, (m'.proc q).unlinked = (m.proc q).unlinked :=
    fun q hq => hg.unlinked q fun e => hp (e ▸ hq)
  have hweight : ∀ q ∈ t.toList, (m'.proc q).weightVal = (m.proc q).weightVal := fun q hq => by
    simpa using congrArg Proc.weightVal (hother q hq)
  have hweight_p : (m'.proc p).weightVal = w := by
    simpa using congrArg Proc.weightVal hg.inserted
  refine ⟨m', t', hins, ⟨hg.rep.denotes, hg.rep.balanced, hg.rep.sorted, hg.rep.count, ?_, ?_,
    hg.rep.minvRuntime, ?_⟩, hg.toList, hg.outside, hg.unlinked, hg.inserted, hg.period,
    hg.locked⟩
  · rw [hg.toList, ((perm_insertBy _ p t.toList).map _).sum_eq, List.map_cons, List.sum_cons,
      hweight_p, List.map_congr_left hweight, hg.treeWeight, h.treeWeight, add_comm]
  · intro q hq
    rcases mem_insertBy.mp (hg.toList ▸ hq) with rfl | hq
    · rwa [hweight_p]
    · rw [hweight q hq]
      exact h.weight_pos q hq
  · intro q hq
    rcases mem_insertBy.mp (hg.toList ▸ hq) with rfl | hq
    · simpa [hrun] using congrArg Proc.state hg.inserted
    · simpa [h.runnable q hq] using congrArg Proc.state (hother q hq)

end Xv6Cfs
