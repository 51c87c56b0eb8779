import Xv6Cfs.Kernel.RunQueue

/-!
# The links denote a tree

`Matches` says that the colours and links stored in the slots are those of a
tree over slots, and `MatchesTrail` the same of everything outside a hole in it.
A pointer algorithm is then followed on the tree: every write either repaints a
node or, three at a time, performs a rotation.

What a write leaves alone matters as much. `Relinked` collects it: slots outside
the tree are untouched, and no slot changes in anything but its colour and its
links.
-/

namespace Xv6Cfs

open RedBlack

/-- The slots from `h` carry exactly the colours and links of the tree below `par`. -/
def Matches (h : Slot → Proc) (par : Option Slot) : ColorTree Slot → Prop
  | .nil => True
  | .node c l a r =>
      (h a).color = c ∧ (h a).left = l.root? ∧ (h a).right = r.root? ∧ (h a).pParent = par ∧
        Matches h (some a) l ∧ Matches h (some a) r

/-- The parent pointer below a trail. -/
def parentOf : Trail Slot → Option Slot
  | [] => none
  | f :: _ => some f.label

@[simp] theorem parentOf_nil : parentOf [] = none := rfl
@[simp] theorem parentOf_cons (f : Frame Slot) (up : Trail Slot) :
    parentOf (f :: up) = some f.label := rfl

/-- The slots from `h` carry the colours and links of a trail whose hole is at `hole`. -/
def MatchesTrail (h : Slot → Proc) (hole : Option Slot) : Trail Slot → Prop
  | [] => True
  | .left c a r :: up =>
      (h a).color = c ∧ (h a).left = hole ∧ (h a).right = r.root? ∧ (h a).pParent = parentOf up ∧
        Matches h (some a) r ∧ MatchesTrail h (some a) up
  | .right c l a :: up =>
      (h a).color = c ∧ (h a).left = l.root? ∧ (h a).right = hole ∧ (h a).pParent = parentOf up ∧
        Matches h (some a) l ∧ MatchesTrail h (some a) up

@[simp] theorem matches_nil (h : Slot → Proc) (par : Option Slot) : Matches h par .nil := trivial

@[simp] theorem matchesTrail_nil (h : Slot → Proc) (hole : Option Slot) :
    MatchesTrail h hole [] := trivial

/-- The pointer to the root of the whole, given the pointer at the hole. -/
def rootOf (hole : Option Slot) : Trail Slot → Option Slot
  | [] => hole
  | f :: up => rootOf (some f.label) up

theorem root?_attach (f : Frame Slot) (t : ColorTree Slot) : (f.attach t).root? = some f.label := by
  cases f <;> rfl

theorem root?_fill (up : Trail Slot) (t : ColorTree Slot) :
    (Trail.fill up t).root? = rootOf t.root? up := by
  induction up generalizing t with
  | nil => rfl
  | cons f up ih => rw [Trail.fill_cons, ih, root?_attach]; rfl

/-- Below a parent the root of the whole is on the trail. -/
theorem rootOf_mem {f : Frame Slot} {up : Trail Slot} {hole : Option Slot} {q : Slot}
    (h : rootOf hole (f :: up) = some q) :
    q ∈ Trail.before (f :: up) ∨ q ∈ Trail.after (f :: up) := by
  induction up generalizing f hole with
  | nil => cases f <;> simp_all [rootOf]
  | cons g up ih =>
      have := @ih g (some f.label) h
      simp only [Trail.before_cons, Trail.after_cons, List.mem_append] at this ⊢
      tauto

theorem rootOf_cons (f : Frame Slot) (up : Trail Slot) (hole : Option Slot) :
    ∃ q, rootOf hole (f :: up) = some q := by
  induction up generalizing f hole with
  | nil => exact ⟨f.label, rfl⟩
  | cons g up ih => exact ih g (some f.label)

/-- A plugged trail matches when the subtree and the trail do. -/
theorem matches_fill {h : Slot → Proc} {up : Trail Slot} {t : ColorTree Slot} :
    Matches h none (Trail.fill up t) ↔
      Matches h (parentOf up) t ∧ MatchesTrail h t.root? up := by
  induction up generalizing t with
  | nil => simp
  | cons f up ih =>
      rw [Trail.fill_cons, ih]
      cases f <;> simp [Matches, MatchesTrail] <;> tauto

theorem Matches.congr {h h' : Slot → Proc} {par : Option Slot} {t : ColorTree Slot}
    (hm : Matches h par t) (heq : ∀ a ∈ t.toList, SameLinks (h' a) (h a)) : Matches h' par t := by
  induction t generalizing par with
  | nil => trivial
  | node c l a r ihl ihr =>
      obtain ⟨h1, h2, h3, h4, h5, h6⟩ := hm
      obtain ⟨e1, e2, e3, e4⟩ := heq a (by simp)
      exact ⟨e1 ▸ h1, e2 ▸ h2, e3 ▸ h3, e4 ▸ h4,
        ihl h5 (fun b hb => heq b (by simp [hb])), ihr h6 (fun b hb => heq b (by simp [hb]))⟩

theorem MatchesTrail.congr {h h' : Slot → Proc} {hole : Option Slot} {up : Trail Slot}
    (hm : MatchesTrail h hole up)
    (heq : ∀ a, a ∈ Trail.before up ∨ a ∈ Trail.after up → SameLinks (h' a) (h a)) :
    MatchesTrail h' hole up := by
  induction up generalizing hole with
  | nil => trivial
  | cons f up ih =>
      cases f with
      | left c a r =>
          obtain ⟨h1, h2, h3, h4, h5, h6⟩ := hm
          obtain ⟨e1, e2, e3, e4⟩ := heq a (by simp)
          exact ⟨e1 ▸ h1, e2 ▸ h2, e3 ▸ h3, e4 ▸ h4, h5.congr (fun b hb => heq b (by simp [hb])),
            ih h6 (fun b hb => heq b (by simp; tauto))⟩
      | right c l a =>
          obtain ⟨h1, h2, h3, h4, h5, h6⟩ := hm
          obtain ⟨e1, e2, e3, e4⟩ := heq a (by simp)
          exact ⟨e1 ▸ h1, e2 ▸ h2, e3 ▸ h3, e4 ▸ h4, h5.congr (fun b hb => heq b (by simp [hb])),
            ih h6 (fun b hb => heq b (by simp; tauto))⟩

/-- The links stored in memory are those of `t`, and no slot occurs twice. -/
structure Denotes (m : Mem) (t : ColorTree Slot) : Prop where
  root : m.tree.root = t.root?
  links : Matches m.proc none t
  nodup : t.toList.Nodup

theorem Denotes.congr {m m' : Mem} {t : ColorTree Slot} (h : Denotes m t)
    (hroot : m'.tree.root = m.tree.root)
    (hlinks : ∀ p ∈ t.toList, SameLinks (m'.proc p) (m.proc p)) : Denotes m' t :=
  ⟨hroot.trans h.root, h.links.congr hlinks, h.nodup⟩

/-- A slot without its colour and links. -/
@[simps] def Proc.unlinked (x : Proc) : Proc :=
  { x with color := .red, left := none, right := none, pParent := none }

/-- `m'` is `m` with colours and links changed, and only inside `t`. -/
structure Relinked (t : ColorTree Slot) (m m' : Mem) : Prop where
  outside : ∀ p, p ∉ t.toList → m'.proc p = m.proc p
  unlinked : ∀ p, (m'.proc p).unlinked = (m.proc p).unlinked
  tree : { m'.tree with root := none } = { m.tree with root := none }

/-- From `m` denoting `t` to `m'` denoting `t'`, a tree of the same labels in the same order. -/
structure Reshaped (m : Mem) (t : ColorTree Slot) (m' : Mem) (t' : ColorTree Slot) : Prop where
  denotes : Denotes m' t'
  relinked : Relinked t m m'
  toList : t'.toList = t.toList

/-- The fields of the tree's record that relinking keeps. -/
theorem Relinked.tree_fields {t : ColorTree Slot} {m m' : Mem} (h : Relinked t m m') :
    m'.tree.count = m.tree.count ∧ m'.tree.treeWeight = m.tree.treeWeight ∧
      m'.tree.minvRuntime = m.tree.minvRuntime ∧ m'.tree.locked = m.tree.locked ∧
      m'.tree.period = m.tree.period := by
  simpa using h.tree

theorem Reshaped.refl {m : Mem} {t : ColorTree Slot} (h : Denotes m t) : Reshaped m t m t :=
  ⟨h, ⟨fun _ _ => rfl, fun _ => rfl, rfl⟩, rfl⟩

theorem Reshaped.trans {m m' m'' : Mem} {t t' t'' : ColorTree Slot} (h : Reshaped m t m' t')
    (h' : Reshaped m' t' m'' t'') : Reshaped m t m'' t'' where
  denotes := h'.denotes
  relinked := {
    outside := fun p hp => by
      rw [h'.relinked.outside p (by rw [h.toList]; exact hp), h.relinked.outside p hp]
    unlinked := fun p => by rw [h'.relinked.unlinked, h.relinked.unlinked]
    tree := by rw [h'.relinked.tree, h.relinked.tree] }
  toList := by rw [h'.toList, h.toList]

/-- Changing colours and links of a slot of `t` relinks `t`. -/
theorem relinked_modify {t : ColorTree Slot} {m : Mem} {p : Slot} {f : Proc → Proc}
    (hp : p ∈ t.toList) (hf : ∀ x, (f x).unlinked = x.unlinked) : Relinked t m (m.modify p f) where
  outside q hq := m.modify_ne f (fun h => hq (h ▸ hp))
  unlinked q := by
    rw [Mem.modify_proc]
    split
    · rename_i h; rw [h, hf]
    · rfl
  tree := rfl

/-! ## Working at a hole -/

/-- What it means to denote a plugged trail, with the subtree and the trail apart. -/
structure DenotesAt (m : Mem) (up : Trail Slot) (t : ColorTree Slot) : Prop where
  root : m.tree.root = rootOf t.root? up
  inner : Matches m.proc (parentOf up) t
  outer : MatchesTrail m.proc t.root? up
  nodup : (Trail.before up ++ t.toList ++ Trail.after up).Nodup

theorem denotes_fill {m : Mem} (up : Trail Slot) {t : ColorTree Slot} :
    Denotes m (Trail.fill up t) ↔ DenotesAt m up t := by
  constructor
  · intro h
    obtain ⟨h1, h2⟩ := matches_fill.mp h.links
    exact ⟨by rw [h.root, root?_fill], h1, h2, by rw [← Trail.toList_fill]; exact h.nodup⟩
  · intro h
    exact ⟨by rw [h.root, root?_fill], matches_fill.mpr ⟨h.inner, h.outer⟩,
      by rw [Trail.toList_fill]; exact h.nodup⟩

/-- A slot of the subtree is not on the trail. -/
theorem DenotesAt.inner_ne {m : Mem} {up : Trail Slot} {t : ColorTree Slot} (h : DenotesAt m up t)
    {p q : Slot} (hp : p ∈ t.toList) (hq : q ∈ Trail.before up ∨ q ∈ Trail.after up) : q ≠ p := by
  have hn := h.nodup
  simp only [List.nodup_append, List.mem_append] at hn
  rintro rfl
  rcases hq with hq | hq
  · exact hn.1.2.2 q hq q hp rfl
  · exact hn.2.2 q (Or.inr hp) q hq rfl

/-- **Painting a node of the tree.** -/
theorem reshaped_setColor {m : Mem} (up : Trail Slot) {c : Color} (d : Color)
    {l r : ColorTree Slot} {a : Slot} (h : Denotes m (Trail.fill up (.node c l a r))) :
    Reshaped m (Trail.fill up (.node c l a r)) (m.setColor a d)
      (Trail.fill up (.node d l a r)) := by
  have h' := (denotes_fill _).mp h
  obtain ⟨h1, h2, h3, h4, h5, h6⟩ := h'.inner
  have hne : ∀ q, q ≠ a → SameLinks ((m.setColor a d).proc q) (m.proc q) := by
    intro q hq
    rw [Mem.setColor, Mem.modify_ne _ _ hq]
    exact ⟨rfl, rfl, rfl, rfl⟩
  have hnd : (l.toList ++ a :: r.toList).Nodup := (List.nodup_append.mp
    (List.nodup_append.mp h'.nodup).1).2.1
  simp only [List.nodup_append, List.nodup_cons, List.mem_cons] at hnd
  refine ⟨(denotes_fill _).mpr ⟨h'.root, ⟨?_, ?_, ?_, ?_, ?_, ?_⟩, ?_, h'.nodup⟩, ?_,
    by simp [Trail.toList_fill]⟩
  · simp [Mem.setColor]
  · simp [Mem.setColor, h2]
  · simp [Mem.setColor, h3]
  · simp [Mem.setColor, h4]
  · exact h5.congr fun q hq => hne q (hnd.2.2 q hq a (Or.inl rfl))
  · exact h6.congr fun q hq => hne q (fun e => hnd.2.1.1 (e ▸ hq))
  · exact h'.outer.congr fun q hq => hne q (h'.inner_ne (by simp) hq)
  · exact relinked_modify (by simp [Trail.toList_fill]) (fun x => rfl)

/-! ## Rotations -/

/-- Only the root of a subtree knows what is above it. -/
theorem Matches.reparent {h h' : Slot → Proc} {par par' : Option Slot} {t : ColorTree Slot}
    (hm : Matches h par t) (hnd : t.toList.Nodup)
    (hroot : ∀ a, t.root? = some a → SameLinks (h' a) { h a with pParent := par' })
    (hrest : ∀ a ∈ t.toList, t.root? ≠ some a → SameLinks (h' a) (h a)) : Matches h' par' t := by
  cases t with
  | nil => trivial
  | node c l a r =>
      obtain ⟨h1, h2, h3, _, h5, h6⟩ := hm
      obtain ⟨e1, e2, e3, e4⟩ := hroot a rfl
      simp only [ColorTree.toList_node, List.nodup_append, List.nodup_cons, List.mem_cons] at hnd
      refine ⟨e1 ▸ h1, e2 ▸ h2, e3 ▸ h3, e4, ?_, ?_⟩
      · refine h5.congr fun b hb => hrest b (by simp [hb]) ?_
        simpa using fun e => hnd.2.2 b hb a (Or.inl rfl) e.symm
      · refine h6.congr fun b hb => hrest b (by simp [hb]) ?_
        simp only [ColorTree.root?_node, ne_eq, Option.some.injEq]
        rintro rfl; exact hnd.2.1.1 hb

/-- The link to `a`, on whichever side it is, redirected to `b`. -/
def Proc.replaceChild (x : Proc) (a b : Slot) : Proc :=
  { x with
    left := if x.left = some a then some b else x.left
    right := if x.right = some a then some b else x.right }

/-- A parent has the hole on exactly one side. -/
theorem MatchesTrail.child {h : Slot → Proc} {a q : Slot} {up : Trail Slot}
    (hm : MatchesTrail h (some a) up) (ha : a ∉ Trail.before up ∧ a ∉ Trail.after up)
    (hq : parentOf up = some q) :
    ((h q).left = some a ∧ (h q).right ≠ some a) ∨
      ((h q).left ≠ some a ∧ (h q).right = some a) := by
  cases up with
  | nil => simp at hq
  | cons f up =>
      cases f with
      | left c p r =>
          obtain rfl : p = q := by simpa using hq
          obtain ⟨_, h2, h3, _⟩ := hm
          refine Or.inl ⟨h2, ?_⟩
          rw [h3]; intro e
          exact ha.2 (by simp [ColorTree.root?_mem e])
      | right c l p =>
          obtain rfl : p = q := by simpa using hq
          obtain ⟨_, h2, h3, _⟩ := hm
          refine Or.inr ⟨?_, h3⟩
          rw [h2]; intro e
          exact ha.1 (by simp [ColorTree.root?_mem e])

/-- Only the innermost parent knows what is in the hole. -/
theorem MatchesTrail.relink {h h' : Slot → Proc} {a b : Slot} {up : Trail Slot}
    (hm : MatchesTrail h (some a) up)
    (hnd : (Trail.before up ++ Trail.after up).Nodup)
    (ha : a ∉ Trail.before up ∧ a ∉ Trail.after up)
    (hpar : ∀ q, parentOf up = some q → SameLinks (h' q) ((h q).replaceChild a b))
    (hrest : ∀ q, q ∈ Trail.before up ∨ q ∈ Trail.after up → parentOf up ≠ some q →
      SameLinks (h' q) (h q)) : MatchesTrail h' (some b) up := by
  cases up with
  | nil => trivial
  | cons f up =>
      obtain ⟨e1, e2, e3, e4⟩ := hpar f.label rfl
      cases f with
      | left c p r =>
          obtain ⟨h1, h2, h3, h4, h5, h6⟩ := hm
          have hra : r.root? ≠ some a := fun e => ha.2 (by simp [ColorTree.root?_mem e])
          simp only [Frame.label_left, Proc.replaceChild, h2, h3, if_true, if_neg hra]
            at e1 e2 e3 e4
          simp only [Trail.before_cons, Trail.after_cons, Frame.before_left, Frame.after_left,
            List.append_nil, List.nodup_append, List.cons_append, List.nodup_cons,
            List.mem_append, List.mem_cons] at hnd
          refine ⟨e1 ▸ h1, e2, e3, e4 ▸ h4, ?_, ?_⟩
          · refine h5.congr fun q hq => hrest q (by simp [hq]) ?_
            simp only [parentOf_cons, Frame.label_left, ne_eq, Option.some.injEq]
            rintro rfl; exact hnd.2.1.1 (Or.inl hq)
          · refine h6.congr fun q hq => hrest q (by simp; tauto) ?_
            simp only [parentOf_cons, Frame.label_left, ne_eq, Option.some.injEq]
            rintro rfl
            rcases hq with hq | hq
            · exact hnd.2.2 p hq p (Or.inl rfl) rfl
            · exact hnd.2.1.1 (Or.inr hq)
      | right c l p =>
          obtain ⟨h1, h2, h3, h4, h5, h6⟩ := hm
          have hla : l.root? ≠ some a := fun e => ha.1 (by simp [ColorTree.root?_mem e])
          simp only [Frame.label_right, Proc.replaceChild, h2, h3, if_true, if_neg hla]
            at e1 e2 e3 e4
          simp only [Trail.before_cons, Trail.after_cons, Frame.before_right, Frame.after_right,
            List.nil_append, List.nodup_append, List.append_assoc, List.nodup_cons,
            List.cons_append, List.mem_append, List.mem_cons] at hnd
          refine ⟨e1 ▸ h1, e2, e3, e4 ▸ h4, ?_, ?_⟩
          · refine h5.congr fun q hq => hrest q (by simp [hq]) ?_
            simp only [parentOf_cons, Frame.label_right, ne_eq, Option.some.injEq]
            rintro rfl
            exact hnd.2.1.2.2 p hq p (Or.inl rfl) rfl
          · refine h6.congr fun q hq => hrest q (by simp; tauto) ?_
            simp only [parentOf_cons, Frame.label_right, ne_eq, Option.some.injEq]
            rintro rfl
            rcases hq with hq | hq
            · exact hnd.2.2 p hq p (by simp) rfl
            · exact hnd.2.1.2.1.1 (by simp [hq])

/--
What a rotation of `a` below `par` does to the slots: `b` takes the place of `a`,
`a` becomes its child, and the subtree between them changes parent.
-/
structure Rotated (m m' : Mem) (par mid : Option Slot) (a b : Slot) (fa fb : Proc → Proc) :
    Prop where
  root : m'.tree.root = if par = none then some b else m.tree.root
  tree : { m'.tree with root := none } = { m.tree with root := none }
  low : m'.proc a = (fa (m.proc a)).setPParent (some b)
  high : m'.proc b = fb ((m.proc b).setPParent par)
  between : ∀ q, mid = some q → m'.proc q = (m.proc q).setPParent (some a)
  above : ∀ q, par = some q → m'.proc q = (m.proc q).replaceChild a b
  rest : ∀ q, q ≠ a → q ≠ b → some q ≠ mid → some q ≠ par → m'.proc q = m.proc q

theorem Proc.replaceChild_left {x : Proc} {a b : Slot} (h1 : x.left = some a)
    (h2 : x.right ≠ some a) : x.replaceChild a b = x.setLeft (some b) := by
  simp [Proc.replaceChild, Proc.setLeft, h1, h2]

theorem Proc.replaceChild_right {x : Proc} {a b : Slot} (h1 : x.left ≠ some a)
    (h2 : x.right = some a) : x.replaceChild a b = x.setRight (some b) := by
  simp [Proc.replaceChild, Proc.setRight, h1, h2]

section Evaluation

variable {m : Mem} {a b : Slot} {mid par : Option Slot}

attribute [local simp] Mem.setLeft Mem.setRight Mem.setPParent Mem.setRoot Mem.modify_proc
  Proc.replaceChild_left Proc.replaceChild_right

theorem rotateLeft_eval
    (hr : (m.proc a).right = some b) (hmid : (m.proc b).left = mid) (hp : (m.proc a).pParent = par)
    (hab : a ≠ b) (hma : mid ≠ some a) (hmb : mid ≠ some b) (hpa : par ≠ some a)
    (hpb : par ≠ some b) (hmp : ∀ q, mid = some q → par ≠ some q)
    (hch : ∀ q, par = some q → ((m.proc q).left = some a ∧ (m.proc q).right ≠ some a) ∨
      ((m.proc q).left ≠ some a ∧ (m.proc q).right = some a)) :
    ∃ m', rotateLeft m a = .ok m' ∧
      Rotated m m' par mid a b (·.setRight mid) (·.setLeft (some a)) := by
  have hba : b ≠ a := hab.symm
  refine ⟨_, by simp only [rotateLeft, hr, deref_some]; rfl, ?_⟩
  subst hmid hp
  cases hmid : (m.proc b).left with
  | none =>
      cases hpar : (m.proc a).pParent with
      | none => constructor <;> simp +contextual [hab, hba, hmid, hpar]
      | some q =>
          rw [hpar] at hpa hpb hch
          have hqa : q ≠ a := by simpa using hpa
          have hqb : q ≠ b := by simpa using hpb
          rcases hch q rfl with ⟨h1, h2⟩ | ⟨h1, h2⟩ <;> constructor <;>
            simp +contextual [hab, hba, hmid, hpar, hqa, hqb, hqa.symm, hqb.symm, h1, h2]
  | some x =>
      rw [hmid] at hma hmb hmp
      have hxa : x ≠ a := by simpa using hma
      have hxb : x ≠ b := by simpa using hmb
      cases hpar : (m.proc a).pParent with
      | none =>
          constructor <;>
            simp +contextual [hab, hba, hmid, hpar, hxa, hxb, hxa.symm, hxb.symm]
      | some q =>
          rw [hpar] at hpa hpb hch hmp
          have hqa : q ≠ a := by simpa using hpa
          have hqb : q ≠ b := by simpa using hpb
          have hxq : x ≠ q := fun e => hmp x rfl (by rw [e])
          rcases hch q rfl with ⟨h1, h2⟩ | ⟨h1, h2⟩ <;> constructor <;>
            simp +contextual [hab, hba, hmid, hpar, hqa, hqb, hqa.symm, hqb.symm, h1, h2, hxa, hxb,
              hxq, hxa.symm, hxb.symm, hxq.symm]

theorem rotateRight_eval
    (hl : (m.proc a).left = some b) (hmid : (m.proc b).right = mid) (hp : (m.proc a).pParent = par)
    (hab : a ≠ b) (hma : mid ≠ some a) (hmb : mid ≠ some b) (hpa : par ≠ some a)
    (hpb : par ≠ some b) (hmp : ∀ q, mid = some q → par ≠ some q)
    (hch : ∀ q, par = some q → ((m.proc q).left = some a ∧ (m.proc q).right ≠ some a) ∨
      ((m.proc q).left ≠ some a ∧ (m.proc q).right = some a)) :
    ∃ m', rotateRight m a = .ok m' ∧
      Rotated m m' par mid a b (·.setLeft mid) (·.setRight (some a)) := by
  have hba : b ≠ a := hab.symm
  refine ⟨_, by simp only [rotateRight, hl, deref_some]; rfl, ?_⟩
  subst hmid hp
  cases hmid : (m.proc b).right with
  | none =>
      cases hpar : (m.proc a).pParent with
      | none => constructor <;> simp +contextual [hab, hba, hmid, hpar]
      | some q =>
          rw [hpar] at hpa hpb hch
          have hqa : q ≠ a := by simpa using hpa
          have hqb : q ≠ b := by simpa using hpb
          rcases hch q rfl with ⟨h1, h2⟩ | ⟨h1, h2⟩ <;> constructor <;>
            simp +contextual [hab, hba, hmid, hpar, hqa, hqb, hqa.symm, hqb.symm, h1, h2]
  | some x =>
      rw [hmid] at hma hmb hmp
      have hxa : x ≠ a := by simpa using hma
      have hxb : x ≠ b := by simpa using hmb
      cases hpar : (m.proc a).pParent with
      | none =>
          constructor <;>
            simp +contextual [hab, hba, hmid, hpar, hxa, hxb, hxa.symm, hxb.symm]
      | some q =>
          rw [hpar] at hpa hpb hch hmp
          have hqa : q ≠ a := by simpa using hpa
          have hqb : q ≠ b := by simpa using hpb
          have hxq : x ≠ q := fun e => hmp x rfl (by rw [e])
          rcases hch q rfl with ⟨h1, h2⟩ | ⟨h1, h2⟩ <;> constructor <;>
            simp +contextual [hab, hba, hmid, hpar, hqa, hqb, hqa.symm, hqb.symm, h1, h2, hxa, hxb,
              hxq, hxa.symm, hxb.symm, hxq.symm]

end Evaluation

theorem parentOf_mem {up : Trail Slot} {q : Slot} (h : parentOf up = some q) :
    q ∈ Trail.before up ∨ q ∈ Trail.after up := by
  cases up with
  | nil => simp at h
  | cons f up =>
      obtain rfl : f.label = q := by simpa using h
      cases f <;> simp

/-- A rotation writes only to the slots it names. -/
theorem Rotated.relinked {m m' : Mem} {up : Trail Slot} {t : ColorTree Slot} {mid : Option Slot}
    {a b : Slot} {fa fb : Proc → Proc} (h : Rotated m m' (parentOf up) mid a b fa fb)
    (ha : a ∈ t.toList) (hb : b ∈ t.toList) (hmid : ∀ q, mid = some q → q ∈ t.toList)
    (hfa : ∀ x, (fa x).unlinked = x.unlinked) (hfb : ∀ x, (fb x).unlinked = x.unlinked) :
    Relinked (Trail.fill up t) m m' where
  outside p hp := by
    rw [Trail.mem_fill] at hp
    refine h.rest p ?_ ?_ ?_ ?_
    · rintro rfl; exact hp (Or.inr (Or.inl ha))
    · rintro rfl; exact hp (Or.inr (Or.inl hb))
    · intro e; exact hp (Or.inr (Or.inl (hmid p e.symm)))
    · intro e
      rcases parentOf_mem e.symm with h' | h'
      · exact hp (Or.inl h')
      · exact hp (Or.inr (Or.inr h'))
  unlinked p := by
    by_cases h1 : p = a
    · rw [h1, h.low]; exact hfa (m.proc a)
    by_cases h2 : p = b
    · rw [h2, h.high, hfb]; rfl
    by_cases h3 : some p = mid
    · rw [h.between p h3.symm]; rfl
    by_cases h4 : some p = parentOf up
    · rw [h.above p h4.symm]; rfl
    · rw [h.rest p h1 h2 h3 h4]
  tree := h.tree

/-- Links from a rotation's hole upwards. -/
theorem Rotated.outer {m m' : Mem} {up : Trail Slot} {t : ColorTree Slot} {mid : Option Slot}
    {a b : Slot} {fa fb : Proc → Proc} (h : Rotated m m' (parentOf up) mid a b fa fb)
    (hm : DenotesAt m up t) (ht : t.root? = some a)
    (ha : a ∈ t.toList) (hb : b ∈ t.toList) (hmid : ∀ q, mid = some q → q ∈ t.toList) :
    m'.tree.root = rootOf (some b) up ∧ MatchesTrail m'.proc (some b) up := by
  have hout := hm.outer
  rw [ht] at hout
  have hne : ∀ {p q : Slot}, p ∈ t.toList → q ∈ Trail.before up ∨ q ∈ Trail.after up → q ≠ p :=
    fun hp hq => hm.inner_ne hp hq
  refine ⟨?_, hout.relink ?_ ?_ ?_ ?_⟩
  · rw [h.root, hm.root, ht]
    cases up with
    | nil => simp [rootOf]
    | cons f up => simp [rootOf]
  · have := hm.nodup
    simp only [List.nodup_append, List.mem_append] at this ⊢
    exact ⟨this.1.1, this.2.1, fun p hp q hq => this.2.2 p (Or.inl hp) q hq⟩
  · exact ⟨fun h' => hne ha (Or.inl h') rfl, fun h' => hne ha (Or.inr h') rfl⟩
  · intro q hq
    rw [h.above q hq]
    exact ⟨rfl, rfl, rfl, rfl⟩
  · intro q hq hpar
    rw [h.rest q (hne ha hq) (hne hb hq) ?_ (fun e => hpar e.symm)]
    · exact ⟨rfl, rfl, rfl, rfl⟩
    · intro e; exact hne (hmid q e.symm) hq rfl

/-- What a left rotation does to the slots of a tree. -/
theorem rotated_rotateLeft {m : Mem} (up : Trail Slot) {c d : Color} {l x y : ColorTree Slot}
    {a b : Slot} (h : Denotes m (Trail.fill up (.node c l a (.node d x b y)))) :
    ∃ m', rotateLeft m a = .ok m' ∧
      Rotated m m' (parentOf up) x.root? a b (·.setRight x.root?) (·.setLeft (some a)) := by
  have h' := (denotes_fill _).mp h
  obtain ⟨h1, h2, h3, h4, h5, h6⟩ := h'.inner
  obtain ⟨k1, k2, k3, k4, k5, k6⟩ := h6
  have hin : (l.toList ++ a :: (x.toList ++ b :: y.toList)).Nodup := (List.nodup_append.mp
    (List.nodup_append.mp h'.nodup).1).2.1
  simp only [List.nodup_append, List.nodup_cons, List.mem_append, List.mem_cons] at hin
  obtain ⟨-, ⟨ha, -, -, hxby⟩, -⟩ := hin
  have hmid : ∀ q, x.root? = some q → q ∈ x.toList := fun q e => ColorTree.root?_mem e
  have hpar : ∀ q, parentOf up = some q →
      ∀ p ∈ (ColorTree.node c l a (.node d x b y)).toList, q ≠ p :=
    fun q e p hp => h'.inner_ne hp (parentOf_mem e)
  exact rotateLeft_eval (m := m) (a := a) (b := b) h3 k2 h4
    (fun e => ha (by simp [e]))
    (fun e => ha (Or.inl (hmid a e)))
    (fun e => hxby b (hmid b e) b (Or.inl rfl) rfl)
    (fun e => hpar a e a (by simp) rfl)
    (fun e => hpar b e b (by simp) rfl)
    (fun q e e' => hpar q e' q (by simp [hmid q e]) rfl)
    (fun q e => h'.outer.child
      ⟨fun h => h'.inner_ne (p := a) (by simp) (Or.inl h) rfl,
        fun h => h'.inner_ne (p := a) (by simp) (Or.inr h) rfl⟩ e)

/-- **A left rotation, on the tree.** -/
theorem reshaped_rotateLeft {m : Mem} (up : Trail Slot) {c d : Color} {l x y : ColorTree Slot}
    {a b : Slot} (h : Denotes m (Trail.fill up (.node c l a (.node d x b y)))) :
    ∃ m', rotateLeft m a = .ok m' ∧
      Reshaped m (Trail.fill up (.node c l a (.node d x b y)))
        m' (Trail.fill up (.node d (.node c l a x) b y)) := by
  have h' := (denotes_fill _).mp h
  obtain ⟨h1, h2, h3, h4, h5, h6⟩ := h'.inner
  obtain ⟨k1, k2, k3, k4, k5, k6⟩ := h6
  have hin : (l.toList ++ a :: (x.toList ++ b :: y.toList)).Nodup := (List.nodup_append.mp
    (List.nodup_append.mp h'.nodup).1).2.1
  simp only [List.nodup_append, List.nodup_cons, List.mem_append, List.mem_cons] at hin
  obtain ⟨hl, ⟨ha, hx, ⟨hb, hy⟩, hxby⟩, hlr⟩ := hin
  have hmid : ∀ q, x.root? = some q → q ∈ x.toList := fun q e => ColorTree.root?_mem e
  have hpar : ∀ q, parentOf up = some q →
      ∀ p ∈ (ColorTree.node c l a (.node d x b y)).toList, q ≠ p :=
    fun q e p hp => h'.inner_ne hp (parentOf_mem e)
  obtain ⟨m', hrot, hm'⟩ := rotated_rotateLeft up h
  obtain ⟨hroot, hout⟩ := hm'.outer h' rfl (by simp) (by simp) (fun q e => by simp [hmid q e])
  have hsame : ∀ q, q ≠ a → q ≠ b → q ∉ x.toList →
      q ∈ (ColorTree.node c l a (.node d x b y)).toList → SameLinks (m'.proc q) (m.proc q) := by
    intro q hqa hqb hqx hq
    rw [hm'.rest q hqa hqb (fun e => hqx (hmid q e.symm)) (fun e => hpar q e.symm q hq rfl)]
    exact ⟨rfl, rfl, rfl, rfl⟩
  refine ⟨m', hrot, (denotes_fill _).mpr
    ⟨hroot, ⟨?_, ?_, ?_, ?_, ⟨?_, ?_, ?_, ?_, ?_, ?_⟩, ?_⟩, hout,
    ?_⟩, ?_, by simp [Trail.toList_fill]⟩
  · simp [hm'.high, k1]
  · simp [hm'.high]
  · simp [hm'.high, k3]
  · simp [hm'.high]
  · simp [hm'.low, h1]
  · simp [hm'.low, h2]
  · simp [hm'.low]
  · simp [hm'.low]
  · refine h5.congr fun q hq => hsame q ?_ ?_ ?_ (by simp [hq])
    · exact hlr q hq a (Or.inl rfl)
    · exact hlr q hq b (by simp)
    · intro hqx; exact hlr q hq q (by simp [hqx]) rfl
  · refine k5.reparent hx (fun q e => ?_) (fun q hq e => ?_)
    · rw [hm'.between q e]; exact ⟨rfl, rfl, rfl, rfl⟩
    · rw [hm'.rest q (fun e' => ha (by rw [← e']; simp [hq]))
        (fun e' => hxby q hq b (Or.inl rfl) e') (fun e' => e e'.symm)
        (fun e' => hpar q e'.symm q (by simp [hq]) rfl)]
      exact ⟨rfl, rfl, rfl, rfl⟩
  · refine k6.congr fun q hq => hsame q ?_ ?_ ?_ (by simp [hq])
    · intro e; exact ha (by rw [← e]; simp [hq])
    · intro e; exact hb (e ▸ hq)
    · intro hqx; exact hxby q hqx q (by simp [hq]) rfl
  · have := h'.nodup
    simpa using this
  · exact hm'.relinked (by simp) (by simp) (fun q e => by simp [hmid q e]) (fun _ => rfl)
      (fun _ => rfl)

/-- What a right rotation does to the slots of a tree. -/
theorem rotated_rotateRight {m : Mem} (up : Trail Slot) {c d : Color} {x y r : ColorTree Slot}
    {a b : Slot} (h : Denotes m (Trail.fill up (.node c (.node d x b y) a r))) :
    ∃ m', rotateRight m a = .ok m' ∧
      Rotated m m' (parentOf up) y.root? a b (·.setLeft y.root?) (·.setRight (some a)) := by
  have h' := (denotes_fill _).mp h
  obtain ⟨h1, h2, h3, h4, h5, h6⟩ := h'.inner
  obtain ⟨k1, k2, k3, k4, k5, k6⟩ := h5
  have hin : ((x.toList ++ b :: y.toList) ++ a :: r.toList).Nodup := (List.nodup_append.mp
    (List.nodup_append.mp h'.nodup).1).2.1
  simp only [List.nodup_append, List.nodup_cons, List.mem_append, List.mem_cons] at hin
  obtain ⟨⟨-, ⟨hb, -⟩, -⟩, -, hlr⟩ := hin
  have hmid : ∀ q, y.root? = some q → q ∈ y.toList := fun q e => ColorTree.root?_mem e
  have hpar : ∀ q, parentOf up = some q →
      ∀ p ∈ (ColorTree.node c (.node d x b y) a r).toList, q ≠ p :=
    fun q e p hp => h'.inner_ne hp (parentOf_mem e)
  have hab : a ≠ b := fun e => hlr b (by simp) a (Or.inl rfl) e.symm
  have hay : a ∉ y.toList := fun e => hlr a (by simp [e]) a (Or.inl rfl) rfl
  exact rotateRight_eval (m := m) (a := a) (b := b) h2 k3 h4 hab
    (fun e => hay (hmid a e))
    (fun e => hb (hmid b e))
    (fun e => hpar a e a (by simp) rfl)
    (fun e => hpar b e b (by simp) rfl)
    (fun q e e' => hpar q e' q (by simp [hmid q e]) rfl)
    (fun q e => h'.outer.child
      ⟨fun h => h'.inner_ne (p := a) (by simp) (Or.inl h) rfl,
        fun h => h'.inner_ne (p := a) (by simp) (Or.inr h) rfl⟩ e)

/-- **A right rotation, on the tree.** -/
theorem reshaped_rotateRight {m : Mem} (up : Trail Slot) {c d : Color} {x y r : ColorTree Slot}
    {a b : Slot} (h : Denotes m (Trail.fill up (.node c (.node d x b y) a r))) :
    ∃ m', rotateRight m a = .ok m' ∧
      Reshaped m (Trail.fill up (.node c (.node d x b y) a r))
        m' (Trail.fill up (.node d x b (.node c y a r))) := by
  have h' := (denotes_fill _).mp h
  obtain ⟨h1, h2, h3, h4, h5, h6⟩ := h'.inner
  obtain ⟨k1, k2, k3, k4, k5, k6⟩ := h5
  have hin : ((x.toList ++ b :: y.toList) ++ a :: r.toList).Nodup := (List.nodup_append.mp
    (List.nodup_append.mp h'.nodup).1).2.1
  simp only [List.nodup_append, List.nodup_cons, List.mem_append, List.mem_cons] at hin
  obtain ⟨⟨hx, ⟨hb, hy⟩, hxby⟩, ⟨ha, hr⟩, hlr⟩ := hin
  have hmid : ∀ q, y.root? = some q → q ∈ y.toList := fun q e => ColorTree.root?_mem e
  have hpar : ∀ q, parentOf up = some q →
      ∀ p ∈ (ColorTree.node c (.node d x b y) a r).toList, q ≠ p :=
    fun q e p hp => h'.inner_ne hp (parentOf_mem e)
  have hay : a ∉ y.toList := fun e => hlr a (by simp [e]) a (Or.inl rfl) rfl
  obtain ⟨m', hrot, hm'⟩ := rotated_rotateRight up h
  obtain ⟨hroot, hout⟩ := hm'.outer h' rfl (by simp) (by simp) (fun q e => by simp [hmid q e])
  have hsame : ∀ q, q ≠ a → q ≠ b → q ∉ y.toList →
      q ∈ (ColorTree.node c (.node d x b y) a r).toList → SameLinks (m'.proc q) (m.proc q) := by
    intro q hqa hqb hqy hq
    rw [hm'.rest q hqa hqb (fun e => hqy (hmid q e.symm)) (fun e => hpar q e.symm q hq rfl)]
    exact ⟨rfl, rfl, rfl, rfl⟩
  refine ⟨m', hrot, (denotes_fill _).mpr
    ⟨hroot, ⟨?_, ?_, ?_, ?_, ?_, ⟨?_, ?_, ?_, ?_, ?_, ?_⟩⟩, hout,
    ?_⟩, ?_, by simp [Trail.toList_fill]⟩
  · simp [hm'.high, k1]
  · simp [hm'.high, k2]
  · simp [hm'.high]
  · simp [hm'.high]
  · refine k5.congr fun q hq => hsame q ?_ ?_ ?_ (by simp [hq])
    · exact hlr q (by simp [hq]) a (Or.inl rfl)
    · exact hxby q hq b (Or.inl rfl)
    · intro hqy; exact hxby q hq q (by simp [hqy]) rfl
  · simp [hm'.low, h1]
  · simp [hm'.low]
  · simp [hm'.low, h3]
  · simp [hm'.low]
  · refine k6.reparent hy (fun q e => ?_) (fun q hq e => ?_)
    · rw [hm'.between q e]; exact ⟨rfl, rfl, rfl, rfl⟩
    · rw [hm'.rest q (fun e' => hay (e' ▸ hq)) (fun e' => hb (e' ▸ hq)) (fun e' => e e'.symm)
        (fun e' => hpar q e'.symm q (by simp [hq]) rfl)]
      exact ⟨rfl, rfl, rfl, rfl⟩
  · refine h6.congr fun q hq => hsame q ?_ ?_ ?_ (by simp [hq])
    · rintro rfl; exact ha hq
    · rintro rfl; exact hlr q (by simp) q (by simp [hq]) rfl
    · intro hqy; exact hlr q (by simp [hqy]) q (by simp [hq]) rfl
  · have := h'.nodup
    simpa using this
  · exact hm'.relinked (by simp) (by simp) (fun q e => by simp [hmid q e]) (fun _ => rfl)
      (fun _ => rfl)

end Xv6Cfs
