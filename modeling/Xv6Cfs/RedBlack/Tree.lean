import Mathlib.Data.List.Basic
import Mathlib.Data.Nat.Log
import Mathlib.Tactic.Linarith

/-!
# Red-black trees and the holes in them

A coloured binary tree over an arbitrary type of labels, and the *trail* from a
subtree up to the root. Algorithms that repair a tree from the bottom work at a
hole: the subtree below it has just changed, everything above is still intact.
`Trail.fill` plugs the hole, and `Trail.Balanced` says what must be plugged in for
the whole to be a red-black tree again.

Nothing here orders the labels. What a search tree means is read off `toList`,
and every repair in the two modules that follow is proved to leave that list
alone.
-/

namespace RedBlack

/-- The colour of a node. -/
inductive Color where
  | red
  | black
  deriving DecidableEq, Repr, Inhabited

/-- A coloured binary tree. -/
inductive ColorTree (α : Type) where
  | nil
  | node (c : Color) (l : ColorTree α) (a : α) (r : ColorTree α)
  deriving DecidableEq, Repr

variable {α : Type}

namespace ColorTree

/-- The labels from left to right. -/
def toList : ColorTree α → List α
  | nil => []
  | node _ l a r => l.toList ++ a :: r.toList

/-- The number of nodes. -/
def size : ColorTree α → Nat
  | nil => 0
  | node _ l _ r => l.size + r.size + 1

/-- The number of nodes on a longest way down. -/
def height : ColorTree α → Nat
  | nil => 0
  | node _ l _ r => max l.height r.height + 1

/-- The label at the root. -/
def root? : ColorTree α → Option α
  | nil => none
  | node _ _ a _ => some a

/-- The colour seen from above: a missing child counts as black. -/
def color : ColorTree α → Color
  | nil => .black
  | node c _ _ _ => c

/-- Repaint the root. -/
def paint (c : Color) : ColorTree α → ColorTree α
  | nil => nil
  | node _ l a r => node c l a r

@[simp] theorem toList_nil : (nil : ColorTree α).toList = [] := rfl

@[simp] theorem toList_node (c : Color) (l : ColorTree α) (a : α) (r : ColorTree α) :
    (node c l a r).toList = l.toList ++ a :: r.toList := rfl

@[simp] theorem toList_paint (c : Color) (t : ColorTree α) : (t.paint c).toList = t.toList := by
  cases t <;> rfl

@[simp] theorem root?_nil : (nil : ColorTree α).root? = none := rfl

@[simp] theorem root?_node (c : Color) (l : ColorTree α) (a : α) (r : ColorTree α) :
    (node c l a r).root? = some a := rfl

@[simp] theorem root?_paint (c : Color) (t : ColorTree α) : (t.paint c).root? = t.root? := by
  cases t <;> rfl

@[simp] theorem color_nil : (nil : ColorTree α).color = .black := rfl

@[simp] theorem color_node (c : Color) (l : ColorTree α) (a : α) (r : ColorTree α) :
    (node c l a r).color = c := rfl

@[simp] theorem paint_nil (c : Color) : (nil : ColorTree α).paint c = nil := rfl

@[simp] theorem paint_node (c d : Color) (l : ColorTree α) (a : α) (r : ColorTree α) :
    (node d l a r).paint c = node c l a r := rfl

theorem length_toList (t : ColorTree α) : t.toList.length = t.size := by
  induction t with
  | nil => rfl
  | node c l a r ihl ihr => simp [size, ihl, ihr]; omega

theorem height_le_size (t : ColorTree α) : t.height ≤ t.size := by
  induction t with
  | nil => simp [height]
  | node c l a r ihl ihr => simp only [height, size]; omega

theorem toList_eq_nil {t : ColorTree α} : t.toList = [] ↔ t = nil := by
  cases t <;> simp

theorem root?_mem {t : ColorTree α} {a : α} (h : t.root? = some a) : a ∈ t.toList := by
  cases t with
  | nil => simp at h
  | node c l b r => simp at h; simp [h]

theorem exists_root?_of_mem {t : ColorTree α} {a : α} (h : a ∈ t.toList) :
    ∃ b, t.root? = some b := by
  cases t with
  | nil => simp at h
  | node c l b r => exact ⟨b, rfl⟩

/-- `q` labels a node of `t` that has a left child. -/
def HasLeft (q : α) : ColorTree α → Prop
  | nil => False
  | node _ l a r => (a = q ∧ l ≠ nil) ∨ l.HasLeft q ∨ r.HasLeft q

/--
`t.Balanced c n`: the root of `t` has colour `c`, no red node of `t` has a red
child, and every way down from the root to a missing child meets `n` black nodes.
-/
inductive Balanced : ColorTree α → Color → Nat → Prop where
  | nil : Balanced nil .black 0
  | red {l r : ColorTree α} {a : α} {n : Nat} :
      Balanced l .black n → Balanced r .black n → Balanced (node .red l a r) .red n
  | black {l r : ColorTree α} {a : α} {c d : Color} {n : Nat} :
      Balanced l c n → Balanced r d n → Balanced (node .black l a r) .black (n + 1)

theorem Balanced.color_eq {t : ColorTree α} {c : Color} {n : Nat} (h : t.Balanced c n) :
    t.color = c := by
  cases h <;> rfl

/-- Painting a red root black adds one black node to every way down. -/
theorem Balanced.paint_red {t : ColorTree α} {n : Nat} (h : t.Balanced .red n) :
    (t.paint .black).Balanced .black (n + 1) := by
  cases h with
  | red hl hr => exact .black hl hr

/-- Painting a black root black changes nothing. -/
theorem Balanced.paint_black {t : ColorTree α} {n : Nat} (h : t.Balanced .black n) :
    (t.paint .black).Balanced .black n := by
  cases h with
  | nil => exact .nil
  | black hl hr => exact .black hl hr

theorem HasLeft.mem {t : ColorTree α} {q : α} (h : t.HasLeft q) : q ∈ t.toList := by
  induction t with
  | nil => exact h.elim
  | node c l a r ihl ihr =>
      rcases h with ⟨rfl, _⟩ | h | h
      · simp
      · simp [ihl h]
      · simp [ihr h]

@[simp] theorem hasLeft_nil (q : α) : (nil : ColorTree α).HasLeft q ↔ False := Iff.rfl

@[simp] theorem hasLeft_node (q : α) (c : Color) (l : ColorTree α) (a : α) (r : ColorTree α) :
    (node c l a r).HasLeft q ↔ (a = q ∧ l ≠ nil) ∨ l.HasLeft q ∨ r.HasLeft q := Iff.rfl

@[simp] theorem hasLeft_paint (q : α) (c : Color) (t : ColorTree α) :
    (t.paint c).HasLeft q ↔ t.HasLeft q := by
  cases t <;> rfl

/-- The first label has no left child. -/
theorem not_hasLeft_of_head {t : ColorTree α} {q : α} (hnd : t.toList.Nodup)
    (hq : t.toList.head? = some q) : ¬t.HasLeft q := by
  induction t with
  | nil => simp
  | node c l a r ihl ihr =>
      simp only [toList_node, List.nodup_append, List.nodup_cons, List.mem_cons] at hnd
      obtain ⟨hndl, ⟨har, hndr⟩, hlr⟩ := hnd
      cases l with
      | nil =>
          obtain rfl : a = q := by simpa using hq
          simp only [hasLeft_node, ne_eq, not_true_eq_false, and_false, hasLeft_nil, false_or]
          exact fun h => har (h.mem)
      | node d x b y =>
          have hl : (node d x b y).toList.head? = some q := by
            rw [toList_node c, List.head?_append] at hq
            cases hh : (node d x b y).toList.head? with
            | none => simp at hh
            | some z => rw [hh] at hq; exact hq
          have hmem := List.mem_of_head? hl
          rintro (⟨rfl, _⟩ | h | h)
          · exact hlr a hmem a (Or.inl rfl) rfl
          · exact ihl hndl hl h
          · exact hlr q hmem q (Or.inr h.mem) rfl

/-! ## A balanced tree is shallow -/

theorem Balanced.height_le {t : ColorTree α} {c : Color} {n : Nat} (h : t.Balanced c n) :
    t.height ≤ 2 * n + (if c = .red then 1 else 0) := by
  induction h with
  | nil => simp [height]
  | red _ _ ihl ihr => simp [height] at *; omega
  | @black l r a c d n _ _ ihl ihr =>
      have h1 : (if c = Color.red then 1 else 0) ≤ 1 := by split <;> omega
      have h2 : (if d = Color.red then 1 else 0) ≤ 1 := by split <;> omega
      simp only [height]
      simp
      omega

theorem Balanced.two_pow_le_size {t : ColorTree α} {c : Color} {n : Nat} (h : t.Balanced c n) :
    2 ^ n ≤ t.size + 1 := by
  induction h with
  | nil => simp
  | red _ _ ihl ihr => simp only [size]; omega
  | black _ _ ihl ihr => simp only [size, pow_succ]; omega

/-- **The height of a red-black tree is at most twice the logarithm of its size.** -/
theorem Balanced.height_le_log {t : ColorTree α} {n : Nat} (h : t.Balanced .black n) :
    t.height ≤ 2 * Nat.log 2 (t.size + 1) := by
  have h1 : t.height ≤ 2 * n := by simpa using h.height_le
  have h2 : n ≤ Nat.log 2 (t.size + 1) :=
    Nat.le_log_of_pow_le (by omega) h.two_pow_le_size
  omega

end ColorTree

/-! ## Trails -/

/--
One step of a trail: the parent of the hole, its colour, and its other subtree.
The constructor says on which side the hole is.
-/
inductive Frame (α : Type) where
  | left (c : Color) (a : α) (r : ColorTree α)
  | right (c : Color) (l : ColorTree α) (a : α)
  deriving DecidableEq, Repr

/-- The way from a hole up to the root, innermost step first. -/
abbrev Trail (α : Type) := List (Frame α)

namespace Frame

/-- The label of the parent. -/
def label : Frame α → α
  | left _ a _ => a
  | right _ _ a => a

/-- The colour of the parent. -/
def color : Frame α → Color
  | left c _ _ => c
  | right c _ _ => c

/-- Plug the hole of one frame. -/
def attach : Frame α → ColorTree α → ColorTree α
  | left c a r, t => .node c t a r
  | right c l a, t => .node c l a t

/-- What stands to the left of the hole. -/
def before : Frame α → List α
  | left _ _ _ => []
  | right _ l a => l.toList ++ [a]

/-- What stands to the right of the hole. -/
def after : Frame α → List α
  | left _ a r => a :: r.toList
  | right _ _ _ => []

@[simp] theorem label_left (c : Color) (a : α) (r : ColorTree α) : (left c a r).label = a := rfl
@[simp] theorem label_right (c : Color) (l : ColorTree α) (a : α) : (right c l a).label = a := rfl
@[simp] theorem color_left (c : Color) (a : α) (r : ColorTree α) : (left c a r).color = c := rfl
@[simp] theorem color_right (c : Color) (l : ColorTree α) (a : α) : (right c l a).color = c := rfl

@[simp] theorem attach_left (c : Color) (a : α) (r t : ColorTree α) :
    (left c a r).attach t = .node c t a r := rfl

@[simp] theorem attach_right (c : Color) (l : ColorTree α) (a : α) (t : ColorTree α) :
    (right c l a).attach t = .node c l a t := rfl

@[simp] theorem before_left (c : Color) (a : α) (r : ColorTree α) : (left c a r).before = [] := rfl
@[simp] theorem before_right (c : Color) (l : ColorTree α) (a : α) :
    (right c l a).before = l.toList ++ [a] := rfl
@[simp] theorem after_left (c : Color) (a : α) (r : ColorTree α) :
    (left c a r).after = a :: r.toList := rfl
@[simp] theorem after_right (c : Color) (l : ColorTree α) (a : α) : (right c l a).after = [] := rfl

/-- The other subtree of the parent. -/
def sibling : Frame α → ColorTree α
  | left _ _ r => r
  | right _ l _ => l

/-- Repaint the parent. -/
def recolor (d : Color) : Frame α → Frame α
  | left _ a r => left d a r
  | right _ l a => right d l a

/-- Repaint the sibling. -/
def paintSibling (d : Color) : Frame α → Frame α
  | left c a r => left c a (r.paint d)
  | right c l a => right c (l.paint d) a

@[simp] theorem label_recolor (d : Color) (f : Frame α) : (f.recolor d).label = f.label := by
  cases f <;> rfl

@[simp] theorem label_paintSibling (d : Color) (f : Frame α) :
    (f.paintSibling d).label = f.label := by
  cases f <;> rfl

theorem toList_attach (f : Frame α) (t : ColorTree α) :
    (f.attach t).toList = f.before ++ t.toList ++ f.after := by
  cases f <;> simp

end Frame

namespace Trail

/-- Plug the hole at the bottom of a trail. -/
def fill : Trail α → ColorTree α → ColorTree α
  | [], t => t
  | f :: up, t => fill up (f.attach t)

/-- What stands to the left of the hole. -/
def before : Trail α → List α
  | [] => []
  | f :: up => before up ++ f.before

/-- What stands to the right of the hole. -/
def after : Trail α → List α
  | [] => []
  | f :: up => f.after ++ after up

@[simp] theorem fill_nil (t : ColorTree α) : fill [] t = t := rfl

@[simp] theorem fill_cons (f : Frame α) (up : Trail α) (t : ColorTree α) :
    fill (f :: up) t = fill up (f.attach t) := rfl

@[simp] theorem before_nil : before ([] : Trail α) = [] := rfl
@[simp] theorem after_nil : after ([] : Trail α) = [] := rfl

@[simp] theorem before_cons (f : Frame α) (up : Trail α) :
    before (f :: up) = before up ++ f.before := rfl

@[simp] theorem after_cons (f : Frame α) (up : Trail α) :
    after (f :: up) = f.after ++ after up := rfl

/-- Plugging a hole puts the subtree's labels between those of the trail. -/
theorem toList_fill (up : Trail α) (t : ColorTree α) :
    (fill up t).toList = before up ++ t.toList ++ after up := by
  induction up generalizing t with
  | nil => simp
  | cons f up ih => simp [ih, Frame.toList_attach]

theorem mem_fill {up : Trail α} {t : ColorTree α} {a : α} :
    a ∈ (fill up t).toList ↔ a ∈ before up ∨ a ∈ t.toList ∨ a ∈ after up := by
  simp [toList_fill]

/-- A label of a subtree is the root of a subtree. -/
theorem exists_fill {t : ColorTree α} {a : α} (h : a ∈ t.toList) (up : Trail α) :
    ∃ up' c l r, fill up t = fill up' (.node c l a r) := by
  induction t generalizing up with
  | nil => simp at h
  | node c l b r ihl ihr =>
      simp only [ColorTree.toList_node, List.mem_append, List.mem_cons] at h
      rcases h with h | rfl | h
      · exact ihl h (.left c b r :: up)
      · exact ⟨up, c, l, r, rfl⟩
      · exact ihr h (.right c l b :: up)

/-- A hole is no deeper than what is plugged into it leaves room for. -/
theorem length_add_height_le (up : Trail α) (t : ColorTree α) :
    up.length + t.height ≤ (fill up t).height := by
  induction up generalizing t with
  | nil => simp
  | cons f up ih =>
      have h := ih (f.attach t)
      have : t.height + 1 ≤ (f.attach t).height := by
        cases f <;> simp only [Frame.attach, ColorTree.height] <;> omega
      simp only [List.length_cons, fill_cons]
      omega

/-- Every step of a trail has a label. -/
theorem length_le (up : Trail α) (t : ColorTree α) : up.length ≤ (fill up t).toList.length := by
  induction up generalizing t with
  | nil => simp
  | cons f up ih =>
      have h1 : up.length ≤ (before up).length + (after up).length := by
        simpa [toList_fill] using ih .nil
      have h2 : 1 ≤ f.before.length + f.after.length := by cases f <;> simp
      simp only [toList_fill, before_cons, after_cons, List.length_append, List.length_cons]
      omega

theorem hasLeft_fill {t : ColorTree α} {q : α} (up : Trail α) (h : t.HasLeft q) :
    (fill up t).HasLeft q := by
  induction up generalizing t with
  | nil => exact h
  | cons f up ih => exact ih (by cases f <;> simp [h])

/--
`up.Balanced c n`: plugging a subtree with root colour `c` and `n` black nodes on
every way down gives a red-black tree with a black root.
-/
inductive Balanced : Trail α → Color → Nat → Prop where
  | root {n : Nat} : Balanced [] .black n
  | redLeft {up : Trail α} {a : α} {r : ColorTree α} {n : Nat} :
      r.Balanced .black n → Balanced up .red n → Balanced (.left .red a r :: up) .black n
  | redRight {up : Trail α} {a : α} {l : ColorTree α} {n : Nat} :
      l.Balanced .black n → Balanced up .red n → Balanced (.right .red l a :: up) .black n
  | blackLeft {up : Trail α} {a : α} {r : ColorTree α} {c d : Color} {n : Nat} :
      r.Balanced d n → Balanced up .black (n + 1) → Balanced (.left .black a r :: up) c n
  | blackRight {up : Trail α} {a : α} {l : ColorTree α} {c d : Color} {n : Nat} :
      l.Balanced d n → Balanced up .black (n + 1) → Balanced (.right .black l a :: up) c n

/-- **What a balanced trail promises.** -/
theorem Balanced.fill {up : Trail α} {t : ColorTree α} {c : Color} {n : Nat}
    (hu : Balanced up c n) (ht : t.Balanced c n) : ∃ m, (Trail.fill up t).Balanced .black m := by
  induction hu generalizing t with
  | root => exact ⟨_, ht⟩
  | redLeft hr _ ih => exact ih (.red ht hr)
  | redRight hl _ ih => exact ih (.red hl ht)
  | blackLeft hr _ ih => exact ih (.black ht hr)
  | blackRight hl _ ih => exact ih (.black hl ht)

/-- A hole that takes a red subtree takes a black one of the same height. -/
theorem Balanced.black_of_any {up : Trail α} {c : Color} {n : Nat}
    (h : Balanced up c n) : Balanced up .black n := by
  cases h with
  | root => exact .root
  | redLeft hr hu => exact .redLeft hr hu
  | redRight hl hu => exact .redRight hl hu
  | blackLeft hr hu => exact .blackLeft hr hu
  | blackRight hl hu => exact .blackRight hl hu

/-- A trail that only ever went left. -/
def Leftmost (up : Trail α) : Prop := ∀ f ∈ up, ∃ c a r, f = Frame.left c a r

theorem Leftmost.nil : Leftmost ([] : Trail α) := by
  intro f hf; simp at hf

theorem Leftmost.cons {up : Trail α} {c : Color} {a : α} {r : ColorTree α}
    (h : Leftmost up) : Leftmost (.left c a r :: up) := by
  intro f hf
  rcases List.mem_cons.mp hf with rfl | hf
  · exact ⟨c, a, r, rfl⟩
  · exact h f hf

theorem Leftmost.tail {up : Trail α} {f : Frame α} (h : Leftmost (f :: up)) :
    Leftmost up := fun g hg => h g (by simp [hg])

theorem Leftmost.not_right {up : Trail α} {c : Color} {l : ColorTree α} {a : α} :
    ¬Leftmost (.right c l a :: up) := by
  intro h
  obtain ⟨_, _, _, e⟩ := h (.right c l a) (List.mem_cons_self ..)
  cases e

/-- Nothing stands to the left of the bottom of the spine. -/
theorem Leftmost.before {up : Trail α} (h : Leftmost up) : before up = [] := by
  induction up with
  | nil => rfl
  | cons f up ih =>
      obtain ⟨c, a, r, rfl⟩ := h f (by simp)
      simp [ih h.tail]

end Trail

end RedBlack
