import Xv6Cfs.Kernel.Integrity
import Xv6Cfs.Proof.QueueRuns

/-!
# Between two operations the links are whole

A memory whose links are those of a tree of slots has a tree of links, and the other way
round. So what was proved of the operations on trees says what the links are like after
any number of them. What no operation may forget is to clear the links of a slot that
leaves the tree, because no insertion does.
-/

namespace Xv6Cfs

open RedBlack Relation StableQueue

section

variable {m : Mem} {par : Option Slot} {t : ColorTree Slot} {p q r : Slot}

/-! ## From the tree to the links -/

theorem Matches.pParent (h : Matches m.proc par t) (hr : t.root? = some r) :
    (m.proc r).pParent = par := by
  cases t with
  | nil => simp at hr
  | node c l a r' =>
      obtain rfl : a = r := by simpa using hr
      exact h.2.2.2.1

theorem Matches.child (h : Matches m.proc par t) (hp : p ∈ t.toList) (hq : Child m p q) :
    q ∈ t.toList ∧ (m.proc q).pParent = some p := by
  induction t generalizing par with
  | nil => simp at hp
  | node c l a r ihl ihr =>
      obtain ⟨-, hl, hr, -, hml, hmr⟩ := h
      simp only [ColorTree.toList_node, List.mem_append, List.mem_cons] at hp ⊢
      rcases hp with hp | rfl | hp
      · exact (ihl hml hp).imp_left .inl
      · rcases hq with hq | hq
        · exact ⟨.inl (ColorTree.root?_mem (hl.symm.trans hq)), hml.pParent (hl.symm.trans hq)⟩
        · exact ⟨.inr (.inr (ColorTree.root?_mem (hr.symm.trans hq))),
            hmr.pParent (hr.symm.trans hq)⟩
      · exact (ihr hmr hp).imp_left fun h => .inr (.inr h)

theorem Matches.mem_of_reaches (h : Matches m.proc par t) (hp : p ∈ t.toList)
    (hq : ReflTransGen (Child m) p q) : q ∈ t.toList := by
  induction hq with
  | refl => exact hp
  | tail _ hc ih => exact (h.child ih hc).1

theorem Matches.reaches (h : Matches m.proc par t) (hr : t.root? = some r) (hp : p ∈ t.toList) :
    ReflTransGen (Child m) r p := by
  induction t generalizing par r with
  | nil => simp at hp
  | node c l a r' ihl ihr =>
      obtain rfl : a = r := by simpa using hr
      obtain ⟨-, hl, hright, -, hml, hmr⟩ := h
      simp only [ColorTree.toList_node, List.mem_append, List.mem_cons] at hp
      rcases hp with hp | rfl | hp
      · obtain ⟨b, hb⟩ := ColorTree.exists_root?_of_mem hp
        exact .head (.inl (hl.trans hb)) (ihl hml hb hp)
      · exact .refl
      · obtain ⟨b, hb⟩ := ColorTree.exists_root?_of_mem hp
        exact .head (.inr (hright.trans hb)) (ihr hmr hb hp)

theorem Matches.parent (h : Matches m.proc par t) (hnd : t.toList.Nodup) (hp : p ∈ t.toList)
    (hr : t.root? ≠ some p) : ∃ q ∈ t.toList, (m.proc p).pParent = some q ∧
      ((m.proc q).left = some p ∧ (m.proc q).right ≠ some p ∨
        (m.proc q).left ≠ some p ∧ (m.proc q).right = some p) := by
  induction t generalizing par with
  | nil => simp at hp
  | node c l a r' ihl ihr =>
      obtain ⟨-, hl, hright, -, hml, hmr⟩ := h
      simp only [ColorTree.toList_node, List.nodup_append, List.nodup_cons, List.mem_cons] at hnd
      obtain ⟨hndl, ⟨-, hndr⟩, hlr⟩ := hnd
      simp only [ColorTree.toList_node, List.mem_append, List.mem_cons] at hp ⊢
      rcases hp with hp | rfl | hp
      · by_cases hroot : l.root? = some p
        · refine ⟨a, .inr (.inl rfl), hml.pParent hroot, .inl ⟨hl.trans hroot, fun e => ?_⟩⟩
          exact hlr p hp p (.inr (ColorTree.root?_mem (hright.symm.trans e))) rfl
        · obtain ⟨q, hq, hrest⟩ := ihl hml hndl hp hroot
          exact ⟨q, .inl hq, hrest⟩
      · simp at hr
      · by_cases hroot : r'.root? = some p
        · refine ⟨a, .inr (.inl rfl), hmr.pParent hroot, .inr ⟨fun e => ?_, hright.trans hroot⟩⟩
          exact hlr p (ColorTree.root?_mem (hl.symm.trans e)) p (.inr hp) rfl
        · obtain ⟨q, hq, hrest⟩ := ihr hmr hndr hp hroot
          exact ⟨q, .inr (.inr hq), hrest⟩

theorem Matches.acyclic (h : Matches m.proc par t) (hnd : t.toList.Nodup) (hp : p ∈ t.toList) :
    ¬TransGen (Child m) p p := by
  induction t generalizing par with
  | nil => simp at hp
  | node c l a r' ihl ihr =>
      obtain ⟨-, hl, hright, -, hml, hmr⟩ := h
      simp only [ColorTree.toList_node, List.nodup_append, List.nodup_cons, List.mem_cons] at hnd
      obtain ⟨hndl, ⟨har, hndr⟩, hlr⟩ := hnd
      simp only [ColorTree.toList_node, List.mem_append, List.mem_cons] at hp
      rcases hp with hp | rfl | hp
      · exact ihl hml hndl hp
      · -- from the root the links lead into a subtree, and stay there
        intro hcycle
        obtain ⟨b, hb, hrest⟩ := TransGen.head'_iff.mp hcycle
        rcases hb with hb | hb
        · have := hml.mem_of_reaches (ColorTree.root?_mem (hl.symm.trans hb)) hrest
          exact hlr p this p (.inl rfl) rfl
        · exact har (hmr.mem_of_reaches (ColorTree.root?_mem (hright.symm.trans hb)) hrest)
      · exact ihr hmr hndr hp

theorem Denotes.linked_iff (h : Denotes m t) : Linked m p ↔ p ∈ t.toList := by
  constructor
  · rintro ⟨r, hr, hp⟩
    exact h.links.mem_of_reaches (ColorTree.root?_mem (h.root.symm.trans hr)) hp
  · intro hp
    obtain ⟨r, hr⟩ := ColorTree.exists_root?_of_mem hp
    exact ⟨r, h.root.trans hr, h.links.reaches hr hp⟩

theorem Denotes.linkTree (h : Denotes m t) : LinkTree m where
  root p hp := h.links.pParent (h.root.symm.trans hp)
  child p q hp hq := (h.links.child (h.linked_iff.mp hp) hq).2
  parent p hp hr := by
    rw [h.root] at hr
    obtain ⟨q, hq, hrest⟩ := h.links.parent h.nodup (h.linked_iff.mp hp) hr
    exact ⟨q, h.linked_iff.mpr hq, hrest⟩
  acyclic p hp := h.links.acyclic h.nodup (h.linked_iff.mp hp)
  inorder p := by rw [h.queue_eq, h.linked_iff]
  nodup := h.queue_eq ▸ h.nodup

/-! ## From the links to the tree -/

/-- The tree below a link. -/
def treeOf (m : Mem) : Nat → Option Slot → ColorTree Slot
  | 0, _ => .nil
  | _ + 1, none => .nil
  | fuel + 1, some p =>
      .node (m.proc p).color (treeOf m fuel (m.proc p).left) p (treeOf m fuel (m.proc p).right)

theorem toList_treeOf (m : Mem) (fuel : Nat) (link : Option Slot) :
    (treeOf m fuel link).toList = inorder m fuel link := by
  induction fuel generalizing link with
  | zero => rfl
  | succ fuel ih =>
      cases link with
      | none => rfl
      | some p => simp only [treeOf, inorder, ColorTree.toList_node, ih]

/-- With more fuel than there are slots that are no ancestors, the root is there. -/
theorem root?_treeOf {fuel : Nat} {above : List Slot} (hnd : above.Nodup)
    (hfuel : NPROC < fuel + above.length) (link : Option Slot) :
    (treeOf m fuel link).root? = link := by
  have := length_le_NPROC hnd
  obtain ⟨fuel, rfl⟩ : ∃ k, fuel = k + 1 := ⟨fuel - 1, by omega⟩
  cases link <;> rfl

/-- **The links of a tree of links are those of the tree**: no way down is longer than there are
slots, because it meets none twice. -/
theorem LinkTree.matches_treeOf (h : LinkTree m) {fuel : Nat} {above : List Slot}
    (hnd : above.Nodup) (hfuel : NPROC < fuel + above.length)
    {link : Option Slot} (hlink : ∀ p, link = some p → Linked m p ∧ (m.proc p).pParent = par ∧
      ∀ a ∈ above, TransGen (Child m) a p) : Matches m.proc par (treeOf m fuel link) := by
  induction fuel generalizing par above link with
  | zero => trivial
  | succ fuel ih =>
      cases link with
      | none => trivial
      | some p =>
          obtain ⟨hp, hpar, habove⟩ := hlink p rfl
          have hnd' : (p :: above).Nodup :=
            List.nodup_cons.mpr ⟨fun e => h.acyclic p hp (habove p e), hnd⟩
          have hfuel' : NPROC < fuel + (p :: above).length := by
            rw [List.length_cons]
            omega
          have hchild : ∀ q, Child m p q → Linked m q ∧ (m.proc q).pParent = some p ∧
              ∀ a ∈ p :: above, TransGen (Child m) a q := by
            intro q hq
            obtain ⟨r, hr, hrp⟩ := hp
            refine ⟨⟨r, hr, hrp.tail hq⟩, h.child p q ⟨r, hr, hrp⟩ hq, fun a ha => ?_⟩
            rcases List.mem_cons.mp ha with rfl | ha
            · exact .single hq
            · exact (habove a ha).tail hq
          exact ⟨rfl, (root?_treeOf hnd' hfuel' _).symm, (root?_treeOf hnd' hfuel' _).symm, hpar,
            ih hnd' hfuel' fun q hq => hchild q (.inl hq),
            ih hnd' hfuel' fun q hq => hchild q (.inr hq)⟩

theorem LinkTree.denotes (h : LinkTree m) : Denotes m (treeOf m loopFuel m.tree.root) where
  root := (root?_treeOf List.nodup_nil (by decide) _).symm
  links := h.matches_treeOf List.nodup_nil (by decide) fun p hp =>
    ⟨⟨p, hp, .refl⟩, h.root p hp, by simp⟩
  nodup := by
    rw [toList_treeOf]
    exact h.nodup

/-! ## The rotations -/

/-- **A rotation keeps the order and its neighbourhood.** -/
theorem LinkTree.rotations (h : LinkTree m) : Rotations m := by
  have hd := h.denotes
  generalize treeOf m loopFuel m.tree.root = t at hd
  constructor
  · intro a b ha hb
    obtain ⟨up, c, l, r, ht⟩ := Trail.exists_fill (hd.linked_iff.mp ha) []
    rw [Trail.fill_nil] at ht
    subst ht
    obtain ⟨-, -, hr, hpar, -, -⟩ := (matches_fill.mp hd.links).1
    rw [hb] at hr
    cases r with
    | nil => simp at hr
    | node d x b' y =>
        obtain rfl : b = b' := by simpa using hr
        have hmid := (matches_fill.mp hd.links).1.2.2.2.2.2.2.1
        obtain ⟨m', hrot, hm'⟩ := rotated_rotateLeft up hd
        obtain ⟨m'', hrot', hsh⟩ := reshaped_rotateLeft up hd
        obtain rfl : m' = m'' := Except.ok.inj (hrot.symm.trans hrot')
        refine ⟨m', hrot, hsh.denotes.linkTree, ?_, ?_, ?_, ?_, hm'.tree⟩
        · rw [hm'.high, hpar]
          rfl
        · rw [hm'.low]
          rfl
        · rw [hsh.denotes.queue_eq, hsh.toList, hd.queue_eq]
        · intro q hqa hqb hqm hqp
          exact hm'.rest q hqa hqb (fun e => hqm (hmid.trans e.symm))
            fun e => hqp (hpar.trans e.symm)
  · intro a b ha hb
    obtain ⟨up, c, l, r, ht⟩ := Trail.exists_fill (hd.linked_iff.mp ha) []
    rw [Trail.fill_nil] at ht
    subst ht
    obtain ⟨-, hl, -, hpar, -, -⟩ := (matches_fill.mp hd.links).1
    rw [hb] at hl
    cases l with
    | nil => simp at hl
    | node d x b' y =>
        obtain rfl : b = b' := by simpa using hl
        have hmid := (matches_fill.mp hd.links).1.2.2.2.2.1.2.2.1
        obtain ⟨m', hrot, hm'⟩ := rotated_rotateRight up hd
        obtain ⟨m'', hrot', hsh⟩ := reshaped_rotateRight up hd
        obtain rfl : m' = m'' := Except.ok.inj (hrot.symm.trans hrot')
        refine ⟨m', hrot, hsh.denotes.linkTree, ?_, ?_, ?_, ?_, hm'.tree⟩
        · rw [hm'.high, hpar]
          rfl
        · rw [hm'.low]
          rfl
        · rw [hsh.denotes.queue_eq, hsh.toList, hd.queue_eq]
        · intro q hqa hqb hqm hqp
          exact hm'.rest q hqa hqb (fun e => hqm (hmid.trans e.symm))
            fun e => hqp (hpar.trans e.symm)

/-! ## The insertion of a leaf -/

theorem Matches.leaf {key : Slot → Int} (hp : p ∉ t.toList)
    (h : Matches m.proc par (t.insertLeaf key p)) :
    (m.proc p).left = none ∧ (m.proc p).right = none := by
  induction t generalizing par with
  | nil => exact ⟨h.2.1, h.2.2.1⟩
  | node c l a r ihl ihr =>
      simp only [ColorTree.toList_node, List.mem_append, List.mem_cons, not_or] at hp
      rw [ColorTree.insertLeaf] at h
      split_ifs at h
      · exact ihr hp.2.2 h.2.2.2.2.2
      · exact ihl hp.1 h.2.2.2.2.1

theorem Denotes.attachesLeaf (h : Denotes m t) (hp : p ∉ t.toList) (hb : Bare (m.proc p)) :
    AttachesLeaf m p := by
  have hkey : ∀ q, (m.proc q).virtualRuntime = (fun q => (m.proc q).virtualRuntime) q :=
    fun _ => rfl
  obtain ⟨m', hrun, hatt⟩ := insertProc_spec none hkey h.links hp hb.left hb.right
    (fun _ => hb.pParent) h.nodup
    ((height_le_NPROC h.nodup).trans_lt (show NPROC < loopFuel by decide))
  rw [← h.root] at hrun
  have hd : Denotes (m'.setRoot (t.insertLeaf (fun q => (m.proc q).virtualRuntime) p).root?)
      (t.insertLeaf (fun q => (m.proc q).virtualRuntime) p) :=
    ⟨rfl, hatt.links, ColorTree.nodup_insertLeaf _ hp h.nodup⟩
  obtain ⟨hl, hr⟩ := hatt.links.leaf hp
  refine ⟨m', _, hrun, hd.linkTree, ?_, hl, hr, fun q => ?_⟩
  · rw [hd.linked_iff, ColorTree.mem_insertLeaf]
    exact .inl rfl
  · rw [hd.linked_iff, ColorTree.mem_insertLeaf, h.linked_iff]

end

/-! ## Runs -/

/-- A valid queue, and no links outside it. -/
structure CleanRep (m : Mem) (t : ColorTree Slot) : Prop where
  rep : QueueRep m t
  unlocked : m.tree.locked = false
  bare : ∀ p, p ∉ t.toList → Bare (m.proc p)

theorem bare_alloc (n : Int) (x : Proc) : Bare (x.alloc n) := ⟨rfl, rfl, rfl⟩

/-- **Every run keeps the queue and the slots outside it clean.** -/
theorem linkRun_clean {m : Mem} (h : LinkRun m) : ∃ t, CleanRep m t := by
  induction h with
  | procinit tree =>
      exact ⟨.nil, (queueRep_rbinit ⟨fun _ => Proc.zero, tree⟩).congr rfl (by simp), rfl,
        fun p _ => ⟨rfl, rfl, rfl⟩⟩
  | @allocproc m p n _ hp _ ih =>
      obtain ⟨t, ht⟩ := ih
      rw [ht.rep.queue_eq] at hp
      refine ⟨t, ht.rep.modify hp _, ht.unlocked, fun q hq => ?_⟩
      rw [Mem.modify_proc]
      split_ifs
      · exact bare_alloc n _
      · exact ht.bare q hq
  | @insertProcess m m' p w _ hp hstate hw hrun ih =>
      obtain ⟨t, ht⟩ := ih
      rw [ht.rep.queue_eq] at hp
      have hb := ht.bare p hp
      obtain ⟨m'', t', hrun', hins⟩ := insertProcess_spec (fun _ => .ok w) ht.rep ht.unlocked
        ⟨hp, hstate, hb.left, hb.right⟩ rfl hw
      obtain rfl : m' = m'' := Except.ok.inj (hrun.symm.trans hrun')
      refine ⟨t', hins.rep, hins.locked.trans ht.unlocked, fun q hq => ?_⟩
      rw [hins.outside q hq]
      refine ht.bare q fun e => hq ?_
      rw [hins.toList, mem_insertBy]
      exact .inr e
  | @retrieveProcess m m' r _ hrun ih =>
      obtain ⟨t, ht⟩ := ih
      cases hhead : t.toList.head? with
      | none =>
          have := retrieveProcess_empty ht.rep ht.unlocked (List.head?_eq_none_iff.mp hhead)
          obtain ⟨rfl, -⟩ := Prod.mk.inj (Except.ok.inj (this.symm.trans hrun))
          exact ⟨t, ht⟩
      | some p =>
          obtain ⟨m'', t', hrun', hret⟩ := retrieveProcess_spec ht.rep ht.unlocked hhead
          obtain ⟨rfl, -⟩ := Prod.mk.inj (Except.ok.inj (hrun'.symm.trans hrun))
          refine ⟨t', hret.rep, hret.locked.trans ht.unlocked, fun q hq => ?_⟩
          by_cases hqp : q = p
          · subst hqp
            exact ⟨hret.left, hret.right, hret.pParent⟩
          · have hqt : q ∉ t.toList := by
              rw [hret.toList, List.mem_cons, not_or]
              exact ⟨hqp, hq⟩
            rw [hret.outside q hqt]
            exact ht.bare q hqt
  | @others m m' _ htree hlinks hproc ih =>
      obtain ⟨t, ht⟩ := ih
      rw [ht.rep.queue_eq] at hproc
      refine ⟨t, ht.rep.congr (by rw [htree]) hproc, by rw [htree, ht.unlocked], fun q hq => ?_⟩
      obtain ⟨-, hl, hr, hpar⟩ := hlinks q
      have hb := ht.bare q hq
      exact ⟨hl.trans hb.left, hr.trans hb.right, hpar.trans hb.pParent⟩

/-- **The links stay whole.** Between any two operations they make one tree, every slot outside
it is bare, and the next insertion attaches a leaf. Rotations keep the order of the slots of any
tree of links, and write to their neighbourhood only. -/
theorem linkIntegrity {m : Mem} (h : LinkRun m) :
    LinkIntegrity m ∧ ∀ m', LinkTree m' → Rotations m' := by
  obtain ⟨t, ht⟩ := linkRun_clean h
  have hd := ht.rep.denotes
  refine ⟨⟨hd.linkTree, fun p hp => ht.bare p (mt hd.linked_iff.mpr hp), fun p hp => ?_⟩,
    fun m' hm' => hm'.rotations⟩
  exact hd.attachesLeaf (mt hd.linked_iff.mpr hp) (ht.bare p (mt hd.linked_iff.mpr hp))

/-- The table after `procinit`. -/
def freshTable : Mem := procinit ⟨fun _ => Proc.zero, (rbinit readyTable).tree⟩

/-- The slot is allocated, made runnable and inserted, if that can be done. -/
def allocated (m : Mem) (p : Slot) : Option Mem :=
  let m₁ := m.modify p (Proc.alloc 1)
  let m₂ := m₁.modify p Write.ready.apply
  if (queue m ++ queue m₁ ++ queue m₂).all (· ≠ p) ∧ (m.proc p).state = .unused then
    (insertProcess (fun _ => .ok 819) m₂ p).toOption
  else none

theorem linkRun_allocated {m m' : Mem} {p : Slot} (h : LinkRun m) (hs : allocated m p = some m') :
    LinkRun m' := by
  simp only [allocated] at hs
  split_ifs at hs with hp
  obtain ⟨hall, hunused⟩ := hp
  have hnot : ∀ q ∈ queue m ++ queue (m.modify p (Proc.alloc 1)) ++
      queue ((m.modify p (Proc.alloc 1)).modify p Write.ready.apply), q ≠ p := fun q hq =>
    of_decide_eq_true (List.all_eq_true.mp hall q hq)
  simp only [List.mem_append] at hnot
  have hp₀ : p ∉ queue m := fun e => hnot p (.inl (.inl e)) rfl
  have hp₁ : p ∉ queue (m.modify p (Proc.alloc 1)) := fun e => hnot p (.inl (.inr e)) rfl
  have hp₂ := fun e => hnot p (.inr e) rfl
  have hready : LinkRun ((m.modify p (Proc.alloc 1)).modify p Write.ready.apply) := by
    refine .others (.allocproc 1 h hp₀ hunused) rfl (fun q => ?_) fun q hq => ?_
    · rw [Mem.modify_proc _ p q Write.ready.apply]
      split_ifs with hqp
      · rw [hqp]
        exact ⟨rfl, rfl, rfl, rfl⟩
      · exact ⟨rfl, rfl, rfl, rfl⟩
    · rw [Mem.modify_ne _ _ fun e : q = p => hp₁ (e ▸ hq)]
      exact .refl _
  cases hrun : insertProcess (fun _ => .ok 819)
      ((m.modify p (Proc.alloc 1)).modify p Write.ready.apply) p with
  | error e =>
      rw [hrun] at hs
      cases hs
  | ok m₃ =>
      rw [hrun] at hs
      obtain rfl := Option.some.inj hs
      exact .insertProcess hready hp₂ (by rw [Mem.modify_self]; rfl) (by decide) hrun

theorem linkRun_foldlM_allocated {m m' : Mem} {ps : List Slot} (h : LinkRun m)
    (hs : ps.foldlM allocated m = some m') : LinkRun m' := by
  induction ps generalizing m with
  | nil => exact Option.some.inj hs ▸ h
  | cons p ps ih =>
      rw [List.foldlM_cons] at hs
      obtain ⟨m₁, hm₁, hrest⟩ := Option.bind_eq_some_iff.mp hs
      exact ih (linkRun_allocated h hm₁) hrest

/-- Three slots, each inserted as soon as it is allocated. -/
def threeSlots : Option Mem := [3, 1, 2].foldlM allocated freshTable

theorem threeSlots_isSome : threeSlots.isSome := by decide +kernel

/-- The third insertion rotates slot 1 to the root. -/
theorem linkIntegrity_three : ∃ m, (queue m = [3, 1, 2] ∧ m.tree.root = some 1) ∧
    LinkIntegrity m ∧ ∀ m', LinkTree m' → Rotations m' :=
  ⟨threeSlots.get threeSlots_isSome, by decide +kernel,
    linkIntegrity (linkRun_foldlM_allocated (.procinit _) (Option.some_get threeSlots_isSome).symm)⟩

end Xv6Cfs
