import Xv6Cfs.Kernel.QueueRuns
import Xv6Cfs.Proof.InsertProc
import Xv6Cfs.Proof.RetrieveProc

/-!
# The run queue over whole runs

`QueueRep` holds in every memory a run reaches, and the list of its tree is the
abstract queue that the recorded calls lead to.
-/

namespace Xv6Cfs

open RedBlack StableQueue

/-! ## The calls with their lock -/

theorem QueueRep.setLocked {m : Mem} {t : ColorTree Slot} (h : QueueRep m t) (b : Bool) :
    QueueRep (m.setLocked b) t :=
  h.congr rfl fun _ _ => .refl _

theorem Inserted.setLocked {m m' : Mem} {t t' : ColorTree Slot} {p : Slot} {w : Int}
    (h : Inserted (m.setLocked true) t p w m' t') (hm : m.tree.locked = false) :
    Inserted m t p w (m'.setLocked false) t' where
  rep := h.rep.setLocked false
  toList := h.toList
  outside := h.outside
  unlinked := h.unlinked
  inserted := h.inserted
  period := h.period
  locked := hm.symm

theorem Retrieved.setLocked {m m' : Mem} {t t' : ColorTree Slot} {p : Slot}
    (h : Retrieved (m.setLocked true) t p m' t') (hm : m.tree.locked = false) :
    Retrieved m t p (m'.setLocked false) t' where
  rep := h.rep.setLocked false
  toList := h.toList
  outside := h.outside
  unlinked := h.unlinked
  retrieved := h.retrieved
  left := h.left
  right := h.right
  pParent := h.pParent
  period := h.period
  locked := hm.symm

/-- **`insertProcess` inserts, and gives the lock back.** -/
theorem insertProcess_spec (wight : Int → Except Fault Int) {m : Mem} {t : ColorTree Slot}
    {p : Slot} {w : Int} (h : QueueRep m t) (hm : m.tree.locked = false)
    (hp : Insertable m t.toList p) (hw : wight (m.proc p).niceVal = .ok w) (hpos : 0 < w) :
    ∃ m' t', insertProcess wight m p = .ok m' ∧ Inserted m t p w m' t' := by
  obtain ⟨m', t', hrun, hins⟩ := insertProcessLocked_spec (m := m.setLocked true)
    (h.setLocked true) hp.notQueued hp.left hp.right hp.runnable hw hpos
  refine ⟨m'.setLocked false, t', ?_, hins.setLocked hm⟩
  simp [insertProcess, acquireTree, hm, hrun, releaseTree]

theorem retrieveProcess_empty {m : Mem} {t : ColorTree Slot} (h : QueueRep m t)
    (hm : m.tree.locked = false) (ht : t.toList = []) : retrieveProcess m = .ok (m, none) := by
  simp [retrieveProcess, acquireTree, hm, retrieveProcessLocked_empty (h.setLocked true) ht,
    releaseTree, Mem.setLocked_setLocked_self hm]

/-- **`retrieveProcess` retrieves, and gives the lock back.** -/
theorem retrieveProcess_spec {m : Mem} {t : ColorTree Slot} {p : Slot} (h : QueueRep m t)
    (hm : m.tree.locked = false) (hp : t.toList.head? = some p) :
    ∃ m' t', retrieveProcess m = .ok (m', some p) ∧ Retrieved m t p m' t' := by
  obtain ⟨m', t', hrun, hret⟩ := retrieveProcessLocked_spec (h.setLocked true) hp
  refine ⟨m'.setLocked false, t', ?_, hret.setLocked hm⟩
  simp [retrieveProcess, acquireTree, hm, hrun, releaseTree]

/-! ## The invariant of a run -/

/-- The entries of a queue: its processes under their keys. -/
def entries (m : Mem) (t : ColorTree Slot) : List (Int × Slot) :=
  t.toList.map fun p => ((m.proc p).virtualRuntime, p)

@[simp] theorem entries_snd (m : Mem) (t : ColorTree Slot) :
    (entries m t).map Prod.snd = t.toList := by
  simp [entries, Function.comp_def]

theorem entries_congr {m m' : Mem} {t : ColorTree Slot}
    (h : ∀ p ∈ t.toList, (m'.proc p).virtualRuntime = (m.proc p).virtualRuntime) :
    entries m' t = entries m t :=
  List.map_congr_left fun p hp => by rw [h p hp]

/-- The memory holds a queue, and the calls lead an abstract queue to the same entries. -/
structure RunInv (m : Mem) (calls : List (Call Int Slot)) (t : ColorTree Slot) : Prop where
  rep : QueueRep m t
  unlocked : m.tree.locked = false
  replay : replay [] calls = some (entries m t)

theorem RunInv.pending_perm {m : Mem} {calls : List (Call Int Slot)} {t : ColorTree Slot}
    (h : RunInv m calls t) : t.toList.Perm (pending calls) := by
  simpa using perm_pending h.replay

/-- Insertion changes no field but links, colours and the weight. -/
theorem Inserted.field {β : Type} {m m' : Mem} {t t' : ColorTree Slot} {p : Slot} {w : Int}
    (h : Inserted m t p w m' t') (f : Proc → β) (hlinks : ∀ x, f x.unlinked = f x)
    (hweight : ∀ x v, f (x.setWeightVal v) = f x) (q : Slot) : f (m'.proc q) = f (m.proc q) := by
  by_cases hq : q = p
  · rw [hq, ← hlinks, h.inserted, hweight, hlinks]
  · rw [← hlinks, h.unlinked q hq, hlinks]

/-- Retrieval changes no field but links, colours and the slice. -/
theorem Retrieved.field {β : Type} {m m' : Mem} {t t' : ColorTree Slot} {p : Slot}
    (h : Retrieved m t p m' t') (f : Proc → β) (hlinks : ∀ x, f x.unlinked = f x)
    (hslice : ∀ x v, f (x.setMaxExecutionTime v) = f x) (q : Slot) :
    f (m'.proc q) = f (m.proc q) := by
  by_cases hq : q = p
  · rw [hq, ← hlinks, h.retrieved, hslice, hlinks]
  · rw [← hlinks, h.unlinked q hq, hlinks]

theorem Inserted.virtualRuntime {m m' : Mem} {t t' : ColorTree Slot} {p : Slot} {w : Int}
    (h : Inserted m t p w m' t') (q : Slot) :
    (m'.proc q).virtualRuntime = (m.proc q).virtualRuntime :=
  h.field Proc.virtualRuntime (fun _ => rfl) (fun _ _ => rfl) q

theorem Inserted.currentRuntime {m m' : Mem} {t t' : ColorTree Slot} {p : Slot} {w : Int}
    (h : Inserted m t p w m' t') (q : Slot) :
    (m'.proc q).currentRuntime = (m.proc q).currentRuntime :=
  h.field Proc.currentRuntime (fun _ => rfl) (fun _ _ => rfl) q

theorem Inserted.weightVal {m m' : Mem} {t t' : ColorTree Slot} {p : Slot} {w : Int}
    (h : Inserted m t p w m' t') (q : Slot) :
    (m'.proc q).weightVal = if q = p then w else (m.proc q).weightVal := by
  split
  · rename_i hq
    subst hq
    simpa using congrArg Proc.weightVal h.inserted
  · rename_i hq
    simpa using congrArg Proc.weightVal (h.unlinked q hq)

theorem Retrieved.virtualRuntime {m m' : Mem} {t t' : ColorTree Slot} {p : Slot}
    (h : Retrieved m t p m' t') (q : Slot) :
    (m'.proc q).virtualRuntime = (m.proc q).virtualRuntime :=
  h.field Proc.virtualRuntime (fun _ => rfl) (fun _ _ => rfl) q

theorem Retrieved.currentRuntime {m m' : Mem} {t t' : ColorTree Slot} {p : Slot}
    (h : Retrieved m t p m' t') (q : Slot) :
    (m'.proc q).currentRuntime = (m.proc q).currentRuntime :=
  h.field Proc.currentRuntime (fun _ => rfl) (fun _ _ => rfl) q

theorem Retrieved.weightVal {m m' : Mem} {t t' : ColorTree Slot} {p : Slot}
    (h : Retrieved m t p m' t') (q : Slot) :
    (m'.proc q).weightVal = (m.proc q).weightVal :=
  h.field Proc.weightVal (fun _ => rfl) (fun _ _ => rfl) q

/-- The slice of the retrieved process. -/
theorem Retrieved.slice {m m' : Mem} {t t' : ColorTree Slot} {p : Slot}
    (h : Retrieved m t p m' t') : (m'.proc p).maxExecutionTime =
      (nextPeriod m.tree.count m.tree.period * (m.proc p).weightVal).tdiv m.tree.treeWeight := by
  simpa using congrArg Proc.maxExecutionTime h.retrieved

theorem runInv_init (m : Mem) : RunInv (rbinit m) [] .nil := ⟨queueRep_rbinit m, rfl, rfl⟩

theorem RunInv.insert {m m' : Mem} {calls : List (Call Int Slot)} {t t' : ColorTree Slot}
    {p : Slot} {w : Int} (h : RunInv m calls t) (hi : Inserted m t p w m' t') :
    RunInv m' (calls ++ [.insert (m.proc p).virtualRuntime p]) t' := by
  refine ⟨hi.rep, hi.locked.trans h.unlocked, ?_⟩
  rw [replay_append, h.replay, entries_congr fun q _ => hi.virtualRuntime q]
  simp only [entries, hi.toList]
  exact congrArg some (push_map (fun q => (m.proc q).virtualRuntime) p t.toList)

theorem RunInv.retrieve {m m' : Mem} {calls : List (Call Int Slot)} {t t' : ColorTree Slot}
    {p : Slot} (h : RunInv m calls t) (hr : Retrieved m t p m' t') :
    RunInv m' (calls ++ [.retrieve (some p)]) t' := by
  refine ⟨hr.rep, hr.locked.trans h.unlocked, ?_⟩
  rw [replay_append, h.replay, entries_congr fun q _ => hr.virtualRuntime q]
  simp [entries, hr.toList, Call.run, pop]

theorem RunInv.retrieve_none {m : Mem} {calls : List (Call Int Slot)} {t : ColorTree Slot}
    (h : RunInv m calls t) (ht : t.toList = []) : RunInv m (calls ++ [.retrieve none]) t := by
  refine ⟨h.rep, h.unlocked, ?_⟩
  rw [replay_append, h.replay]
  simp [entries, ht, Call.run]

theorem RunInv.others {m m' : Mem} {calls : List (Call Int Slot)} {t : ColorTree Slot}
    (h : RunInv m calls t) (htree : m'.tree = m.tree)
    (hproc : ∀ p ∈ t.toList, SameQueued (m'.proc p) (m.proc p)) : RunInv m' calls t := by
  refine ⟨h.rep.congr (by rw [htree]) hproc, by rw [htree, h.unlocked], ?_⟩
  rw [h.replay, entries_congr fun p hp => (hproc p hp).virtualRuntime]

/-- What a retrieval from a run's memory comes to. -/
theorem RunInv.retrieve_cases {m m' : Mem} {calls : List (Call Int Slot)} {t : ColorTree Slot}
    {r : Option Slot} (h : RunInv m calls t) (hr : retrieveProcess m = .ok (m', r)) :
    (t.toList = [] ∧ r = none ∧ m' = m) ∨
      ∃ p t', t.toList.head? = some p ∧ r = some p ∧ Retrieved m t p m' t' := by
  cases hp : t.toList.head? with
  | none =>
      have ht : t.toList = [] := List.head?_eq_none_iff.mp hp
      rw [retrieveProcess_empty h.rep h.unlocked ht] at hr
      simp only [Except.ok.injEq, Prod.mk.injEq] at hr
      exact .inl ⟨ht, hr.2.symm, hr.1.symm⟩
  | some p =>
      obtain ⟨m'', t', hrun, hret⟩ := retrieveProcess_spec h.rep h.unlocked hp
      rw [hrun] at hr
      simp only [Except.ok.injEq, Prod.mk.injEq] at hr
      obtain ⟨rfl, rfl⟩ := hr
      exact .inr ⟨p, t', rfl, rfl, hret⟩

/-- An insertion allowed by the calls made so far is allowed by the tree. -/
theorem RunInv.insertable {m : Mem} {calls : List (Call Int Slot)} {t : ColorTree Slot} {p : Slot}
    (h : RunInv m calls t) (hp : Insertable m (pending calls) p) : Insertable m t.toList p :=
  ⟨fun e => hp.notQueued (h.pending_perm.mem_iff.mp e), hp.runnable, hp.left, hp.right⟩

/-- **Every run keeps the queue.** -/
theorem queueRun_inv {m : Mem} {calls : List (Call Int Slot)} (h : QueueRun m calls) :
    ∃ t, RunInv m calls t := by
  induction h with
  | init m => exact ⟨.nil, runInv_init m⟩
  | insert _ hp hw hrun ih =>
      obtain ⟨t, ht⟩ := ih
      obtain ⟨m'', t', hrun', hins⟩ := insertProcess_spec (fun _ => .ok _) ht.rep ht.unlocked
        (ht.insertable hp) rfl hw
      rw [hrun', Except.ok.injEq] at hrun
      subst hrun
      exact ⟨t', ht.insert hins⟩
  | retrieve _ hrun ih =>
      obtain ⟨t, ht⟩ := ih
      obtain ⟨hnil, rfl, rfl⟩ | ⟨p, t', hp, rfl, hret⟩ := ht.retrieve_cases hrun
      · exact ⟨t, ht.retrieve_none hnil⟩
      · exact ⟨t', ht.retrieve hret⟩
  | others _ htree hproc ih =>
      obtain ⟨t, ht⟩ := ih
      exact ⟨t, ht.others htree fun p hp => hproc p (ht.pending_perm.mem_iff.mp hp)⟩

/-! ## The stable priority queue -/

theorem inorder_eq {m : Mem} {par : Option Slot} {t : ColorTree Slot} {fuel : Nat}
    (h : Matches m.proc par t) (hfuel : t.height < fuel) : inorder m fuel t.root? = t.toList := by
  induction t generalizing par fuel with
  | nil =>
      obtain ⟨fuel, rfl⟩ : ∃ k, fuel = k + 1 := ⟨fuel - 1, by omega⟩
      rfl
  | node c l a r ihl ihr =>
      obtain ⟨fuel, rfl⟩ : ∃ k, fuel = k + 1 := ⟨fuel - 1, by omega⟩
      obtain ⟨_, hl, hr, _, hml, hmr⟩ := h
      simp only [ColorTree.height] at hfuel
      rw [ColorTree.root?_node, inorder, hl, hr, ihl hml (by omega), ihr hmr (by omega),
        ColorTree.toList_node]

theorem Denotes.queue_eq {m : Mem} {t : ColorTree Slot} (h : Denotes m t) :
    queue m = t.toList := by
  rw [queue, h.root]
  exact inorder_eq h.links ((height_le_NPROC h.nodup).trans_lt (by decide))

theorem QueueRep.queue_eq {m : Mem} {t : ColorTree Slot} (h : QueueRep m t) :
    queue m = t.toList :=
  h.denotes.queue_eq

theorem QueueRep.queuedWeight_eq {m : Mem} {t : ColorTree Slot} (h : QueueRep m t) :
    queuedWeight m = m.tree.treeWeight := by
  rw [queuedWeight, h.queue_eq, h.treeWeight]

/--
**The run queue is a stable priority queue.** The calls of a run, with the
answers they got, are calls on an abstract queue; the links hold its processes in
its order, and these are the processes inserted and not retrieved since, each
once. No call that is allowed fails, and the next retrieval answers what the
abstract queue answers.
-/
theorem queueRun_refines {m : Mem} {calls : List (Call Int Slot)} (h : QueueRun m calls) :
    ∃ q, replay [] calls = some q ∧ queue m = q.map Prod.snd ∧
      (queue m).Perm (pending calls) ∧ (queue m).Nodup ∧
      (∀ p w, Insertable m (pending calls) p → 0 < w →
        ∃ m', insertProcess (fun _ => .ok w) m p = .ok m') ∧
      ∃ m', retrieveProcess m = .ok (m', q.head?.map Prod.snd) := by
  obtain ⟨t, ht⟩ := queueRun_inv h
  refine ⟨entries m t, ht.replay, ?_, ?_, ?_, ?_, ?_⟩
  · rw [entries_snd, ht.rep.queue_eq]
  · rw [ht.rep.queue_eq]
    exact ht.pending_perm
  · rw [ht.rep.queue_eq]
    exact ht.rep.denotes.nodup
  · intro p w hp hw
    obtain ⟨m', t', hrun, -⟩ := insertProcess_spec (fun _ => .ok w) ht.rep ht.unlocked
      (ht.insertable hp) rfl hw
    exact ⟨m', hrun⟩
  · rw [← List.head?_map, entries_snd]
    cases hp : t.toList.head? with
    | none => exact ⟨m, retrieveProcess_empty ht.rep ht.unlocked (List.head?_eq_none_iff.mp hp)⟩
    | some p =>
        obtain ⟨m', _, hrun, -⟩ := retrieveProcess_spec ht.rep ht.unlocked hp
        exact ⟨m', hrun⟩

/-- A table of runnable processes, none of them queued. -/
def readyTable : Mem where
  proc := fun _ => { Proc.zero with state := .runnable }
  tree := { count := 0, treeWeight := 0, root := none, minvRuntime := none, locked := false,
            period := 0 }

/-- Three insertions under one key, and a retrieval. -/
def firstComeCalls : List (Call Int Slot) :=
  [.insert 0 0, .insert 0 1, .insert 0 2, .retrieve (some 0)]

theorem firstCome_run : ∃ m, QueueRun m firstComeCalls := by
  have h : (([.insert 0 819, .insert 1 819, .insert 2 819, .retrieve] : List Request).foldlM perform
      (rbinit readyTable, [])).map Prod.snd = some firstComeCalls := by decide +kernel
  obtain ⟨s, hs, hcalls⟩ := Option.map_eq_some_iff.mp h
  exact ⟨s.1, hcalls ▸ queueRun_perform (.init readyTable) hs⟩

/-- After these calls the queue is what came second and third, and the second is next. -/
theorem queueRun_refines_firstCome : ∃ m, QueueRun m firstComeCalls ∧ queue m = [1, 2] ∧
    ∃ m', retrieveProcess m = .ok (m', some 1) := by
  obtain ⟨m, h⟩ := firstCome_run
  obtain ⟨q, hq, hqueue, -, -, -, m', hret⟩ := queueRun_refines h
  obtain rfl : [(0, 1), (0, 2)] = q := Option.some.inj hq
  exact ⟨m, h, hqueue, m', hret⟩

/-! ## The red-black tree -/

theorem Matches.nullPath {m : Mem} {par : Option Slot} {t : ColorTree Slot} {c : Color} {n k : Nat}
    (h : Matches m.proc par t) (hb : t.Balanced c n) (hk : NullPath m t.root? k) : k = n := by
  induction hb generalizing par k with
  | nil => cases hk; rfl
  | red _ _ ihl ihr =>
      obtain ⟨hc, hl, hr, _, hml, hmr⟩ := h
      cases hk with
      | left hk => simpa [hc] using ihl hml (hl ▸ hk)
      | right hk => simpa [hc] using ihr hmr (hr ▸ hk)
  | black _ _ ihl ihr =>
      obtain ⟨hc, hl, hr, _, hml, hmr⟩ := h
      cases hk with
      | left hk => simpa [hc] using ihl hml (hl ▸ hk)
      | right hk => simpa [hc] using ihr hmr (hr ▸ hk)

theorem Matches.no_red_red {m : Mem} {par : Option Slot} {t : ColorTree Slot} {c : Color} {n : Nat}
    (h : Matches m.proc par t) (hb : t.Balanced c n) {p q : Slot} (hp : p ∈ t.toList)
    (hred : (m.proc p).color = .red)
    (hq : (m.proc p).left = some q ∨ (m.proc p).right = some q) : (m.proc q).color = .black := by
  induction hb generalizing par with
  | nil => simp at hp
  | @red l r a n hbl hbr ihl ihr =>
      obtain ⟨_, hl, hr, _, hml, hmr⟩ := h
      simp only [ColorTree.toList_node, List.mem_append, List.mem_cons] at hp
      rcases hp with hp | rfl | hp
      · exact ihl hml hp
      · rcases hq with hq | hq
        · rw [(hml.root (hl ▸ hq)).2, hbl.color_eq]
        · rw [(hmr.root (hr ▸ hq)).2, hbr.color_eq]
      · exact ihr hmr hp
  | @black l r a c d n hbl hbr ihl ihr =>
      obtain ⟨hc, _, _, _, hml, hmr⟩ := h
      simp only [ColorTree.toList_node, List.mem_append, List.mem_cons] at hp
      rcases hp with hp | rfl | hp
      · exact ihl hml hp
      · rw [hc] at hred; cases hred
      · exact ihr hmr hp

/-- A way down from the root stays inside the tree, and no lower than its height. -/
theorem Denotes.depth {m : Mem} {t : ColorTree Slot} (h : Denotes m t) {p : Slot} {d : Nat}
    (hd : DepthAt m p d) :
    ∃ up u, t = Trail.fill up u ∧ u.root? = some p ∧ up.length + 1 = d := by
  induction hd with
  | root hp => exact ⟨[], t, rfl, h.root.symm.trans hp, rfl⟩
  | @left p q d _ hq ih =>
      obtain ⟨up, u, rfl, hu, hlen⟩ := ih
      cases u with
      | nil => simp at hu
      | node c l a r =>
          obtain rfl : a = p := by simpa using hu
          obtain ⟨_, hl, _⟩ := ((denotes_fill _).mp h).inner
          exact ⟨.left c a r :: up, l, rfl, hl ▸ hq, by simp [hlen]⟩
  | @right p q d _ hq ih =>
      obtain ⟨up, u, rfl, hu, hlen⟩ := ih
      cases u with
      | nil => simp at hu
      | node c l a r =>
          obtain rfl : a = p := by simpa using hu
          obtain ⟨_, _, hr, _⟩ := ((denotes_fill _).mp h).inner
          exact ⟨.right c l a :: up, r, rfl, hr ▸ hq, by simp [hlen]⟩

/-- Every process below a link is at the end of some way down. -/
theorem Matches.exists_depth {m : Mem} {par : Option Slot} {t : ColorTree Slot} {d : Nat}
    (h : Matches m.proc par t) (hd : ∀ r, t.root? = some r → DepthAt m r d) {p : Slot}
    (hp : p ∈ t.toList) : ∃ d, DepthAt m p d := by
  induction t generalizing par d with
  | nil => simp at hp
  | node c l a r ihl ihr =>
      obtain ⟨_, hl, hr, _, hml, hmr⟩ := h
      have ha := hd a rfl
      simp only [ColorTree.toList_node, List.mem_append, List.mem_cons] at hp
      rcases hp with hp | rfl | hp
      · exact ihl hml (fun q hq => .left ha (hl.trans hq)) hp
      · exact ⟨d, ha⟩
      · exact ihr hmr (fun q hq => .right ha (hr.trans hq)) hp

/--
**The queue is a red-black tree in every state of a run.** The root is black and
has no parent, no red process has a red child, every way down to a null link
meets the same number of black processes, and no process is deeper than twice the
logarithm of their number.
-/
theorem queueRun_balanced {m : Mem} {calls : List (Call Int Slot)} (h : QueueRun m calls) :
    (∀ r, m.tree.root = some r → (m.proc r).color = .black ∧ (m.proc r).pParent = none) ∧
      (∀ p ∈ queue m, ∀ q, (m.proc p).color = .red →
        (m.proc p).left = some q ∨ (m.proc p).right = some q → (m.proc q).color = .black) ∧
      (∃ n, ∀ k, NullPath m m.tree.root k → k = n) ∧
      ∀ p ∈ queue m, (∃ d, DepthAt m p d) ∧
        ∀ d, DepthAt m p d → d ≤ 2 * Nat.log 2 (m.tree.count.toNat + 1) := by
  obtain ⟨t, ht⟩ := queueRun_inv h
  have hden := ht.rep.denotes
  obtain ⟨n, hb⟩ := ht.rep.balanced
  rw [ht.rep.queue_eq]
  refine ⟨fun r hr => ?_, fun p hp q hred hq => ?_, ⟨n, fun k hk => ?_⟩, fun p hp => ⟨?_, ?_⟩⟩
  · obtain ⟨h1, h2⟩ := hden.links.root (hden.root ▸ hr)
    exact ⟨h2.trans hb.color_eq, h1⟩
  · exact hden.links.no_red_red hb hp hred hq
  · exact hden.links.nullPath hb (hden.root ▸ hk)
  · exact hden.links.exists_depth (fun r hr => .root (hden.root.trans hr)) hp
  · intro d hd
    obtain ⟨up, u, rfl, hu, hlen⟩ := hden.depth hd
    have hheight := hb.height_le_log
    have hsize : m.tree.count.toNat = (Trail.fill up u).size := by
      rw [ht.rep.count, ← ColorTree.length_toList]; rfl
    rw [hsize]
    have := Trail.length_add_height_le up u
    have hu' : 1 ≤ u.height := by
      cases u with
      | nil => simp at hu
      | node c l a r => simp [ColorTree.height]
    omega

/-- The same calls leave a balanced tree. -/
theorem queueRun_balanced_firstCome : ∃ m, QueueRun m firstComeCalls ∧
    ∃ n, ∀ k, NullPath m m.tree.root k → k = n := by
  obtain ⟨m, h⟩ := firstCome_run
  exact ⟨m, h, (queueRun_balanced h).2.2.1⟩

end Xv6Cfs
