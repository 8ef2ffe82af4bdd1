import Zupt.LzhHuffman

/-! # The tree of Zupt-LZH

    The heap keeps its entries, in whatever order, and each entry stands for a tree
    over some of the symbols.  A turn of the loop joins two of the trees, so in the
    end there is one over all of them; its clamped depths take too much of the
    space of codes, by no more than the redistribution can take back. -/

namespace Zupt.Lzh

open Zupt.Canonical Zupt.VaptVupt

/-! ## The heap keeps its entries -/

theorem exchange_perm {h : List HNode} {i j : Nat} (hi : i < h.length) (hj : j < h.length) :
    (exchange h i j).Perm h := by
  have hat : ∀ k (hk : k < h.length), nodeAt h k = h[k] := fun k hk => List.getD_eq_getElem h _ hk
  rw [exchange, hat i hi, hat j hj]
  exact List.set_set_perm hi hj

@[simp] theorem exchange_length (h : List HNode) (i j : Nat) : (exchange h i j).length = h.length := by
  rw [exchange, List.length_set, List.length_set]

theorem smallest_lt {h : List HNode} {i : Nat} (hi : i < h.length) : smallest h i < h.length := by
  have hleft : (if 2 * i + 1 < h.length ∧ (nodeAt h (2 * i + 1)).f < (nodeAt h i).f then 2 * i + 1
      else i) < h.length := by
    split
    · rename_i hchild
      exact hchild.1
    · exact hi
  rw [smallest]
  generalize (if 2 * i + 1 < h.length ∧ (nodeAt h (2 * i + 1)).f < (nodeAt h i).f then 2 * i + 1
    else i) = b at hleft
  by_cases hchild : 2 * i + 2 < h.length ∧ (nodeAt h (2 * i + 2)).f < (nodeAt h b).f
  · exact (if_pos hchild).trans_lt hchild.1
  · exact (if_neg hchild).trans_lt hleft

theorem hDown_perm (turns : Nat) {h : List HNode} {i : Nat} (hi : i < h.length) :
    (hDown turns h i).Perm h := by
  induction turns generalizing h i with
  | zero => exact List.Perm.refl h
  | succ turns ih =>
      have hb := smallest_lt hi
      rw [hDown]
      split
      · exact List.Perm.refl h
      · refine (ih ?_).trans (exchange_perm hi hb)
        rw [exchange_length]
        exact hb

theorem hUp_perm (turns : Nat) {h : List HNode} {i : Nat} (hi : i < h.length) :
    (hUp turns h i).Perm h := by
  induction turns generalizing h i with
  | zero => exact List.Perm.refl h
  | succ turns ih =>
      rw [hUp]
      split
      · have hp : (i - 1) / 2 < h.length := by omega
        dsimp only
        split
        · exact List.Perm.refl h
        · refine (ih ?_).trans (exchange_perm hi hp)
          rw [exchange_length]
          exact hp
      · exact List.Perm.refl h

theorem push_perm (h : List HNode) (e : HNode) : (push h e).Perm (e :: h) := by
  refine (hUp_perm _ ?_).trans (List.perm_append_singleton e h)
  rw [List.length_append, List.length_singleton]
  exact Nat.lt_succ_self _

theorem pop_perm {h : List HNode} (hne : h ≠ []) : ((pop h).1 :: (pop h).2).Perm h := by
  cases h with
  | nil => exact absurd rfl hne
  | cons a rest =>
      rw [pop]
      cases hlast : rest.getLast? with
      | none =>
          obtain rfl := List.getLast?_eq_none_iff.mp hlast
          exact List.Perm.refl _
      | some last =>
          obtain ⟨front, rfl⟩ := List.getLast?_eq_some_iff.mp hlast
          refine List.Perm.cons a ?_
          rw [List.dropLast_concat]
          refine (hDown_perm _ (Nat.succ_pos _)).trans ?_
          exact (List.perm_append_singleton last front).symm

/-! ## Trees -/

/-- A tree over symbols. -/
inductive Tree where
  | leaf (i : Nat)
  | node (l r : Tree)

def Tree.leaves : Tree → List Nat
  | .leaf i => [i]
  | .node l r => l.leaves ++ r.leaves

def Tree.height : Tree → Nat
  | .leaf _ => 0
  | .node l r => max l.height r.height + 1

/-- The clamped depths of the leaves below depth `d`. -/
def Tree.depths : Tree → (d : Nat) → List Nat
  | .leaf _, d => [min d maxCodelen]
  | .node l r, d => l.depths (d + 1) ++ r.depths (d + 1)

theorem Tree.depths_length (t : Tree) (d : Nat) : (t.depths d).length = t.leaves.length := by
  induction t generalizing d with
  | leaf i => rfl
  | node l r hl hr =>
      rw [Tree.depths, Tree.leaves, List.length_append, List.length_append, hl, hr]

theorem Tree.height_lt (t : Tree) : t.height < t.leaves.length := by
  induction t with
  | leaf i => exact Nat.one_pos
  | node l r hl hr =>
      rw [Tree.height, Tree.leaves, List.length_append]
      omega

/-- No leaf is deeper than 15, and below a node none is at depth 0. -/
theorem Tree.depths_mem {t : Tree} {d v : Nat} (h : v ∈ t.depths d) : min d maxCodelen ≤ v ∧ v ≤ maxCodelen := by
  induction t generalizing d with
  | leaf i =>
      obtain rfl := List.mem_singleton.mp h
      exact ⟨Nat.le_refl _, Nat.min_le_right _ _⟩
  | node l r hl hr =>
      rcases List.mem_append.mp h with hmem | hmem
      · have hin := hl hmem
        omega
      · have hin := hr hmem
        omega

/-! ## The tree of the loop -/

/-- The numbers stand for a tree over the nodes below `m`. -/
inductive Grown (l r : Nat → Int) (ns m : Nat) : Int → Tree → Prop
  | leaf (i : Nat) (hi : i < ns) : Grown l r ns m i (.leaf i)
  | node (x : Nat) (hx : x < m) {a b : Tree} (ha : Grown l r ns m (l x) a)
      (hb : Grown l r ns m (r x) b) : Grown l r ns m (-((x : Int) + 1)) (.node a b)

section Grown

variable {l r : Nat → Int} {ns m : Nat}

theorem Grown.ne {s : Int} {t : Tree} (h : Grown l r ns m s t) : s ≠ -((m : Int) + 1) := by
  cases h with
  | leaf i hi => omega
  | node x hx => omega

/-- A new node leaves the trees as they are. -/
theorem Grown.mono {s : Int} {t : Tree} (h : Grown l r ns m s t) (a b : Int) :
    Grown (Function.update l m a) (Function.update r m b) ns (m + 1) s t := by
  induction h with
  | leaf i hi => exact .leaf i hi
  | node x hx _ _ iha ihb =>
      have hne : x ≠ m := Nat.ne_of_lt hx
      refine .node x (Nat.lt_succ_of_lt hx) ?_ ?_
      · rw [Function.update_of_ne hne]
        exact iha
      · rw [Function.update_of_ne hne]
        exact ihb

/-- **`tree_depths`** hands the clamped depths to the leaves. -/
theorem treeDepths_grown {levels : Nat} {nd : Int} {t : Tree} (h : Grown l r ns m nd t) (depth : Nat)
    (dp : Nat → Nat) (hlevels : t.height < levels) :
    treeDepths l r ns levels nd depth dp = give t.leaves (t.depths depth) dp := by
  induction h generalizing levels depth dp with
  | leaf i hi =>
      cases levels with
      | zero => exact absurd hlevels (Nat.not_lt_zero _)
      | succ levels => rw [treeDepths, if_pos ⟨by omega, by omega⟩]; rfl
  | @node x hx a b ha hb iha ihb =>
      cases levels with
      | zero => exact absurd hlevels (Nat.not_lt_zero _)
      | succ levels =>
          have hx' : (-(-((x : Int) + 1)) - 1).toNat = x := by omega
          rw [Tree.height] at hlevels
          rw [treeDepths, if_neg (by omega)]
          dsimp only
          rw [hx', iha _ _ (by omega), ihb _ _ (by omega), Tree.leaves, Tree.depths,
            give_append _ _ (Tree.depths_length a _).symm]

end Grown

/-- Each entry of the heap is a tree, and together they have the leaves. -/
def Forest.Valid (t : Forest) (ns : Nat) (leaves : List Nat) : Prop :=
  ∃ tree : Int → Tree, (∀ e ∈ t.hp, Grown t.l t.r ns t.ni e.s (tree e.s)) ∧
    (t.hp.flatMap fun e => (tree e.s).leaves).Perm leaves

section Join

variable {ns : Nat} {leaves : List Nat} {t : Forest}

/-- **ONE TURN** joins two trees. -/
theorem join_valid (h : t.Valid ns leaves) (htwo : 1 < t.hp.length) :
    t.join.Valid ns leaves ∧ t.join.hp.length + 1 = t.hp.length := by
  obtain ⟨tree, hgrown, hleaves⟩ := h
  have hfirst : ((pop t.hp).1 :: (pop t.hp).2).Perm t.hp := by
    refine pop_perm ?_
    rintro hnil
    rw [hnil] at htwo
    exact absurd htwo (by decide)
  have hlen1 := hfirst.length_eq
  have hsecond : ((pop (pop t.hp).2).1 :: (pop (pop t.hp).2).2).Perm (pop t.hp).2 := by
    refine pop_perm ?_
    rintro hnil
    rw [hnil, List.length_singleton] at hlen1
    omega
  have hlen2 := hsecond.length_eq
  generalize hpa : pop t.hp = pa at hfirst hlen1 hsecond hlen2
  generalize hpb : pop pa.2 = pb at hsecond hlen2
  have hthree : (pa.1 :: pb.1 :: pb.2).Perm t.hp := (hsecond.cons pa.1).trans hfirst
  have hnew := push_perm pb.2 ⟨(pa.1.f + pb.1.f) % 2 ^ 32, -((t.ni : Int) + 1)⟩
  have hjoin : t.join = ⟨push pb.2 ⟨(pa.1.f + pb.1.f) % 2 ^ 32, -((t.ni : Int) + 1)⟩,
      Function.update t.l t.ni pa.1.s, Function.update t.r t.ni pb.1.s, t.ni + 1⟩ := by
    rw [Forest.join, hpa]
    dsimp only
    rw [hpb]
  have ha := hgrown pa.1 (hthree.mem_iff.mp (by simp))
  have hb := hgrown pb.1 (hthree.mem_iff.mp (by simp))
  have hrest : ∀ e ∈ pb.2, Grown t.l t.r ns t.ni e.s (tree e.s) :=
    fun e he => hgrown e (hthree.mem_iff.mp (by simp [he]))
  rw [hjoin]
  refine ⟨⟨Function.update tree (-((t.ni : Int) + 1)) (.node (tree pa.1.s) (tree pb.1.s)), ?_, ?_⟩, ?_⟩
  · intro e he
    dsimp only at he ⊢
    rcases List.mem_cons.mp (hnew.mem_iff.mp he) with rfl | hmem
    · rw [Function.update_self]
      refine .node t.ni (Nat.lt_succ_self _) ?_ ?_
      · rw [Function.update_self]
        exact ha.mono _ _
      · rw [Function.update_self]
        exact hb.mono _ _
    · rw [Function.update_of_ne (hrest e hmem).ne]
      exact (hrest e hmem).mono _ _
  · dsimp only
    have hsame : (pb.2.flatMap fun e => (Function.update tree (-((t.ni : Int) + 1))
        (.node (tree pa.1.s) (tree pb.1.s)) e.s).leaves) = pb.2.flatMap fun e => (tree e.s).leaves := by
      refine List.flatMap_congr fun e he => ?_
      rw [Function.update_of_ne (hrest e he).ne]
    refine (hnew.flatMap_right _).trans ?_
    rw [List.flatMap_cons, hsame, Function.update_self, Tree.leaves, List.append_assoc]
    exact (hthree.flatMap_right _).trans hleaves
  · dsimp only
    rw [hnew.length_eq, List.length_cons, ← hlen1, List.length_cons, ← hlen2, List.length_cons]

/-- **THE LOOP** leaves one tree. -/
theorem joinAll_valid (turns : Nat) (h : t.Valid ns leaves) (hpos : 0 < t.hp.length)
    (hturns : t.hp.length ≤ turns + 1) :
    (joinAll turns t).Valid ns leaves ∧ (joinAll turns t).hp.length = 1 := by
  induction turns generalizing t with
  | zero => exact ⟨h, by show t.hp.length = 1; omega⟩
  | succ turns ih =>
      rw [joinAll]
      by_cases htwo : 1 < t.hp.length
      · obtain ⟨hvalid, hlen⟩ := join_valid h htwo
        rw [if_pos htwo]
        exact ih hvalid (by omega) (by omega)
      · rw [if_neg htwo]
        exact ⟨h, by omega⟩

end Join

section Heap

variable {freq : Nat → Nat} {ns : Nat}

theorem mem_active {i : Nat} : i ∈ active freq ns ↔ i < ns ∧ 0 < freq i := by
  rw [active, List.mem_filter, List.mem_range, decide_eq_true_iff]

theorem active_nodup (freq : Nat → Nat) (ns : Nat) : (active freq ns).Nodup :=
  List.nodup_range.filter _

theorem active_length_le (freq : Nat → Nat) (ns : Nat) : (active freq ns).length ≤ ns := by
  refine (List.length_filter_le _ _).trans ?_
  rw [List.length_range]

theorem foldl_push_perm (syms : List Nat) (h : List HNode) :
    (syms.foldl (fun hp (i : Nat) => push hp ⟨freq i, i⟩) h).Perm
      (h ++ syms.map fun (i : Nat) => ⟨freq i, i⟩) := by
  induction syms generalizing h with
  | nil =>
      rw [List.map_nil, List.append_nil]
      exact List.Perm.refl h
  | cons i syms ih =>
      rw [List.foldl_cons, List.map_cons]
      refine (ih _).trans ?_
      exact ((push_perm h ⟨freq i, i⟩).append_right _).trans List.perm_middle.symm

theorem leafHeap_perm (freq : Nat → Nat) (ns : Nat) :
    (leafHeap freq ns).Perm ((active freq ns).map fun (i : Nat) => ⟨freq i, i⟩) :=
  foldl_push_perm _ []

theorem flatMap_leaf (freq : Nat → Nat) (syms : List Nat) :
    ((syms.map fun (i : Nat) => (⟨freq i, i⟩ : HNode)).flatMap
      fun e => (Tree.leaf e.s.toNat).leaves) = syms := by
  induction syms with
  | nil => rfl
  | cons i syms ih =>
      rw [List.map_cons, List.flatMap_cons, ih]
      rfl

/-- The forest that the loop over the heap leaves. -/
def lastForest (freq : Nat → Nat) (ns : Nat) : Forest :=
  joinAll (leafHeap freq ns).length ⟨leafHeap freq ns, fun _ => 0, fun _ => 0, 0⟩

/-- **ONE TREE** over the symbols that occur is left. -/
theorem lastForest_root (hmany : 1 < (active freq ns).length) :
    (lastForest freq ns).hp.length = 1 ∧ ∃ root : Tree,
      Grown (lastForest freq ns).l (lastForest freq ns).r ns (lastForest freq ns).ni
        (nodeAt (lastForest freq ns).hp 0).s root ∧
      root.leaves.Perm (active freq ns) := by
  have hperm := leafHeap_perm freq ns
  have hlen : (leafHeap freq ns).length = (active freq ns).length := by
    rw [hperm.length_eq, List.length_map]
  have hstart : (Forest.mk (leafHeap freq ns) (fun _ => 0) (fun _ => 0) 0).Valid ns
      (active freq ns) := by
    refine ⟨fun s => .leaf s.toNat, ?_, ?_⟩
    · intro e he
      obtain ⟨i, hi, rfl⟩ := List.mem_map.mp (hperm.mem_iff.mp he)
      exact .leaf i (mem_active.mp hi).1
    · refine (hperm.flatMap_right _).trans ?_
      rw [flatMap_leaf]
  obtain ⟨hvalid, hone⟩ := joinAll_valid (leafHeap freq ns).length hstart
    (by show 0 < (leafHeap freq ns).length; omega) (Nat.le_succ _)
  rw [lastForest]
  generalize joinAll (leafHeap freq ns).length ⟨leafHeap freq ns, fun _ => 0, fun _ => 0, 0⟩ = t
    at hvalid hone
  obtain ⟨tree, hgrown, hleaves⟩ := hvalid
  obtain ⟨e, he⟩ := List.length_eq_one_iff.mp hone
  have hroot := hgrown e (by rw [he]; exact List.mem_singleton_self e)
  rw [he, List.flatMap_cons, List.flatMap_nil, List.append_nil] at hleaves
  have hnode : nodeAt t.hp 0 = e := by rw [he]; rfl
  refine ⟨hone, tree e.s, ?_, hleaves⟩
  rw [hnode]
  exact hroot

/-- The tree has fewer levels than there are symbols. -/
theorem height_lt_of_leaves {root : Tree} (h : root.leaves.Perm (active freq ns)) : root.height < ns + 1 := by
  have hlt := root.height_lt
  have hle := active_length_le freq ns
  rw [h.length_eq] at hlt
  omega

/-- **THE DEPTHS** of the heap are those of a tree over the symbols that occur. -/
theorem heapDepths_spec (hmany : 1 < (active freq ns).length) :
    ∃ l r : Tree, (Tree.node l r).leaves.Perm (active freq ns) ∧
      heapDepths freq ns =
        give (Tree.node l r).leaves ((Tree.node l r).depths 0) fun _ => 0 := by
  obtain ⟨hone, root, hroot, hleaves⟩ := lastForest_root hmany
  have hdepths : heapDepths freq ns = give root.leaves (root.depths 0) fun _ => 0 := by
    rw [← treeDepths_grown hroot 0 _ (height_lt_of_leaves hleaves)]
    exact if_pos hone
  rw [hdepths]
  cases root with
  | leaf i =>
      rw [← hleaves.length_eq] at hmany
      exact absurd hmany (by show ¬ 1 < 1; decide)
  | node l r => exact ⟨l, r, hleaves, rfl⟩

end Heap

/-! ## What the clamping costs -/

/-- A leaf at the deepest level. -/
def deep (v : Nat) : Nat := if v = maxCodelen then 1 else 0

theorem map_deepest {vals : List Nat} (h : ∀ v ∈ vals, v = maxCodelen) :
    (vals.map (share maxCodelen)).sum = vals.length ∧ (vals.map deep).sum = vals.length := by
  induction vals with
  | nil => exact ⟨rfl, rfl⟩
  | cons v vals ih =>
      obtain rfl := h v List.mem_cons_self
      obtain ⟨hshare, hdeep⟩ := ih fun w hw => h w (List.mem_cons_of_mem _ hw)
      rw [List.map_cons, List.map_cons, List.sum_cons, List.sum_cons, hshare, hdeep, List.length_cons]
      exact ⟨Nat.add_comm _ _, Nat.add_comm _ _⟩

/-- **A CLAMPED TREE** takes too much of the space by less than it has leaves at the
    deepest level: they are below a node of that level at least. -/
theorem Tree.clamped (t : Tree) {d : Nat} (hd : d ≤ maxCodelen) :
    ((t.depths d).map (share maxCodelen)).sum + (if ((t.depths d).map deep).sum = 0 then 0 else 1) ≤
      2 ^ (maxCodelen - d) + ((t.depths d).map deep).sum := by
  induction t generalizing d with
  | leaf i =>
      rw [Tree.depths, Nat.min_eq_left hd, List.map_singleton, List.map_singleton, List.sum_singleton,
        List.sum_singleton, share, deep]
      by_cases hlast : d = maxCodelen
      · rw [hlast]
        decide
      · rw [if_neg hlast, if_pos rfl]
        split
        · exact Nat.zero_le _
        · exact Nat.le_refl _
  | node l r hl hr =>
      by_cases hlast : d = maxCodelen
      · -- all the leaves are clamped to the depth of the node
        have hall : ∀ v ∈ (Tree.node l r).depths d, v = maxCodelen := by
          intro v hv
          have hv' := Tree.depths_mem hv
          omega
        obtain ⟨hshare, hdeep⟩ := map_deepest hall
        rw [hshare, hdeep, hlast, Nat.sub_self, Nat.pow_zero]
        split
        · omega
        · omega
      · have hleft := hl (show d + 1 ≤ maxCodelen by omega)
        have hright := hr (show d + 1 ≤ maxCodelen by omega)
        have hpow : 2 ^ (maxCodelen - d) = 2 * 2 ^ (maxCodelen - (d + 1)) := by
          rw [← Nat.pow_succ']
          congr 1
          omega
        rw [Tree.depths, List.map_append, List.map_append, List.sum_append, List.sum_append, hpow]
        split at hleft
        · split at hright
          · rw [if_pos (by omega)]
            omega
          · rw [if_neg (by omega)]
            omega
        · rw [if_neg (by omega)]
          split at hright
          · omega
          · omega

end Zupt.Lzh
