import XlaModel.HeapSimulator.Theorems.BufferIntervalTree.Represents

namespace HeapSimulator.BufferIntervalTree

open IntervalTree Fuel

variable {T : BufferIntervalTree} {t : Tree} {p : Option Nat} {β : Type} {b : β} {start end_ : Int}

def entryOf (node : BufferIntervalTreeNode) : Interval :=
  ⟨node.start, node.end_, node.chunk⟩

@[simp]
theorem entryOf_nodeOf {x : Interval} {e : Int} {left right parent : Option Nat} :
    entryOf (nodeOf x e left right parent) = x :=
  rfl

section Unsorted

variable {fn : β → BufferIntervalTreeNode → β} {trees : List Tree}

-- The result of a traversal that visits nodes with the given entries.
def Visited (fn : β → BufferIntervalTreeNode → β) (b : β) (xs : List Interval) (b' : β) : Prop :=
  ∃ nodes : List BufferIntervalTreeNode, b' = nodes.foldl fn b ∧ nodes.map entryOf = xs

theorem Visited.cons {node : BufferIntervalTreeNode} {xs : List Interval} {b' : β}
    (h : Visited fn (fn b node) xs b') : Visited fn b (entryOf node :: xs) b' := by
  obtain ⟨nodes, hb, hx⟩ := h
  exact ⟨node :: nodes, hb, by rw [List.map_cons, hx]⟩

def weight (trees : List Tree) : Nat :=
  (trees.map fun t => 2 * t.toList.length + 1).sum

-- The trees on the stack are those that are left to visit.
theorem applyToNodesLoop_spec (h : ∀ t ∈ trees, ∃ p, Rep T.nodeStorage p t) :
    Computes (T.applyToNodesLoop start end_ fn · (trees.flatMap (·.label.toList)) b) fun b' =>
      Visited fn b (trees.flatMap (visit Interval.start Interval.end_ start end_)) b' := by
  generalize hw : weight trees = w
  induction w using Nat.strong_induction_on generalizing trees b
  case h w hi =>
    cases trees
    case nil => exact .of_succ (.pure ⟨[], rfl, rfl⟩)
    case cons t trees =>
      obtain ⟨p, hp⟩ := h t (.head _)
      have ht : ∀ t ∈ trees, ∃ p, Rep T.nodeStorage p t := fun t ht => h t (.tail _ ht)
      cases t
      case nil =>
        have hlt : weight trees < w := by
          simp [weight] at hw ⊢
          omega
        have hd := hi (b := b) _ hlt ht rfl
        exact hd
      case node a x e l r =>
        obtain ⟨hnode, hl, hr⟩ := hp
        have hwl : weight (l :: trees) < w ∧ weight (r :: l :: trees) < w ∧ weight trees < w := by
          simp only [weight, List.map_cons, List.sum_cons, toList, List.length_append, List.length_cons] at hw ⊢
          omega
        have hl' : ∀ t ∈ l :: trees, ∃ p, Rep T.nodeStorage p t := by
          intro t htm
          obtain rfl | htm := List.mem_cons.mp htm
          case inl => exact ⟨_, hl⟩
          case inr => exact ht t htm
        have hr' : ∀ t ∈ r :: l :: trees, ∃ p, Rep T.nodeStorage p t := by
          intro t htm
          obtain rfl | htm := List.mem_cons.mp htm
          case inl => exact ⟨_, hr⟩
          case inr => exact hl' t htm
        refine .of_succ ?_
        simp only [List.flatMap_cons, label_node, Option.toList_some, List.singleton_append, applyToNodesLoop, hnode, nodeOf,
          Option.bind_eq_bind, Option.bind_some, visit, gt_iff_lt, ge_iff_le]
        refine .ite (fun hlt => ?_) fun hlt => ?_
        · simp only [hlt, if_true, List.nil_append]
          exact hi _ hwl.2.2 ht rfl
        · simp only [hlt, if_false]
          have hrest (b₁ : β) : Computes (fun fuel =>
              if end_ < x.start then T.applyToNodesLoop start end_ fn fuel (l.label.toList ++ trees.flatMap (·.label.toList)) b₁
              else T.applyToNodesLoop start end_ fn fuel
                (r.label.toList ++ (l.label.toList ++ trees.flatMap (·.label.toList))) b₁) fun b' =>
              Visited fn b₁ (((if end_ < x.start then [] else r.visit Interval.start Interval.end_ start end_) ++
                l.visit Interval.start Interval.end_ start end_) ++
                  trees.flatMap (visit Interval.start Interval.end_ start end_)) b' := by
            refine .ite (fun he => ?_) fun he => ?_
            · simpa only [he, if_true, List.nil_append, List.flatMap_cons] using hi _ hwl.1 hl' rfl
            · simpa only [he, if_false, List.append_assoc, List.flatMap_cons] using hi _ hwl.2.1 hr' rfl
          by_cases hov : x.start ≤ end_ ∧ start ≤ x.end_
          case pos =>
            have hfilter : [x].filter (overlaps Interval.start Interval.end_ start end_) = [x] := by
              simp [overlaps, hov]
            rw [hfilter]
            simp only [hov, and_self, if_true]
            refine .imp (hrest _) fun b' hb' => ?_
            rw [List.append_assoc, List.singleton_append]
            exact Visited.cons hb'
          case neg =>
            have hfilter : [x].filter (overlaps Interval.start Interval.end_ start end_) = [] := by
              simpa [overlaps] using hov
            rw [hfilter]
            simp only [hov, if_false]
            exact hrest b

theorem applyToNodesOverlappingInTime_spec (hroot : T.root = t.label) (h : Rep T.nodeStorage p t) :
    Computes (T.applyToNodesOverlappingInTime start end_ · fn b) fun b' =>
      Visited fn b (t.visit Interval.start Interval.end_ start end_) b' := by
  have hl : Computes (T.applyToNodesLoop start end_ fn · ([t].flatMap (·.label.toList)) b)
      (Visited fn b ([t].flatMap (visit Interval.start Interval.end_ start end_))) :=
    applyToNodesLoop_spec (by simpa using ⟨p, h⟩)
  simp only [applyToNodesOverlappingInTime, hroot]
  simpa using hl

end Unsorted

section Sorted

variable {fn : β → BufferIntervalTreeNode → β × Bool} {items : List (Tree × Bool)} {prevStart : Int}

-- The traversal of nodes in a list. It can be stopped, and it can fail a check.
def scan (fn : β → BufferIntervalTreeNode → β × Bool) : Int → β → List BufferIntervalTreeNode → Option β
  | _,         b, []             => b
  | prevStart, b, first :: rest =>
    if prevStart ≤ first.start then
      if (fn b first).2 then (fn b first).1 else scan fn first.start (fn b first).1 rest
    else
      none

def Scanned (fn : β → BufferIntervalTreeNode → β × Bool) (prevStart : Int) (b : β) (xs : List Interval)
    (b? : Option β) : Prop :=
  ∃ nodes : List BufferIntervalTreeNode, b? = scan fn prevStart b nodes ∧ nodes.map entryOf = xs

-- The current node is visited before what is left on the stack.
theorem visitNode_spec (start end_ : Int) (node : BufferIntervalTreeNode) (prevStart : Int) (b : β)
    {ys : List Interval} {loop : Nat → Int → β → Option (Option β)}
    (h : ∀ prevStart b, Computes (loop · prevStart b) (Scanned fn prevStart b ys)) :
    Computes (fun fuel =>
      if node.start ≤ end_ ∧ start ≤ node.end_ then
        if prevStart ≤ node.start then
          if (fn b node).2 = true then some (some (fn b node).1) else loop fuel node.start (fn b node).1
        else some none
      else loop fuel prevStart b)
      (Scanned fn prevStart b ([entryOf node].filter (overlaps Interval.start Interval.end_ start end_) ++ ys)) := by
  refine .ite (fun hov => ?_) fun hov => ?_
  · have hfilter : [entryOf node].filter (overlaps Interval.start Interval.end_ start end_) = [entryOf node] := by
      simp [overlaps, entryOf, hov]
    rw [hfilter]
    have hrest {b? : Option β} (hs : Scanned fn node.start (fn b node).1 ys b?) (hp : prevStart ≤ node.start)
        (hstop : ¬(fn b node).2 = true) : Scanned fn prevStart b ([entryOf node] ++ ys) b? := by
      obtain ⟨nodes, hb, hx⟩ := hs
      exact ⟨node :: nodes, by rw [scan, if_pos hp, if_neg hstop, hb], by rw [List.map_cons, hx]; rfl⟩
    obtain ⟨_, _, ⟨nodes, _, hx⟩⟩ := h node.start (fn b node).1
    have hmap : (node :: nodes).map entryOf = [entryOf node] ++ ys := by rw [List.map_cons, hx]; rfl
    refine .ite (fun hp => .ite (fun hstop => ?_) fun hstop => ?_) fun hp => ?_
    · exact .pure ⟨node :: nodes, by rw [scan, if_pos hp, if_pos hstop], hmap⟩
    · exact .imp (h _ _) fun b? hb => hrest hb hp hstop
    · exact .pure ⟨node :: nodes, by rw [scan, if_neg hp], hmap⟩
  · have hfilter : [entryOf node].filter (overlaps Interval.start Interval.end_ start end_) = [] := by
      simpa [overlaps, entryOf] using hov
    rw [hfilter]
    exact h prevStart b

-- The entries that are left to visit for an element of the stack.
def pending (start end_ : Int) : Tree × Bool → List Interval
  | (t, false)               => t.visitSorted Interval.start Interval.end_ start end_
  | (nil, true)              => []
  | (node _ x e _ r, true) =>
    if e < start then []
    else [x].filter (overlaps Interval.start Interval.end_ start end_) ++
      if end_ < x.start then [] else r.visitSorted Interval.start Interval.end_ start end_

def pointer (item : Tree × Bool) : List (Nat × Bool) :=
  item.1.label.toList.map (·, item.2)

def weightSorted : Tree × Bool → Nat
  | (t, false)               => 4 * t.toList.length + 1
  | (nil, true)              => 1
  | (node _ _ _ _ r, true) => 4 * r.toList.length + 2

theorem applyToSortedLoop_spec (h : ∀ item ∈ items, ∃ p, Rep T.nodeStorage p item.1) :
    Computes (T.applyToSortedLoop start end_ fn · (items.flatMap pointer) prevStart b)
      (Scanned fn prevStart b (items.flatMap (pending start end_))) := by
  generalize hw : (items.map weightSorted).sum = w
  induction w using Nat.strong_induction_on generalizing items prevStart b
  case h w hi =>
    cases items
    case nil => exact .of_succ (.pure ⟨[], rfl, rfl⟩)
    case cons item items =>
      obtain ⟨t, visited⟩ := item
      have ht : ∀ item ∈ items, ∃ p, Rep T.nodeStorage p item.1 := fun item hm => h item (.tail _ hm)
      obtain ⟨p, hp⟩ := h _ (.head _)
      rw [List.map_cons, List.sum_cons] at hw
      cases t
      case nil =>
        have hlt : (items.map weightSorted).sum < w := by
          cases visited <;> simp [weightSorted, toList] at hw <;> omega
        have hd : Computes (T.applyToSortedLoop start end_ fn · (items.flatMap pointer) prevStart b)
            (Scanned fn prevStart b (items.flatMap (pending start end_))) :=
          hi _ hlt ht rfl
        have hpend : pending start end_ ((nil : Tree), visited) = [] := by cases visited <;> rfl
        rw [List.flatMap_cons, List.flatMap_cons, hpend]
        exact hd
      case node a x e l r =>
        obtain ⟨hnode, hl, hr⟩ := hp
        have hitems {sub : Tree} (hs : Rep T.nodeStorage (some a) sub) {rest : List (Tree × Bool)}
            (hrest : ∀ item ∈ rest, ∃ p, Rep T.nodeStorage p item.1) :
            ∀ item ∈ (sub, false) :: rest, ∃ p, Rep T.nodeStorage p item.1 := by
          intro item hm
          obtain rfl | hm := List.mem_cons.mp hm
          case inl => exact ⟨_, hs⟩
          case inr => exact hrest item hm
        have hstack (hlt : weightSorted (r, false) + (items.map weightSorted).sum < w) (prevStart : Int) (b : β) :
            Computes (fun fuel => T.applyToSortedLoop start end_ fn fuel
              (if end_ < x.start then items.flatMap pointer
                else r.label.toList.map (·, false) ++ items.flatMap pointer) prevStart b)
              (Scanned fn prevStart b
                ((if end_ < x.start then [] else r.visitSorted Interval.start Interval.end_ start end_) ++
                  items.flatMap (pending start end_))) := by
          by_cases he : end_ < x.start
          case pos =>
            simp only [he, if_true, List.nil_append]
            exact hi _ (by omega) ht rfl
          case neg =>
            simp only [he, if_false]
            exact hi _ (by simpa using hlt) (hitems hr ht) rfl
        have hvisit (hlt : weightSorted (r, false) + (items.map weightSorted).sum < w) :=
          visitNode_spec start end_ (nodeOf x e l.label r.label p) prevStart b (hstack hlt)
        refine .of_succ ?_
        rw [List.flatMap_cons, List.flatMap_cons]
        simp only [pointer, label_node, Option.toList_some, List.map_cons, List.map_nil, List.singleton_append,
          applyToSortedLoop, hnode, nodeOf, Option.bind_eq_bind, Option.bind_some, gt_iff_lt, ge_iff_le]
        refine .ite (fun hlt => ?_) fun hlt => ?_
        · have hpend : pending start end_ (node a x e l r, visited) = [] := by
            cases visited <;> simp [pending, visitSorted, hlt]
          rw [hpend, List.nil_append]
          refine hi _ ?_ ht rfl
          cases visited <;> simp only [weightSorted] at hw <;> omega
        · cases visited
          case true =>
            rw [pending, if_neg hlt, List.append_assoc]
            simp only [weightSorted] at hw hvisit
            exact hvisit (by omega)
          case false =>
            simp only [weightSorted, toList, List.length_append, List.length_cons] at hw hvisit
            cases l
            case nil =>
              rw [pending, visitSorted, if_neg hlt, visitSorted, List.nil_append, List.append_assoc]
              exact hvisit (by omega)
            case node a₂ x₂ e₂ l₂ r₂ =>
              generalize hl₂ : node a₂ x₂ e₂ l₂ r₂ = l at hw hl h hnode hvisit
              have hpend : pending start end_ (node a x e l r, false) =
                  pending start end_ (l, false) ++ pending start end_ (node a x e l r, true) := by
                simp only [pending, visitSorted, if_neg hlt]
              have hcurrent : ∀ item ∈ (node a x e l r, true) :: items, ∃ p, Rep T.nodeStorage p item.1 := by
                intro item hm
                obtain rfl | hm := List.mem_cons.mp hm
                case inl => exact ⟨p, hnode, hl, hr⟩
                case inr => exact ht item hm
              have hlt' : weightSorted (l, false) + (weightSorted (node a x e l r, true) +
                  (items.map weightSorted).sum) < w := by
                simp only [weightSorted]
                omega
              rw [hpend, List.append_assoc]
              subst hl₂
              exact hi _ hlt' (hitems hl hcurrent) rfl

theorem applyToSortedNodesOverlapping_spec (hroot : T.root = t.label) (h : Rep T.nodeStorage p t) :
    Computes (T.applyToSortedNodesOverlapping start end_ · fn b)
      (Scanned fn (-1) b (t.visitSorted Interval.start Interval.end_ start end_)) := by
  have hl : Computes (T.applyToSortedLoop start end_ fn · ([(t, false)].flatMap pointer) (-1) b)
      (Scanned fn (-1) b ([(t, false)].flatMap (pending start end_))) :=
    applyToSortedLoop_spec (by simpa using ⟨p, h⟩)
  simp only [applyToSortedNodesOverlapping, hroot]
  simpa [pointer, pending] using hl

end Sorted

end HeapSimulator.BufferIntervalTree
