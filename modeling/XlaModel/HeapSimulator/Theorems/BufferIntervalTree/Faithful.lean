import XlaModel.HeapSimulator.Theorems.BufferIntervalTree.Query
import XlaModel.HeapSimulator.Theorems.BufferIntervalTree.Remove

namespace HeapSimulator.BufferIntervalTree

open IntervalTree Fuel

variable {T T' : BufferIntervalTree} {t t' l r : Tree} {fs gs : List Frame} {p : Option Nat} {a a' : Nat}
  {x x' : Interval} {b b' start end_ : Int} {chunk : Chunk} {dead : List Nat} {M : Multiset Interval}

-- The multiset of the intervals in the tree.
structure Holds (T : BufferIntervalTree) (M : Multiset Interval) (t : Tree) : Prop where
  represents : ∃ p dead, Represents T t p dead
  sorted     : t.Sorted Interval.start
  bounded    : t.Bounded Interval.end_
  entries    : (t.toList : Multiset Interval) = M

section Add

theorem Represents.lt (h : Represents T t p dead) (ha : a ∈ t.labels ++ dead) : a < T.nodeStorage.length := by
  obtain ha | ha := List.mem_append.mp ha
  case inl =>
    obtain ⟨node, hnode⟩ := h.rep.isSome ha
    exact (List.getElem?_eq_some_iff.mp hnode).1
  case inr => exact h.chain.lt ha

theorem Represents.add (h : Represents T t p dead) : Computes (T.add start end_ · chunk) fun T' =>
    ∃ p dead, Represents T' (t.insert Interval.start Interval.end_ T.nodeStorage.length ⟨start, end_, chunk⟩)
      p dead := by
  generalize hx : (⟨start, end_, chunk⟩ : Interval) = x
  let T₁ : BufferIntervalTree :=
    { T with nodeStorage := T.nodeStorage ++ [nodeOf x x.end_ none none none] }
  have hs₁ : ∀ c, c ∈ t.labels ++ dead → T₁.nodeStorage[c]? = T.nodeStorage[c]? :=
    fun c hc => List.getElem?_append_left (h.lt hc)
  have hback : T₁.nodeStorage[T.nodeStorage.length]? = some (nodeOf x x.end_ none none none) := by
    simp [T₁]
  have hnot : T.nodeStorage.length ∉ t.labels ++ dead := fun hm => (h.lt hm).ne rfl
  have hroot := h.root
  cases t
  case nil =>
    have hadd (fuel : Nat) : T.add start end_ fuel chunk = some { T₁ with root := some T.nodeStorage.length } := by
      simp only [add, hroot, ← hx, label, T₁]
      rfl
    simp only [hadd]
    exact .pure ⟨none, [], rfl, ⟨hback, trivial, trivial⟩, rfl, by simp [IntervalTree.insert, labels]⟩
  case node a y b l r =>
    have hadd (fuel : Nat) : T.add start end_ fuel chunk =
        addLoop x.start x.end_ T.nodeStorage.length fuel T₁ a := by
      simp only [add, hroot, ← hx, label_node, T₁]
      rfl
    simp only [hadd]
    obtain ⟨hn, hd, hdisj⟩ := List.nodup_append.mp h.nodup
    have hrep₁ : Rep T₁.nodeStorage p (node a y b l r) := h.rep.congr fun c hc => hs₁ c (List.mem_append_left _ hc)
    refine .imp (addLoop_spec hrep₁ rfl hn (fun hm => hnot (List.mem_append_left _ hm)) hback) fun T' ha => ?_
    refine ⟨p, dead, ?_, ha.rep, ?_, ?_⟩
    · rw [ha.root, label_insert (by simp)]
      exact h.root
    · refine h.chain.congr (fun c hc => ?_) ?_
      · rw [ha.same c (fun hm => hnot (hm ▸ List.mem_append_right _ hc)) fun hm => hdisj c hm c hc rfl,
          hs₁ c (List.mem_append_right _ hc)]
      · rw [ha.length]
        simp [T₁]
    · exact (labels_insert.append_right dead).nodup_iff.mpr (List.nodup_cons.mpr ⟨hnot, h.nodup⟩)

theorem Holds.add (h : Holds T M t) : Computes (T.add start end_ · chunk) fun T' =>
    ∃ t', Holds T' (⟨start, end_, chunk⟩ ::ₘ M) t' := by
  obtain ⟨p, dead, hr⟩ := h.represents
  refine .imp hr.add fun T' hr' => ⟨_, hr', h.sorted.insert, h.bounded.insert, ?_⟩
  rw [← h.entries, Multiset.cons_coe, Multiset.coe_eq_coe]
  exact toList_insert

end Add

section Remove

theorem toList_refresh : (plug (refresh Interval.end_ fs t') t').toList = before fs ++ t'.toList ++ after fs := by
  rw [toList_plug, before_refresh, after_refresh]

theorem before_eq_nil (hgs : ∀ f ∈ gs, f.fromLeft = true) : before gs = [] := by
  induction gs
  case nil => rfl
  case cons f gs hi =>
    rw [before, hi fun g hg => hgs g (.tail _ hg), IntervalTree.Frame.before, if_pos (hgs f (.head _))]
    rfl

theorem promoted_perm (hgs : ∀ f ∈ gs, f.fromLeft = true) :
    (plug fs (node a x b l (plug gs (node a' x' b' nil r)))).toList.Perm
      (x :: (plug (refresh Interval.end_ (promotedPath gs fs a x' b' l) r) r).toList) := by
  have hb : before (promotedPath gs fs a x' b' l) = before fs ++ (l.toList ++ [x']) := by
    rw [promotedPath, before_append, before_eq_nil hgs, List.append_nil]
    rfl
  have ha : after (promotedPath gs fs a x' b' l) = after gs ++ after fs := by
    rw [promotedPath, after_append]
    rfl
  rw [toList_refresh, toList_plug, toList, toList_plug, before_eq_nil hgs, hb, ha]
  refine List.perm_iff_count.mpr fun c => ?_
  simp only [toList, List.count_append, List.count_cons, List.nil_append, List.count_nil]
  omega

theorem promoted_sorted (h : (plug fs (node a x b l (plug gs (node a' x' b' nil r)))).Sorted Interval.start)
    (hgs : ∀ f ∈ gs, f.fromLeft = true) :
    (plug (refresh Interval.end_ (promotedPath gs fs a x' b' l) r) r).Sorted Interval.start := by
  have hnode := h.of_plug
  obtain ⟨hl, hright, hlx, hxr⟩ := hnode
  have hlist : (plug gs (node a' x' b' nil r)).toList = x' :: (r.toList ++ after gs) := by
    rw [toList_plug, before_eq_nil hgs, toList]
    simp [toList]
  have hright' : (plug (refresh Interval.end_ gs r) r).Sorted Interval.start :=
    hright.refresh hright.of_plug.2.1 fun y hy => ⟨y, by simp [toList, hy], rfl⟩
  have hlist' : (plug (refresh Interval.end_ gs r) r).toList = r.toList ++ after gs := by
    rw [toList_refresh, before_eq_nil hgs, List.nil_append]
  have hxx : x.start ≤ x'.start := hxr x' (by simp [hlist])
  have hpair := hright.pairwise
  rw [hlist] at hpair
  rw [promotedPath, refresh_append, plug_append]
  -- The entry of the node is the first one of the right subtree.
  have hpromoted (e : Int) : (node a x' e l (plug (refresh Interval.end_ gs r) r)).Sorted Interval.start := by
    refine ⟨hl, hright', fun y hy => (hlx y hy).trans_le hxx, fun y hy => ?_⟩
    rw [hlist'] at hy
    exact (List.pairwise_cons.mp hpair).1 y hy
  refine h.refresh (hpromoted _) fun y hy => ?_
  have hy' : y ∈ l.toList ++ x' :: (r.toList ++ after gs) := by
    rw [← hlist']
    exact hy
  simp only [toList, List.mem_append, List.mem_cons, hlist] at hy' ⊢
  obtain hy | rfl | hy := hy'
  case inl     => exact ⟨y, .inl hy, rfl⟩
  case inr.inl => exact ⟨y, .inr (.inr (.inl rfl)), rfl⟩
  case inr.inr => exact ⟨y, .inr (.inr (.inr hy)), rfl⟩

theorem promoted_bounded (h : (plug fs (node a x b l (plug gs (node a' x' b' nil r)))).Bounded Interval.end_) :
    (plug (refresh Interval.end_ (promotedPath gs fs a x' b' l) r) r).Bounded Interval.end_ := by
  obtain ⟨⟨hl, hright, _⟩, hfs⟩ := h.of_plug
  obtain ⟨⟨_, hr, _⟩, hgs⟩ := hright.of_plug
  refine hr.refresh fun f hf => ?_
  rw [promotedPath, List.mem_append, List.mem_cons] at hf
  obtain hf | rfl | hf := hf
  case inl     => exact hgs f hf
  case inr.inl => exact hl
  case inr.inr => exact hfs f hf

theorem Holds.erase (h : Holds T M t) (ht : ∃ p dead, Represents T' t' p dead) (hs : t'.Sorted Interval.start)
    (hb : t'.Bounded Interval.end_) (hp : t.toList.Perm (x :: t'.toList)) : x ∈ M ∧ Holds T' (M.erase x) t' := by
  have hM : M = x ::ₘ (t'.toList : Multiset Interval) := by
    rw [← h.entries, Multiset.cons_coe, Multiset.coe_eq_coe]
    exact hp
  refine ⟨hM ▸ Multiset.mem_cons_self .., ht, hs, hb, ?_⟩
  rw [hM, Multiset.erase_cons_head]

theorem Holds.remove (h : Holds T M t) : Computes (T.remove start end_ chunk ·) fun r =>
    (r = (T, false) ∧ ∀ x ∈ M, ¬Matches start end_ chunk x) ∨
      (r.2 = true ∧ ∃ t', ∃ x ∈ M, Matches start end_ chunk x ∧ Holds r.1 (M.erase x) t') := by
  obtain ⟨p, dead, hr⟩ := h.represents
  have hfind := find_spec start end_ chunk hr.rep h.sorted
  simp only [BufferIntervalTree.remove, hr.root]
  refine .bind hfind ?_
  rintro a? (⟨rfl, hn⟩ | ⟨fs, a, x, b, l, r, rfl, rfl, hm⟩)
  case inl =>
    refine .pure (.inl ⟨rfl, fun x hx => hn x ?_⟩)
    rw [← h.entries] at hx
    exact hx
  case inr =>
    obtain ⟨_, hnode, _, hrr⟩ := rep_plug.mp hr.rep
    obtain ⟨hbl, hbr, _⟩ := h.bounded.of_plug.1
    simp only [hnode, nodeOf, Option.bind_eq_bind, Option.bind_some]
    cases r
    case nil =>
      refine .bind (moveUpLeft_spec hr) fun T' hT' => ?_
      have hp : (plug fs (node a x b l nil)).toList.Perm (x :: (plug (refresh Interval.end_ fs l) l).toList) := by
        rw [toList_refresh, toList_plug, toList]
        refine List.perm_iff_count.mpr fun c => ?_
        simp only [toList, List.count_append, List.count_cons, List.count_nil]
        omega
      obtain ⟨hx, hh⟩ := h.erase hT' (h.sorted.refresh h.sorted.of_plug.1 fun y hy => ⟨y, by simp [toList, hy], rfl⟩)
        (hbl.refresh h.bounded.of_plug.2) hp
      exact .pure (.inr ⟨rfl, _, x, hx, hm, hh⟩)
    case node a₂ x₂ b₂ l₂ r₂ =>
      obtain ⟨a', hret, gs, x', b', r', hplug, hgs⟩ := leftmost_spec hrr rfl
      rw [hplug] at hr h
      refine .bind (promote_spec hr hgs hret) fun T' hT' => ?_
      obtain ⟨hx, hh⟩ := h.erase ⟨p, dead, hT'⟩ (promoted_sorted h.sorted hgs) (promoted_bounded h.bounded)
        (promoted_perm hgs)
      exact .pure (.inr ⟨rfl, _, x, hx, hm, hh⟩)

end Remove

section Run

-- An operation on the multiset of the intervals, and its result.
inductive Step : Multiset Interval → Op → Bool → Multiset Interval → Prop
  | add (M : Multiset Interval) (start end_ : Int) (chunk : Chunk) :
    Step M (.add start end_ chunk) true (⟨start, end_, chunk⟩ ::ₘ M)
  | remove {M : Multiset Interval} {start end_ : Int} {chunk : Chunk} {x : Interval} :
    x ∈ M → Matches start end_ chunk x → Step M (.remove start end_ chunk) true (M.erase x)
  | absent {M : Multiset Interval} {start end_ : Int} {chunk : Chunk} :
    (∀ x ∈ M, ¬Matches start end_ chunk x) → Step M (.remove start end_ chunk) false M

inductive Steps : Multiset Interval → List Op → List Bool → Multiset Interval → Prop
  | nil (M : Multiset Interval) : Steps M [] [] M
  | cons {M M' M'' : Multiset Interval} {op : Op} {ops : List Op} {result : Bool} {results : List Bool} :
    Step M op result M' → Steps M' ops results M'' → Steps M (op :: ops) (result :: results) M''

theorem Holds.apply (h : Holds T M t) (op : Op) : Computes (T.apply · op) fun r =>
    ∃ M' t', Step M op r.2 M' ∧ Holds r.1 M' t' := by
  cases op
  case add start end_ chunk =>
    refine .bind h.add fun T' hT' => .pure ?_
    obtain ⟨t', h'⟩ := hT'
    exact ⟨_, t', .add .., h'⟩
  case remove start end_ chunk =>
    refine .imp h.remove ?_
    rintro ⟨T', result⟩ (⟨heq, hn⟩ | ⟨rfl, t', x, hx, hm, h'⟩)
    case inl =>
      obtain ⟨rfl, rfl⟩ := Prod.mk.inj heq
      exact ⟨M, t, .absent hn, h⟩
    case inr => exact ⟨_, t', .remove hx hm, h'⟩

theorem Holds.run (h : Holds T M t) (ops : List Op) : Computes (run · T ops) fun r =>
    ∃ M' t', Steps M ops r.2 M' ∧ Holds r.1 M' t' := by
  induction ops generalizing T M t
  case nil => exact .pure ⟨M, t, .nil M, h⟩
  case cons op ops hi =>
    refine .bind (h.apply op) ?_
    rintro ⟨T₁, result⟩ ⟨M₁, t₁, hs₁, h₁⟩
    refine .bind (hi h₁) ?_
    rintro ⟨T₂, results⟩ ⟨M₂, t₂, hs₂, h₂⟩
    exact .pure ⟨M₂, t₂, .cons hs₁ hs₂, h₂⟩

theorem empty_holds : Holds empty 0 nil where
  represents := ⟨none, [], rfl, trivial, rfl, .nil⟩
  sorted     := trivial
  bounded    := trivial
  entries    := rfl

end Run

section Faithful

def collect (xs : List Interval) (node : BufferIntervalTreeNode) : List Interval :=
  xs ++ [entryOf node]

def collectAll (xs : List Interval) (node : BufferIntervalTreeNode) : List Interval × Bool :=
  (collect xs node, false)

def overlapping (start end_ : Int) (x : Interval) : Prop :=
  x.start ≤ end_ ∧ start ≤ x.end_

instance : DecidablePred (overlapping start end_) :=
  fun _ => inferInstanceAs (Decidable (_ ∧ _))

-- The sorted query only accepts starts from -1 on.
structure Faithful (T : BufferIntervalTree) (M : Multiset Interval) : Prop where
  tree  : ∃ t p dead, Represents T t p dead ∧ (t.toList : Multiset Interval) = M ∧
    t.toList.Pairwise (·.start ≤ ·.start) ∧ ∀ fs a x b l r, t = plug fs (node a x b l r) →
      IsGreatest {e | ∃ y ∈ (node a x b l r).toList, y.end_ = e} b
  query : ∀ start end_, Computes (T.applyToNodesOverlappingInTime start end_ · collect []) fun xs =>
    (xs : Multiset Interval) = M.filter (overlapping start end_)
  sortedQuery : ∀ start end_, Computes (T.applyToSortedNodesOverlapping start end_ · collectAll []) fun xs? =>
    (xs? = none ↔ ∃ x ∈ M.filter (overlapping start end_), x.start < -1) ∧
      ∀ xs, xs? = some xs → (xs : Multiset Interval) = M.filter (overlapping start end_) ∧
        xs.Pairwise (·.start ≤ ·.start)

theorem foldl_collect {xs : List Interval} {nodes : List BufferIntervalTreeNode} :
    nodes.foldl collect xs = xs ++ nodes.map entryOf := by
  induction nodes generalizing xs
  case nil                => simp
  case cons node nodes hi => rw [List.foldl_cons, hi, collect, List.map_cons, List.append_assoc]; rfl

theorem scan_collectAll (xs : List Interval) (prevStart : Int) {nodes : List BufferIntervalTreeNode}
    (h : (nodes.map entryOf).Pairwise (·.start ≤ ·.start)) :
    (scan collectAll prevStart xs nodes = none ↔ ∃ x ∈ nodes.map entryOf, x.start < prevStart) ∧
      ∀ ys, scan collectAll prevStart xs nodes = some ys → ys = xs ++ nodes.map entryOf := by
  induction nodes generalizing xs prevStart
  case nil => simp [scan]
  case cons node nodes hi =>
    rw [List.map_cons] at h
    obtain ⟨hle, hp⟩ := List.pairwise_cons.mp h
    have hstart : (entryOf node).start = node.start := rfl
    rw [scan]
    by_cases hprev : prevStart ≤ node.start
    case pos =>
      have hno {c : Int} (hc : c ≤ node.start) : ¬∃ x ∈ nodes.map entryOf, x.start < c := by
        rintro ⟨x, hx, hlt⟩
        exact absurd (hle x hx) (not_le.mpr (hlt.trans_le (hc.trans hstart.ge)))
      have hno' : ¬∃ x ∈ (node :: nodes).map entryOf, x.start < prevStart := by
        rintro ⟨x, hx, hlt⟩
        obtain rfl | hx := List.mem_cons.mp hx
        case inl => exact absurd hlt (not_lt.mpr hprev)
        case inr => exact hno hprev ⟨x, hx, hlt⟩
      rw [if_pos hprev]
      simp only [collectAll, Bool.false_eq_true, if_false]
      obtain ⟨hn, hy⟩ := hi (collect xs node) node.start hp
      refine ⟨hn.trans ⟨fun h => absurd h (hno le_rfl), fun h => absurd h hno'⟩, fun ys h => ?_⟩
      rw [hy ys h, collect, List.append_assoc]
      rfl
    case neg =>
      have hyes : ∃ x ∈ (node :: nodes).map entryOf, x.start < prevStart :=
        ⟨entryOf node, .head _, not_le.mp hprev⟩
      rw [if_neg hprev]
      exact ⟨iff_of_true rfl hyes, by simp⟩

theorem Holds.faithful (h : Holds T M t) : Faithful T M := by
  obtain ⟨p, dead, hr⟩ := h.represents
  have hfilter (start end_ : Int) : (t.toList.filter (overlaps Interval.start Interval.end_ start end_) :
      Multiset Interval) = M.filter (overlapping start end_) := by
    rw [← h.entries, Multiset.filter_coe]
    rfl
  refine ⟨⟨t, p, dead, hr, h.entries, h.sorted.pairwise, ?_⟩, fun start end_ => ?_, fun start end_ => ?_⟩
  · rintro fs a x b l r rfl
    exact h.bounded.of_plug.1.isGreatest
  · refine .imp (applyToNodesOverlappingInTime_spec hr.root hr.rep) ?_
    rintro xs ⟨nodes, rfl, hx⟩
    rw [foldl_collect, List.nil_append, hx, ← hfilter, ← visitSorted_eq h.sorted h.bounded]
    exact Multiset.coe_eq_coe.mpr visit_perm
  · refine .imp (applyToSortedNodesOverlapping_spec hr.root hr.rep) ?_
    rintro xs? ⟨nodes, rfl, hx⟩
    rw [visitSorted_eq h.sorted h.bounded] at hx
    have hp : (nodes.map entryOf).Pairwise (·.start ≤ ·.start) := hx ▸ h.sorted.pairwise.filter _
    have hm : ((nodes.map entryOf : List Interval) : Multiset Interval) = M.filter (overlapping start end_) := by
      rw [hx, hfilter]
    obtain ⟨hn, hs⟩ := scan_collectAll [] (-1) hp
    rw [← hm]
    refine ⟨hn, fun xs h => ?_⟩
    rw [hs xs h, List.nil_append]
    exact ⟨rfl, hp⟩

theorem run_faithful (ops : List Op) : Computes (run · empty ops) fun r =>
    ∃ M, Steps 0 ops r.2 M ∧ Faithful r.1 M := by
  refine .imp (empty_holds.run ops) ?_
  rintro r ⟨M, t, hs, h⟩
  exact ⟨M, hs, h.faithful⟩

def Op.Valid : Op → Prop
  | .add start end_ _    => start ≤ end_
  | .remove start end_ _ => start ≤ end_

-- A negative start time other than -1 fails the check of the order.
theorem not_sortedQuery_early : ¬∀ ops : List Op, (∀ op ∈ ops, op.Valid) → Computes (run · empty ops) fun r =>
    ∀ start end_, Computes (r.1.applyToSortedNodesOverlapping start end_ · collectAll []) fun xs? =>
      xs?.isSome = true := by
  intro h
  obtain ⟨r, hr, hq⟩ := h [.add (-2) (-2) ⟨0, 1⟩] (by simp [Op.Valid])
  let T : BufferIntervalTree := ⟨some 0, [⟨-2, -2, -2, ⟨0, 1⟩, none, none, none⟩]⟩
  obtain rfl : r = (T, [true]) := hr.unique (.of_forall fun _ => rfl)
  obtain ⟨xs?, hxs, hs⟩ := hq (-2) (-2)
  have hn : Returns (T.applyToSortedNodesOverlapping (-2) (-2) · collectAll []) none :=
    Returns.iff_exists.mpr ⟨1, fun n hn => by
      obtain ⟨n, rfl⟩ := Nat.exists_eq_add_of_le' hn
      rfl⟩
  obtain rfl := hxs.unique hn
  exact absurd hs (by decide)

end Faithful

end HeapSimulator.BufferIntervalTree
