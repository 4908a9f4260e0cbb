import Mathlib.Tactic

-- Binary search trees of intervals. The nodes are labelled, and every node stores a bound for the ends of the
-- intervals in its subtree.
inductive IntervalTree (ι α T : Type)
  | nil
  | node (label : ι) (x : α) (bound : T) (left right : IntervalTree ι α T)

namespace IntervalTree

variable {ι α T : Type}

def label : IntervalTree ι α T → Option ι
  | nil              => none
  | node a _ _ _ _ => some a

@[simp]
theorem label_node {a : ι} {x : α} {b : T} {l r : IntervalTree ι α T} : (node a x b l r).label = some a :=
  rfl

def labels : IntervalTree ι α T → List ι
  | nil              => []
  | node a _ _ l r => a :: (l.labels ++ r.labels)

def toList : IntervalTree ι α T → List α
  | nil              => []
  | node _ x _ l r => l.toList ++ x :: r.toList

theorem label_mem {t : IntervalTree ι α T} {a : ι} (h : t.label = some a) : a ∈ t.labels := by
  cases t
  case nil  => simp [label] at h
  case node => simp_all [label, labels]

-- The nodes above a subtree, from the bottom to the top.
structure Frame (ι α T : Type) where
  fromLeft : Bool
  label    : ι
  x        : α
  bound    : T
  sibling  : IntervalTree ι α T

namespace Frame

variable (f : Frame ι α T) (t : IntervalTree ι α T)

def attach : IntervalTree ι α T :=
  if f.fromLeft then node f.label f.x f.bound t f.sibling else node f.label f.x f.bound f.sibling t

def labels : List ι :=
  f.label :: f.sibling.labels

def before : List α :=
  if f.fromLeft then [] else f.sibling.toList ++ [f.x]

def after : List α :=
  if f.fromLeft then f.x :: f.sibling.toList else []

theorem label_attach : (f.attach t).label = some f.label := by
  unfold attach
  split <;> rfl

theorem labels_attach : (f.attach t).labels.Perm (f.labels ++ t.labels) := by
  unfold attach
  split
  case isTrue  => exact (List.perm_append_comm).cons _
  case isFalse => rfl

theorem toList_attach : (f.attach t).toList = f.before ++ t.toList ++ f.after := by
  unfold attach before after
  split <;> simp [toList]

end Frame

variable {fs gs : List (Frame ι α T)} {f : Frame ι α T} {t t' : IntervalTree ι α T}

def plug : List (Frame ι α T) → IntervalTree ι α T → IntervalTree ι α T
  | [],      t => t
  | f :: fs, t => plug fs (f.attach t)

def before : List (Frame ι α T) → List α
  | []      => []
  | f :: fs => before fs ++ f.before

def after : List (Frame ι α T) → List α
  | []      => []
  | f :: fs => f.after ++ after fs

theorem plug_append : plug (fs ++ gs) t = plug gs (plug fs t) := by
  induction fs generalizing t
  case nil          => rfl
  case cons f fs hi => exact hi

theorem before_append : before (fs ++ gs) = before gs ++ before fs := by
  induction fs
  case nil          => simp [before]
  case cons f fs hi => rw [List.cons_append, before, before, hi, List.append_assoc]

theorem after_append : after (fs ++ gs) = after fs ++ after gs := by
  induction fs
  case nil          => rfl
  case cons f fs hi => rw [List.cons_append, after, after, hi, List.append_assoc]

theorem toList_plug : (plug fs t).toList = before fs ++ t.toList ++ after fs := by
  induction fs generalizing t
  case nil          => simp [plug, before, after]
  case cons f fs hi => rw [plug, hi, f.toList_attach, before, after]; simp

theorem labels_plug : (plug fs t).labels.Perm (fs.flatMap Frame.labels ++ t.labels) := by
  induction fs generalizing t
  case nil => rfl
  case cons f fs hi =>
    rw [plug, List.flatMap_cons]
    refine hi.trans (((f.labels_attach t).append_left _).trans ?_)
    rw [← List.append_assoc]
    exact List.perm_append_comm.append_right _

def top (child : Option ι) : List (Frame ι α T) → Option ι
  | []      => child
  | f :: fs => top (some f.label) fs

theorem top_append {child : Option ι} : top child (fs ++ gs) = top (top child fs) gs := by
  induction fs generalizing child
  case nil          => rfl
  case cons f fs hi => exact hi

theorem label_plug : (plug fs t).label = top t.label fs := by
  induction fs generalizing t
  case nil          => rfl
  case cons f fs hi => rw [plug, hi, f.label_attach, top]

theorem top_mem {a b : ι} (h : top (some a) fs = some b) : b = a ∨ ∃ f ∈ fs, f.label = b := by
  induction fs generalizing a
  case nil => exact .inl (Option.some.inj h).symm
  case cons f fs hi =>
    obtain rfl | ⟨g, hg, he⟩ := hi h
    case inl => exact .inr ⟨f, .head _, rfl⟩
    case inr => exact .inr ⟨g, .tail _ hg, he⟩

section Order

variable [LinearOrder T] (start stop : α → T)

-- Entries with the start of a node are only in its right subtree.
def Sorted : IntervalTree ι α T → Prop
  | nil              => True
  | node _ x _ l r => l.Sorted ∧ r.Sorted ∧ (∀ y ∈ l.toList, start y < start x) ∧ ∀ y ∈ r.toList, start x ≤ start y

variable {start}

theorem Sorted.pairwise (h : t.Sorted start) : t.toList.Pairwise (start · ≤ start ·) := by
  induction t
  case nil => exact .nil
  case node a x b l r hl hr =>
    obtain ⟨hsl, hsr, hlx, hxr⟩ := h
    refine List.pairwise_append.mpr ⟨hl hsl, List.pairwise_cons.mpr ⟨hxr, hr hsr⟩, fun y hy z hz => ?_⟩
    obtain rfl | hz := List.mem_cons.mp hz
    case inl => exact (hlx y hy).le
    case inr => exact (hlx y hy).le.trans (hxr z hz)

-- The order only depends on the starts of the entries of a subtree.
theorem Sorted.attach (h : (f.attach t).Sorted start) (ht : t'.Sorted start)
    (hs : ∀ y ∈ t'.toList, ∃ z ∈ t.toList, start z = start y) : (f.attach t').Sorted start := by
  unfold Frame.attach at h ⊢
  split at h
  case isTrue hf =>
    obtain ⟨_, hsr, hlx, hxr⟩ := h
    rw [if_pos hf]
    refine ⟨ht, hsr, fun y hy => ?_, hxr⟩
    obtain ⟨z, hz, he⟩ := hs y hy
    exact he ▸ hlx z hz
  case isFalse hf =>
    obtain ⟨hsl, _, hlx, hxr⟩ := h
    rw [if_neg hf]
    refine ⟨hsl, ht, hlx, fun y hy => ?_⟩
    obtain ⟨z, hz, he⟩ := hs y hy
    exact he ▸ hxr z hz

theorem Sorted.of_attach (h : (f.attach t).Sorted start) : t.Sorted start := by
  unfold Frame.attach at h
  split at h
  case isTrue  => exact h.1
  case isFalse => exact h.2.1

theorem Sorted.of_plug (h : (plug fs t).Sorted start) : t.Sorted start := by
  induction fs generalizing t
  case nil          => exact h
  case cons f fs hi => exact (hi h).of_attach

end Order

section Bounds

variable [LinearOrder T] {start : α → T} (stop : α → T)

def raise (bound : T) : IntervalTree ι α T → T
  | nil                => bound
  | node _ _ b _ _ => max bound b

def Bounded : IntervalTree ι α T → Prop
  | nil              => True
  | node _ x b l r => l.Bounded ∧ r.Bounded ∧ b = raise (raise (stop x) l) r

variable {stop}

theorem le_raise {b : T} : b ≤ raise b t := by
  cases t
  case nil  => exact le_rfl
  case node => exact le_max_left ..

theorem Bounded.le_raise {b : T} {y : α} (h : t.Bounded stop) (hy : y ∈ t.toList) : stop y ≤ raise b t := by
  induction t generalizing b
  case nil => simp [toList] at hy
  case node a x b' l r hl hr =>
    obtain ⟨hbl, hbr, rfl⟩ := h
    refine le_trans ?_ (le_max_right ..)
    simp only [toList, List.mem_append, List.mem_cons] at hy
    obtain hy | rfl | hy := hy
    case inl     => exact (hl hbl hy).trans IntervalTree.le_raise
    case inr.inl => exact IntervalTree.le_raise.trans IntervalTree.le_raise
    case inr.inr => exact hr hbr hy

theorem Bounded.raise_mem {b : T} (h : t.Bounded stop) : raise b t = b ∨ ∃ y ∈ t.toList, stop y = raise b t := by
  induction t generalizing b
  case nil => exact .inl rfl
  case node a x b' l r hl hr =>
    obtain ⟨hbl, hbr, rfl⟩ := h
    obtain hm | hm := max_choice b (raise (raise (stop x) l) r)
    case inl => exact .inl hm
    case inr =>
      refine .inr ?_
      rw [raise, hm]
      obtain hr | ⟨y, hy, he⟩ := hr (b := raise (stop x) l) hbr
      case inr => exact ⟨y, by simp [toList, hy], he⟩
      case inl =>
        obtain hl | ⟨y, hy, he⟩ := hl (b := stop x) hbl
        case inl => exact ⟨x, by simp [toList], by rw [hr, hl]⟩
        case inr => exact ⟨y, by simp [toList, hy], by rw [hr, he]⟩

theorem Bounded.isGreatest {a : ι} {x : α} {b : T} {l r : IntervalTree ι α T} (h : (node a x b l r).Bounded stop) :
    IsGreatest {e | ∃ y ∈ (node a x b l r).toList, stop y = e} b := by
  constructor
  · obtain ⟨hbl, hbr, rfl⟩ := h
    obtain hr | ⟨y, hy, he⟩ := hbr.raise_mem (b := raise (stop x) l)
    case inr => exact ⟨y, by simp [toList, hy], he⟩
    case inl =>
      obtain hl | ⟨y, hy, he⟩ := hbl.raise_mem (b := stop x)
      case inl => exact ⟨x, by simp [toList], by rw [hr, hl]⟩
      case inr => exact ⟨y, by simp [toList, hy], by rw [hr, he]⟩
  · rintro e ⟨y, hy, rfl⟩
    simpa [raise] using h.le_raise (b := b) hy

theorem Bounded.of_plug (h : (plug fs t).Bounded stop) : t.Bounded stop ∧ ∀ f ∈ fs, f.sibling.Bounded stop := by
  induction fs generalizing t
  case nil => exact ⟨h, by simp⟩
  case cons f fs hi =>
    obtain ⟨ha, hs⟩ := hi h
    unfold Frame.attach at ha
    split at ha
    case isTrue  => exact ⟨ha.1, by simpa [ha.2.1] using hs⟩
    case isFalse => exact ⟨ha.2.1, by simpa [ha.1] using hs⟩

end Bounds

section Refresh

variable [LinearOrder T] {start stop : α → T}

def Frame.refresh (stop : α → T) (f : Frame ι α T) (t : IntervalTree ι α T) : Frame ι α T :=
  { f with
    bound :=
      if f.fromLeft then raise (raise (stop f.x) t) f.sibling else raise (raise (stop f.x) f.sibling) t }

-- The bounds above a subtree are recomputed.
def refresh (stop : α → T) : List (Frame ι α T) → IntervalTree ι α T → List (Frame ι α T)
  | [],      _ => []
  | f :: fs, t => f.refresh stop t :: refresh stop fs ((f.refresh stop t).attach t)

theorem before_refresh : before (refresh stop fs t) = before fs := by
  induction fs generalizing t
  case nil          => rfl
  case cons f fs hi => rw [refresh, before, hi]; rfl

theorem after_refresh : after (refresh stop fs t) = after fs := by
  induction fs generalizing t
  case nil          => rfl
  case cons f fs hi => rw [refresh, after, hi]; rfl

theorem labels_refresh : (refresh stop fs t).flatMap Frame.labels = fs.flatMap Frame.labels := by
  induction fs generalizing t
  case nil          => rfl
  case cons f fs hi => rw [refresh, List.flatMap_cons, hi]; rfl

theorem top_refresh {child : Option ι} : top child (refresh stop fs t) = top child fs := by
  induction fs generalizing t child
  case nil          => rfl
  case cons f fs hi => exact hi

theorem refresh_append : refresh stop (fs ++ gs) t = refresh stop fs t ++ refresh stop gs (plug (refresh stop fs t) t) := by
  induction fs generalizing t
  case nil          => rfl
  case cons f fs hi => rw [List.cons_append, refresh, hi]; rfl

theorem Bounded.refresh (ht : t.Bounded stop) (hs : ∀ f ∈ fs, f.sibling.Bounded stop) :
    (plug (refresh stop fs t) t).Bounded stop := by
  induction fs generalizing t
  case nil => exact ht
  case cons f fs hi =>
    have hf := hs f (.head _)
    refine hi ?_ fun f hf => hs f (.tail _ hf)
    unfold Frame.attach Frame.refresh
    by_cases hl : f.fromLeft = true
    case pos => simpa [hl] using ⟨ht, hf, rfl⟩
    case neg => simpa [hl] using ⟨hf, ht, rfl⟩

theorem Sorted.refresh (h : (plug fs t).Sorted start) (ht : t'.Sorted start)
    (hs : ∀ y ∈ t'.toList, ∃ z ∈ t.toList, start z = start y) : (plug (refresh stop fs t') t').Sorted start := by
  induction fs generalizing t t'
  case nil => exact ht
  case cons f fs hi =>
    have hp : (plug fs (f.attach t)).Sorted start := h
    have hf : (f.attach t').Sorted start := hp.of_plug.attach ht hs
    have hr : ((f.refresh stop t').attach t').Sorted start := by
      unfold Frame.attach at hf ⊢
      split at hf
      case isTrue hl =>
        simp only [Frame.refresh, hl, if_true]
        exact hf
      case isFalse hl =>
        simp only [Frame.refresh, hl]
        exact hf
    refine hi h hr fun y hy => ?_
    rw [Frame.toList_attach] at hy
    simp only [Frame.toList_attach, List.mem_append] at hy ⊢
    obtain (hy | hy) | hy := hy
    case inl.inl => exact ⟨y, .inl (.inl hy), rfl⟩
    case inr     => exact ⟨y, .inr hy, rfl⟩
    case inl.inr =>
      obtain ⟨z, hz, he⟩ := hs y hy
      exact ⟨z, .inl (.inr hz), he⟩

end Refresh

section Insert

variable [LinearOrder T] (start stop : α → T)

def insert (a : ι) (x : α) : IntervalTree ι α T → IntervalTree ι α T
  | nil => node a x (stop x) nil nil
  | node a' y b l r =>
    if start x < start y then node a' y (max b (stop x)) (l.insert a x) r
    else node a' y (max b (stop x)) l (r.insert a x)

variable {start stop} {a : ι} {x : α}

theorem toList_insert : (t.insert start stop a x).toList.Perm (x :: t.toList) := by
  induction t
  case nil => rfl
  case node a' y b l r hl hr =>
    rw [insert]
    split
    case isTrue  => exact hl.append_right _
    case isFalse =>
      refine ((hr.cons y).append_left _).trans ?_
      exact ((List.Perm.swap x y _).append_left _).trans List.perm_middle

theorem labels_insert : (t.insert start stop a x).labels.Perm (a :: t.labels) := by
  induction t
  case nil => rfl
  case node a' y b l r hl hr =>
    rw [insert]
    split
    case isTrue  => exact ((hl.append_right _).cons a').trans (.swap a a' _)
    case isFalse =>
      refine ((hr.append_left _).cons a').trans ?_
      exact (List.perm_middle.cons a').trans (.swap a a' _)

theorem Sorted.insert (h : t.Sorted start) : (t.insert start stop a x).Sorted start := by
  induction t
  case nil => simp [IntervalTree.insert, Sorted, toList]
  case node a' y b l r hl hr =>
    obtain ⟨hsl, hsr, hly, hyr⟩ := h
    rw [IntervalTree.insert]
    split
    case isTrue hlt =>
      refine ⟨hl hsl, hsr, fun z hz => ?_, hyr⟩
      obtain rfl | hz := List.mem_cons.mp (toList_insert.mem_iff.mp hz)
      case inl => exact hlt
      case inr => exact hly z hz
    case isFalse hle =>
      refine ⟨hsl, hr hsr, hly, fun z hz => ?_⟩
      obtain rfl | hz := List.mem_cons.mp (toList_insert.mem_iff.mp hz)
      case inl => exact le_of_not_gt hle
      case inr => exact hyr z hz

theorem raise_insert {b : T} : raise b (t.insert start stop a x) = max (raise b t) (stop x) := by
  cases t
  case nil => rfl
  case node =>
    rw [insert]
    split <;> exact (max_assoc ..).symm

theorem raise_max {b c : T} : raise (max b c) t = max (raise b t) c := by
  cases t
  case nil  => rfl
  case node => exact max_right_comm ..

theorem Bounded.insert (h : t.Bounded stop) : (t.insert start stop a x).Bounded stop := by
  induction t
  case nil => exact ⟨trivial, trivial, rfl⟩
  case node a' y b l r hl hr =>
    obtain ⟨hbl, hbr, rfl⟩ := h
    rw [IntervalTree.insert]
    split
    case isTrue  => exact ⟨hl hbl, hbr, by rw [raise_insert, raise_max]⟩
    case isFalse => exact ⟨hbl, hr hbr, by rw [raise_insert]⟩

end Insert

section Query

variable [LinearOrder T] (start stop : α → T) (s e : T)

def overlaps (x : α) : Bool :=
  decide (start x ≤ e ∧ s ≤ stop x)

-- The entries in the order in which they are visited, the right subtree before the left one.
def visit : IntervalTree ι α T → List α
  | nil => []
  | node _ x b l r =>
    if b < s then []
    else [x].filter (overlaps start stop s e) ++ ((if e < start x then [] else r.visit) ++ l.visit)

def visitSorted : IntervalTree ι α T → List α
  | nil => []
  | node _ x b l r =>
    if b < s then []
    else l.visitSorted ++ ([x].filter (overlaps start stop s e) ++ if e < start x then [] else r.visitSorted)

variable {start stop s e}

theorem filter_of_bound {a : ι} {x : α} {b : T} {l r : IntervalTree ι α T} (h : (node a x b l r).Bounded stop)
    (hb : b < s) : (node a x b l r).toList.filter (overlaps start stop s e) = [] := by
  refine List.filter_eq_nil_iff.mpr fun y hy => ?_
  have hle := h.isGreatest.2 ⟨y, hy, rfl⟩
  simp [overlaps, hle.trans_lt hb]

theorem filter_of_start {c : T} {ys : List α} (hs : ∀ y ∈ ys, c ≤ start y) (hc : e < c) :
    ys.filter (overlaps start stop s e) = [] := by
  refine List.filter_eq_nil_iff.mpr fun y hy => ?_
  simp [overlaps, hc.trans_le (hs y hy)]

theorem visitSorted_eq (hs : t.Sorted start) (hb : t.Bounded stop) :
    t.visitSorted start stop s e = t.toList.filter (overlaps start stop s e) := by
  induction t
  case nil => rfl
  case node a x b l r hl hr =>
    rw [visitSorted]
    split
    case isTrue hlt => exact (filter_of_bound hb hlt).symm
    case isFalse =>
      obtain ⟨hsl, hsr, _, hxr⟩ := hs
      have hx : x :: r.toList = [x] ++ r.toList := rfl
      rw [toList, hx, List.filter_append, List.filter_append, hl hsl hb.1, hr hsr hb.2.1]
      refine congrArg _ (congrArg _ ?_)
      split
      case isTrue he => exact (filter_of_start hxr he).symm
      case isFalse   => rfl

theorem visit_perm : (t.visit start stop s e).Perm (t.visitSorted start stop s e) := by
  induction t
  case nil => rfl
  case node a x b l r hl hr =>
    rw [visit, visitSorted]
    split
    case isTrue => rfl
    case isFalse =>
      refine .trans ?_ List.perm_append_comm
      rw [List.append_assoc]
      refine .append_left _ (.append ?_ hl)
      split
      case isTrue  => rfl
      case isFalse => exact hr

end Query
end IntervalTree
