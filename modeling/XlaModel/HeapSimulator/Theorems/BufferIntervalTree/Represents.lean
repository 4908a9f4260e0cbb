import XlaModel.Lib.Fallible
import XlaModel.Lib.IntervalTree
import XlaModel.HeapSimulator.BufferIntervalTree

namespace HeapSimulator

-- An entry of a tree.
structure Interval where
  start : Int
  end_  : Int
  chunk : Chunk
  deriving DecidableEq

namespace BufferIntervalTree

open IntervalTree Fuel

abbrev Tree := IntervalTree Nat Interval Int

abbrev Frame := IntervalTree.Frame Nat Interval Int

variable {T T' : BufferIntervalTree} {s s' : List BufferIntervalTreeNode} {t l r : Tree} {fs : List Frame}
  {p child : Option Nat} {a back : Nat} {x : Interval}

def nodeOf (x : Interval) (subtreeEnd : Int) (left right parent : Option Nat) : BufferIntervalTreeNode :=
  ⟨x.start, x.end_, subtreeEnd, x.chunk, left, right, parent⟩

theorem getElem?_modify {f : BufferIntervalTreeNode → BufferIntervalTreeNode} {c : Nat} :
    (T.modify a f).nodeStorage[c]? = if a = c then T.nodeStorage[c]?.map f else T.nodeStorage[c]? := by
  rw [modify, List.getElem?_modify]
  split <;> simp_all

section Rep

-- The nodes in the storage form a tree whose root has parent `p`.
def Rep (s : List BufferIntervalTreeNode) : Option Nat → Tree → Prop
  | _, nil              => True
  | p, node a x b l r => s[a]? = some (nodeOf x b l.label r.label p) ∧ Rep s a l ∧ Rep s a r

def parentOf (p : Option Nat) : List Frame → Option Nat
  | []     => p
  | f :: _ => f.label

-- The nodes on a path to the root, and the subtrees that are not on the path.
def Above (s : List BufferIntervalTreeNode) (p : Option Nat) : List Frame → Option Nat → Prop
  | [],      _     => True
  | f :: fs, child =>
    s[f.label]? = some (nodeOf f.x f.bound (if f.fromLeft then child else f.sibling.label)
      (if f.fromLeft then f.sibling.label else child) (parentOf p fs)) ∧
    Rep s f.label f.sibling ∧ Above s p fs f.label

theorem rep_attach {f : Frame} : Rep s p (f.attach t) ↔
    s[f.label]? = some (nodeOf f.x f.bound (if f.fromLeft then t.label else f.sibling.label)
      (if f.fromLeft then f.sibling.label else t.label) p) ∧ Rep s f.label f.sibling ∧ Rep s f.label t := by
  unfold IntervalTree.Frame.attach
  by_cases hf : f.fromLeft = true
  case pos =>
    simp only [hf, if_true, Rep]
    rw [and_comm (a := Rep s f.label t)]
  case neg => simp only [hf]; rfl

theorem rep_plug : Rep s p (plug fs t) ↔ Above s p fs t.label ∧ Rep s (parentOf p fs) t := by
  induction fs generalizing t
  case nil => simp [plug, Above, parentOf]
  case cons f fs hi => rw [plug, hi, f.label_attach, rep_attach, Above, parentOf]; tauto

theorem Rep.congr (h : Rep s p t) (hs : ∀ a ∈ t.labels, s'[a]? = s[a]?) : Rep s' p t := by
  induction t generalizing p
  case nil => trivial
  case node a x b l r hl hr =>
    obtain ⟨ha, hlr, hrr⟩ := h
    exact ⟨(hs a (.head _)).trans ha, hl hlr fun c hc => hs c (by simp [labels, hc]),
      hr hrr fun c hc => hs c (by simp [labels, hc])⟩

theorem Above.congr (h : Above s p fs child) (hs : ∀ a ∈ fs.flatMap IntervalTree.Frame.labels, s'[a]? = s[a]?) :
    Above s' p fs child := by
  induction fs generalizing child
  case nil => trivial
  case cons f fs hi =>
    obtain ⟨hf, hr, ha⟩ := h
    have hs' : ∀ a ∈ f.labels, s'[a]? = s[a]? := fun a ha => hs a (by simp [ha])
    exact ⟨(hs' _ (.head _)).trans hf, hr.congr fun a ha => hs' a (.tail _ ha), hi ha fun a ha =>
      hs a (by simp [List.mem_flatMap.mp ha])⟩

theorem Rep.isSome (h : Rep s p t) (ha : a ∈ t.labels) : ∃ node, s[a]? = some node := by
  induction t generalizing p
  case nil => simp [labels] at ha
  case node b x bound l r hl hr =>
    obtain ⟨hb, hlr, hrr⟩ := h
    simp only [labels, List.mem_cons, List.mem_append] at ha
    obtain rfl | ha | ha := ha
    case inl     => exact ⟨_, hb⟩
    case inr.inl => exact hl hlr ha
    case inr.inr => exact hr hrr ha

end Rep

section Add

variable {f : Frame} {sub sub' : Tree}

def setChild (fromLeft : Bool) (child : Option Nat) (node : BufferIntervalTreeNode) : BufferIntervalTreeNode :=
  if fromLeft then { node with left := child } else { node with right := child }

-- The subtree `t` has been replaced by `t'`, in which there is a new node.
structure Added (T T' : BufferIntervalTree) (p : Option Nat) (back : Nat) (t t' : Tree) : Prop where
  root   : T'.root = T.root
  length : T'.nodeStorage.length = T.nodeStorage.length
  rep    : Rep T'.nodeStorage p t'
  same   : ∀ c, c ≠ back → c ∉ t.labels → T'.nodeStorage[c]? = T.nodeStorage[c]?

theorem attach_nodup (h : (f.attach t).labels.Nodup) :
    f.label ∉ f.sibling.labels ∧ f.label ∉ t.labels ∧ t.labels.Nodup ∧ ∀ c ∈ t.labels, c ∉ f.sibling.labels := by
  rw [(f.labels_attach t).nodup_iff, Frame.labels, List.cons_append, List.nodup_cons, List.nodup_append,
    List.mem_append, not_or] at h
  obtain ⟨⟨hs, ht⟩, _, hn, hd⟩ := h
  exact ⟨hs, ht, hn, fun c hc hc' => hd c hc' c hc rfl⟩

theorem mem_labels_attach {c : Nat} : c ∈ (f.attach t).labels ↔ c = f.label ∨ c ∈ f.sibling.labels ∨ c ∈ t.labels := by
  rw [(f.labels_attach t).mem_iff, Frame.labels]
  simp

theorem Added.attach (h : Rep T.nodeStorage p (f.attach sub)) (hn : (f.attach sub).labels.Nodup)
    (hb : back ∉ (f.attach sub).labels) (hl : sub'.label = sub.label)
    (ha : Added T T' f.label back sub sub') : Added T T' p back (f.attach sub) (f.attach sub') := by
  obtain ⟨hns, hnt, _, hd⟩ := attach_nodup hn
  simp only [mem_labels_attach, not_or] at hb
  obtain ⟨hnode, hsib, _⟩ := rep_attach.mp h
  refine ⟨ha.root, ha.length, rep_attach.mpr ⟨?_, hsib.congr fun c hc => ?_, ha.rep⟩, fun c hcb hc => ?_⟩
  · rw [ha.same _ (Ne.symm hb.1) hnt, hl]
    exact hnode
  · refine ha.same c (fun h => hb.2.1 (h ▸ hc)) fun hc' => hd c hc' hc
  · rw [mem_labels_attach, not_or, not_or] at hc
    exact ha.same c hcb hc.2.2

theorem link_spec (h : Rep T.nodeStorage p (f.attach nil)) (hn : (f.attach nil).labels.Nodup)
    (hb : back ∉ (f.attach nil).labels)
    (hback : T.nodeStorage[back]? = some (nodeOf x x.end_ none none none)) :
    Added T ((T.modify f.label (setChild f.fromLeft back)).modify back fun node => { node with parent := f.label })
      p back (f.attach nil) (f.attach (node back x x.end_ nil nil)) := by
  obtain ⟨hns, _, _, _⟩ := attach_nodup hn
  simp only [mem_labels_attach, not_or] at hb
  obtain ⟨hnode, hsib, _⟩ := rep_attach.mp h
  refine ⟨rfl, by simp [modify], rep_attach.mpr ⟨?_, hsib.congr fun c hc => ?_, ?_, trivial, trivial⟩, fun c hcb hc => ?_⟩
  · rw [getElem?_modify, if_neg hb.1, getElem?_modify, if_pos rfl, hnode]
    unfold setChild
    split <;> rfl
  · have hcb : back ≠ c := fun h => hb.2.1 (h ▸ hc)
    have hcf : f.label ≠ c := fun h => hns (h ▸ hc)
    rw [getElem?_modify, if_neg hcb, getElem?_modify, if_neg hcf]
  · rw [getElem?_modify, if_pos rfl, getElem?_modify, if_neg (Ne.symm hb.1), hback]
    rfl
  · rw [mem_labels_attach, not_or] at hc
    rw [getElem?_modify, if_neg (Ne.symm hcb), getElem?_modify, if_neg (Ne.symm hc.1)]

theorem label_insert (h : t ≠ nil) : (t.insert Interval.start Interval.end_ a x).label = t.label := by
  cases t
  case nil  => exact absurd rfl h
  case node => rw [IntervalTree.insert]; split <;> rfl

theorem raise_spec {y : Interval} {b e : Int} (h : Rep T.nodeStorage p (node a y b l r))
    (hn : (node a y b l r).labels.Nodup) :
    Rep (T.modify a fun node => { node with subtreeEnd := max node.subtreeEnd e }).nodeStorage p
      (node a y (max b e) l r) := by
  obtain ⟨hnode, hl, hr⟩ := h
  simp only [labels, List.nodup_cons, List.mem_append, not_or] at hn
  obtain ⟨⟨hal, har⟩, _⟩ := hn
  refine ⟨by rw [getElem?_modify, if_pos rfl, hnode]; rfl, hl.congr fun c hc => ?_, hr.congr fun c hc => ?_⟩
  · have hac : a ≠ c := fun h => hal (h ▸ hc)
    rw [getElem?_modify, if_neg hac]
  · have hac : a ≠ c := fun h => har (h ▸ hc)
    rw [getElem?_modify, if_neg hac]

theorem addLoop_spec (h : Rep T.nodeStorage p t) (ha : t.label = some a) (hn : t.labels.Nodup) (hb : back ∉ t.labels)
    (hback : T.nodeStorage[back]? = some (nodeOf x x.end_ none none none)) :
    Computes (addLoop x.start x.end_ back · T a) fun T' =>
      Added T T' p back t (t.insert Interval.start Interval.end_ back x) := by
  induction t generalizing T p a
  case nil => simp [label] at ha
  case node a' y b l r hl hr =>
    obtain rfl : a' = a := Option.some.inj ha
    generalize hT₁ : T.modify a' (fun node => { node with subtreeEnd := max node.subtreeEnd x.end_ }) = T₁
    have h₁ : Rep T₁.nodeStorage p (node a' y (max b x.end_) l r) := by
      rw [← hT₁]
      exact raise_spec h hn
    have hs₁ : ∀ c ≠ a', T₁.nodeStorage[c]? = T.nodeStorage[c]? := by
      intro c hc
      rw [← hT₁, getElem?_modify, if_neg (Ne.symm hc)]
    have hb₁ : T₁.nodeStorage[back]? = some (nodeOf x x.end_ none none none) := by
      rw [hs₁ back fun h => hb (h ▸ .head _), hback]
    have hfin {T' : BufferIntervalTree} {t' : Tree} (hadd : Added T₁ T' p back (node a' y (max b x.end_) l r) t') :
        Added T T' p back (node a' y b l r) t' := by
      refine ⟨hadd.root.trans (by rw [← hT₁]; rfl), hadd.length.trans (by rw [← hT₁]; exact List.length_modify ..),
        hadd.rep, fun c hcb hc => (hadd.same c hcb hc).trans (hs₁ c ?_)⟩
      rintro rfl
      exact hc (.head _)
    refine .of_succ ?_
    simp only [addLoop, hT₁, h₁.1, Option.bind_eq_bind, Option.bind_some, nodeOf, gt_iff_lt]
    rw [IntervalTree.insert]
    by_cases hlt : x.start < y.start
    case pos =>
      let f : Frame := ⟨true, a', y, max b x.end_, r⟩
      have hf : Rep T₁.nodeStorage p (f.attach l) := h₁
      simp only [hlt, if_true]
      cases l
      case nil => exact .pure (hfin (link_spec hf hn hb hb₁))
      case node a₂ y₂ b₂ l₂ r₂ =>
        refine .imp (hl h₁.2.1 rfl (attach_nodup (f := f) hn).2.2.1 (fun hm => hb ?_) hb₁) fun T' hadd => hfin ?_
        · exact (mem_labels_attach (f := f)).mpr (.inr (.inr hm))
        · exact Added.attach hf hn hb (label_insert (by simp)) hadd
    case neg =>
      let f : Frame := ⟨false, a', y, max b x.end_, l⟩
      have hf : Rep T₁.nodeStorage p (f.attach r) := h₁
      simp only [hlt, if_false]
      cases r
      case nil => exact .pure (hfin (link_spec hf hn hb hb₁))
      case node a₂ y₂ b₂ l₂ r₂ =>
        refine .imp (hr h₁.2.2 rfl (attach_nodup (f := f) hn).2.2.1 (fun hm => hb ?_) hb₁) fun T' hadd => hfin ?_
        · exact (mem_labels_attach (f := f)).mpr (.inr (.inr hm))
        · exact Added.attach hf hn hb (label_insert (by simp)) hadd

end Add
end BufferIntervalTree
end HeapSimulator

namespace HeapSimulator.BufferIntervalTree

open IntervalTree Fuel

variable {T T' : BufferIntervalTree} {s s' : List BufferIntervalTreeNode} {t l r : Tree} {f : Frame} {fs : List Frame}
  {p : Option Nat} {a : Nat} {x : Interval} {dead labels : List Nat}

-- The parents of a root that has been moved up are deleted nodes.
def Chain (s : List BufferIntervalTreeNode) : Option Nat → List Nat → Prop
  | p, []      => p = none
  | p, a :: as => p = some a ∧ ∃ node, s[a]? = some node ∧ (∀ c, node.left = some c → c < s.length) ∧
    (∀ c, node.right = some c → c < s.length) ∧ Chain s node.parent as

theorem Chain.congr (h : Chain s p dead) (hs : ∀ a ∈ dead, s'[a]? = s[a]?) (hl : s.length ≤ s'.length) :
    Chain s' p dead := by
  induction dead generalizing p
  case nil => exact h
  case cons a dead hi =>
    obtain ⟨hp, node, hnode, hleft, hright, hc⟩ := h
    exact ⟨hp, node, (hs a (.head _)).trans hnode, fun c hc => (hleft c hc).trans_le hl,
      fun c hc => (hright c hc).trans_le hl, hi hc fun a ha => hs a (.tail _ ha)⟩

theorem Chain.lt (h : Chain s p dead) (ha : a ∈ dead) : a < s.length := by
  induction dead generalizing p
  case nil => simp at ha
  case cons b dead hi =>
    obtain ⟨_, _, hnode, _, _, hc⟩ := h
    obtain rfl | ha := List.mem_cons.mp ha
    case inl => exact (List.getElem?_eq_some_iff.mp hnode).1
    case inr => exact hi hc ha

-- Only the nodes with the labels have been changed.
structure Changes (T T' : BufferIntervalTree) (labels : List Nat) : Prop where
  root   : T'.root = T.root
  length : T'.nodeStorage.length = T.nodeStorage.length
  same   : ∀ c ∉ labels, T'.nodeStorage[c]? = T.nodeStorage[c]?

namespace Changes

theorem refl : Changes T T labels :=
  ⟨rfl, rfl, fun _ _ => rfl⟩

theorem trans {T₁ T₂ T₃ : BufferIntervalTree} (h₁ : Changes T₁ T₂ labels) (h₂ : Changes T₂ T₃ labels) :
    Changes T₁ T₃ labels :=
  ⟨h₂.root.trans h₁.root, h₂.length.trans h₁.length, fun c hc => (h₂.same c hc).trans (h₁.same c hc)⟩

theorem mono {labels' : List Nat} (h : Changes T T' labels) (hs : ∀ a ∈ labels, a ∈ labels') : Changes T T' labels' :=
  ⟨h.root, h.length, fun c hc => h.same c fun hm => hc (hs c hm)⟩

theorem modify {g : BufferIntervalTreeNode → BufferIntervalTreeNode} (ha : a ∈ labels) :
    Changes T (T.modify a g) labels := by
  refine ⟨rfl, List.length_modify .., fun c hc => ?_⟩
  rw [getElem?_modify, if_neg fun h : a = c => hc (h ▸ ha)]

theorem setParent {c q : Option Nat} (hc : ∀ a, c = some a → a ∈ labels) : Changes T (T.setParent c q) labels := by
  cases c
  case none   => exact refl
  case some c => exact modify (hc c rfl)

theorem rep (h : Changes T T' labels) (hr : Rep T.nodeStorage p t) (hd : ∀ a ∈ t.labels, a ∉ labels) :
    Rep T'.nodeStorage p t :=
  hr.congr fun a ha => h.same a (hd a ha)

theorem above {child : Option Nat} (h : Changes T T' labels) (ha : Above T.nodeStorage p fs child)
    (hd : ∀ a ∈ fs.flatMap IntervalTree.Frame.labels, a ∉ labels) : Above T'.nodeStorage p fs child :=
  ha.congr fun a ha => h.same a (hd a ha)

theorem chain (h : Changes T T' labels) (hc : Chain T.nodeStorage p dead) (hd : ∀ a ∈ dead, a ∉ labels) :
    Chain T'.nodeStorage p dead :=
  hc.congr (fun a ha => h.same a (hd a ha)) h.length.ge

end Changes

section FixUp

theorem childEnd_spec {e : Int} (h : Rep T.nodeStorage p t) : T.childEnd e t.label = some (raise e t) := by
  cases t
  case nil  => rfl
  case node => rw [label, childEnd, h.1]; rfl

theorem childEnd_isSome {e : Int} {c : Option Nat} (h : ∀ a, c = some a → a < T.nodeStorage.length) :
    ∃ e', T.childEnd e c = some e' := by
  cases c
  case none   => exact ⟨e, rfl⟩
  case some c => exact ⟨_, by rw [childEnd, List.getElem?_eq_getElem (h c rfl)]; rfl⟩

theorem fixUp_succ {node : BufferIntervalTreeNode} {e e' : Int} {fuel : Nat} (h : T.nodeStorage[a]? = some node)
    (hl : T.childEnd node.end_ node.left = some e) (hr : T.childEnd e node.right = some e') :
    fixUp (fuel + 1) T (some a) = fixUp fuel (T.modify a fun node => { node with subtreeEnd := e' }) node.parent := by
  rw [fixUp, h]
  simp only [Option.bind_eq_bind, Option.bind_some, hl, hr]

theorem fixUp_chain (h : Chain T.nodeStorage p dead) (hn : dead.Nodup) :
    Computes (fixUp · T p) fun T' => Chain T'.nodeStorage p dead ∧ Changes T T' dead := by
  induction dead generalizing T p
  case nil =>
    obtain rfl : p = none := h
    refine .of_succ (.imp (.pure rfl) fun T' hT' => ?_)
    rw [← hT']
    exact ⟨rfl, .refl⟩
  case cons a dead hi =>
    obtain ⟨had, hn⟩ := List.nodup_cons.mp hn
    obtain ⟨rfl, node, hnode, hleft, hright, hc⟩ := h
    obtain ⟨e, he⟩ := childEnd_isSome (T := T) (e := node.end_) hleft
    obtain ⟨e', he'⟩ := childEnd_isSome (T := T) (e := e) hright
    refine .of_succ ?_
    simp only [fixUp_succ hnode he he']
    generalize hT₁ : T.modify a (fun node => { node with subtreeEnd := e' }) = T₁
    have h₁ : Changes T T₁ [a] := hT₁ ▸ .modify (.head _)
    have hc₁ : Chain T₁.nodeStorage node.parent dead := h₁.chain hc fun c hc hca =>
      had (List.mem_singleton.mp hca ▸ hc)
    refine .imp (hi hc₁ hn) ?_
    rintro T' ⟨hc', h'⟩
    have hl' : T'.nodeStorage.length = T.nodeStorage.length := h'.length.trans h₁.length
    refine ⟨⟨rfl, { node with subtreeEnd := e' }, ?_, ?_, ?_, hc'⟩, (h₁.mono (by simp)).trans (h'.mono (by simp_all))⟩
    · rw [h'.same a had, ← hT₁, getElem?_modify, if_pos rfl, hnode]
      rfl
    · exact fun c hc => hl' ▸ hleft c hc
    · exact fun c hc => hl' ▸ hright c hc

theorem fixUp_spec (h : Rep T.nodeStorage p (plug fs t)) (hc : Chain T.nodeStorage p dead)
    (hn : ((plug fs t).labels ++ dead).Nodup) :
    Computes (fixUp · T (parentOf p fs)) fun T' => T'.root = T.root ∧ Chain T'.nodeStorage p dead ∧
      Rep T'.nodeStorage p (plug (refresh Interval.end_ fs t) t) := by
  induction fs generalizing T t
  case nil =>
    obtain ⟨_, hd, hdisj⟩ := List.nodup_append.mp hn
    refine .imp (fixUp_chain hc hd) ?_
    rintro T' ⟨hc', h'⟩
    exact ⟨h'.root, hc', h'.rep h fun a ha hda => hdisj a ha a hda rfl⟩
  case cons f fs hi =>
    obtain ⟨habove, hrep⟩ := rep_plug.mp (show Rep T.nodeStorage p (plug fs (f.attach t)) from h)
    obtain ⟨hnode, hsib, ht⟩ := rep_attach.mp hrep
    have hperm : (plug fs (f.attach t)).labels.Perm (fs.flatMap IntervalTree.Frame.labels ++ (f.attach t).labels) :=
      labels_plug
    obtain ⟨hnp, hnd, hdisj⟩ := List.nodup_append.mp hn
    obtain ⟨_, hnf, hdf⟩ := List.nodup_append.mp (hperm.nodup_iff.mp hnp)
    obtain ⟨hfs, hft, _, _⟩ := attach_nodup hnf
    have hfd : f.label ∉ dead := fun hm => hdisj f.label (hperm.mem_iff.mpr (List.mem_append_right _
      (mem_labels_attach.mpr (.inl rfl)))) f.label hm rfl
    have hffs : f.label ∉ fs.flatMap IntervalTree.Frame.labels := fun hm =>
      hdf f.label hm f.label (mem_labels_attach.mpr (.inl rfl)) rfl
    obtain ⟨e, he, hr⟩ : ∃ e, T.childEnd f.x.end_ (if f.fromLeft then t.label else f.sibling.label) = some e ∧
        T.childEnd e (if f.fromLeft then f.sibling.label else t.label) =
          some (f.refresh Interval.end_ t).bound := by
      unfold IntervalTree.Frame.refresh
      split
      case isTrue hf  => exact ⟨_, childEnd_spec ht, childEnd_spec hsib⟩
      case isFalse hf => exact ⟨_, childEnd_spec hsib, childEnd_spec ht⟩
    refine .of_succ ?_
    simp only [parentOf, fixUp_succ hnode he hr]
    generalize hT₁ : T.modify f.label (fun node => { node with
      subtreeEnd := (f.refresh Interval.end_ t).bound }) = T₁
    have h₁ : Changes T T₁ [f.label] := hT₁ ▸ .modify (.head _)
    have hrep₁ : Rep T₁.nodeStorage p (plug fs ((f.refresh Interval.end_ t).attach t)) := by
      refine rep_plug.mpr ⟨?_, rep_attach.mpr ⟨?_, ?_, ?_⟩⟩
      · rw [IntervalTree.Frame.label_attach]
        rw [IntervalTree.Frame.label_attach] at habove
        exact h₁.above habove fun c hc hca => hffs (List.mem_singleton.mp hca ▸ hc)
      · have hlabel : (f.refresh Interval.end_ t).label = f.label := rfl
        rw [← hT₁, getElem?_modify, hlabel, if_pos rfl, hnode]
        rfl
      · exact h₁.rep hsib fun c hc hca => hfs (List.mem_singleton.mp hca ▸ hc)
      · exact h₁.rep ht fun c hc hca => hft (List.mem_singleton.mp hca ▸ hc)
    have hperm₁ : (plug fs ((f.refresh Interval.end_ t).attach t)).labels.Perm (plug fs (f.attach t)).labels := by
      refine labels_plug.trans (.trans (.append_left _ ?_) hperm.symm)
      exact ((f.refresh Interval.end_ t).labels_attach t).trans (f.labels_attach t).symm
    have hi₁ := hi hrep₁ (h₁.chain hc fun c hc hca => hfd (List.mem_singleton.mp hca ▸ hc))
      ((hperm₁.append_right dead).nodup_iff.mpr hn)
    refine .imp hi₁ ?_
    rintro T' ⟨hroot, hc', hrep'⟩
    exact ⟨hroot.trans h₁.root, hc', hrep'⟩

end FixUp
end HeapSimulator.BufferIntervalTree
