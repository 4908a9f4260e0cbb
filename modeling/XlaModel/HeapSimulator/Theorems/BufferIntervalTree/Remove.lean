import XlaModel.HeapSimulator.Theorems.BufferIntervalTree.Represents

namespace HeapSimulator.BufferIntervalTree

open IntervalTree Fuel

variable {T T' : BufferIntervalTree} {t t' l r c : Tree} {f : Frame} {fs gs : List Frame} {p : Option Nat} {a : Nat}
  {x : Interval} {b : Int} {dead : List Nat}

-- The tree, with the deleted nodes above its root.
structure Represents (T : BufferIntervalTree) (t : Tree) (p : Option Nat) (dead : List Nat) : Prop where
  root  : T.root = t.label
  rep   : Rep T.nodeStorage p t
  chain : Chain T.nodeStorage p dead
  nodup : (t.labels ++ dead).Nodup

section Find

def Matches (start end_ : Int) (chunk : Chunk) (x : Interval) : Prop :=
  x.start = start ∧ x.end_ = end_ ∧ x.chunk.offset = chunk.offset

theorem find_spec (start end_ : Int) (chunk : Chunk) (h : Rep T.nodeStorage p t) (hs : t.Sorted Interval.start) :
    Computes (T.find start end_ chunk · t.label) fun a? =>
      (a? = none ∧ ∀ x ∈ t.toList, ¬Matches start end_ chunk x) ∨
        ∃ fs a x b l r, a? = some a ∧ t = plug fs (node a x b l r) ∧ Matches start end_ chunk x := by
  induction t generalizing p
  case nil => exact .of_succ (.pure (.inl ⟨rfl, by simp [toList]⟩))
  case node a x b l r hl hr =>
    obtain ⟨hnode, hlr, hrr⟩ := h
    obtain ⟨hsl, hsr, hlx, hxr⟩ := hs
    refine .of_succ ?_
    simp only [label, find, hnode, Option.bind_eq_bind, Option.bind_some, nodeOf]
    by_cases hm : x.start = start ∧ x.end_ = end_ ∧ x.chunk.offset = chunk.offset
    case pos =>
      simp only [hm]
      exact .pure (.inr ⟨[], a, x, b, l, r, rfl, rfl, hm⟩)
    case neg =>
      simp only [hm, if_false]
      by_cases hlt : start < x.start
      case pos =>
        simp only [hlt, if_true]
        refine .imp (hl hlr hsl) ?_
        rintro a? (⟨ha, hn⟩ | ⟨fs, a', x', b', l', r', ha, ht, hx'⟩)
        case inl =>
          refine .inl ⟨ha, fun y hy hmy => ?_⟩
          simp only [toList, List.mem_append, List.mem_cons] at hy
          obtain hy | rfl | hy := hy
          case inl     => exact hn y hy hmy
          case inr.inl => exact hm hmy
          case inr.inr => exact absurd hlt (not_lt.mpr (hmy.1 ▸ hxr y hy))
        case inr =>
          refine .inr ⟨fs ++ [⟨true, a, x, b, r⟩], a', x', b', l', r', ha, ?_, hx'⟩
          rw [plug_append, ← ht]
          rfl
      case neg =>
        simp only [hlt, if_false]
        refine .imp (hr hrr hsr) ?_
        rintro a? (⟨ha, hn⟩ | ⟨fs, a', x', b', l', r', ha, ht, hx'⟩)
        case inl =>
          refine .inl ⟨ha, fun y hy hmy => ?_⟩
          simp only [toList, List.mem_append, List.mem_cons] at hy
          obtain hy | rfl | hy := hy
          case inl     => exact absurd (hlx y hy) (by rw [hmy.1]; exact hlt)
          case inr.inl => exact hm hmy
          case inr.inr => exact hn y hy hmy
        case inr =>
          refine .inr ⟨fs ++ [⟨false, a, x, b, l⟩], a', x', b', l', r', ha, ?_, hx'⟩
          rw [plug_append, ← ht]
          rfl

theorem leftmost_spec (h : Rep T.nodeStorage p t) (ha : t.label = some a) :
    Computes (T.leftmost · a) fun a' => ∃ fs x b r, t = plug fs (node a' x b nil r) ∧ ∀ f ∈ fs, f.fromLeft = true := by
  induction t generalizing p a
  case nil => simp [label] at ha
  case node a' x b l r hl _ =>
    obtain rfl : a' = a := Option.some.inj ha
    obtain ⟨hnode, hlr, _⟩ := h
    refine .of_succ ?_
    simp only [leftmost, hnode, Option.bind_eq_bind, Option.bind_some, nodeOf]
    cases l
    case nil => exact .pure ⟨[], x, b, r, rfl, by simp⟩
    case node a₂ x₂ b₂ l₂ r₂ =>
      refine .imp (hl hlr rfl) ?_
      rintro a'' ⟨fs, x', b', r', ht, hf⟩
      refine ⟨fs ++ [⟨true, a', x, b, r⟩], x', b', r', ?_, fun f hf' => ?_⟩
      · rw [plug_append, ← ht]
        rfl
      · obtain hf' | hf' := List.mem_append.mp hf'
        case inl => exact hf f hf'
        case inr => rw [List.mem_singleton.mp hf']

end Find

section Splice

theorem setParent_rep {q : Option Nat} (h : Rep T.nodeStorage p c) (hn : c.labels.Nodup) :
    Rep (T.setParent c.label q).nodeStorage q c := by
  cases c
  case nil => trivial
  case node a x b l r =>
    obtain ⟨hnode, hl, hr⟩ := h
    simp only [labels, List.nodup_cons, List.mem_append, not_or] at hn
    obtain ⟨⟨hal, har⟩, _⟩ := hn
    have h₁ : Changes T (T.modify a fun node => { node with parent := q }) [a] := .modify (.head _)
    refine ⟨?_, h₁.rep hl fun d hd hda => hal (List.mem_singleton.mp hda ▸ hd),
      h₁.rep hr fun d hd hda => har (List.mem_singleton.mp hda ▸ hd)⟩
    rw [label, setParent, getElem?_modify, if_pos rfl, hnode]
    rfl

theorem setParent_changes {q : Option Nat} : Changes T (T.setParent c.label q) c.labels :=
  .setParent fun _ ha => label_mem ha

-- The child of a node that is taken out is linked to the parent of the node.
theorem splice_spec (ha : Above T.nodeStorage p (f :: fs) (some a)) (hc : Rep T.nodeStorage (some a) c)
    (hn : ((f :: fs).flatMap IntervalTree.Frame.labels ++ c.labels).Nodup) :
    let T' := (T.modify f.label (setChild f.fromLeft c.label)).setParent c.label (some f.label)
    Rep T'.nodeStorage p (plug (f :: fs) c) ∧ Changes T T' (f.label :: c.labels) := by
  obtain ⟨hnode, hsib, habove⟩ := ha
  obtain ⟨hnf, hnc, hdc⟩ := List.nodup_append.mp hn
  rw [List.flatMap_cons] at hnf hdc
  obtain ⟨hnl, _, hdf⟩ := List.nodup_append.mp hnf
  obtain ⟨hfs, _⟩ := List.nodup_cons.mp hnl
  have h₁ : Changes T (T.modify f.label (setChild f.fromLeft c.label)) [f.label] := .modify (.head _)
  have h₂ : Changes (T.modify f.label (setChild f.fromLeft c.label))
      ((T.modify f.label (setChild f.fromLeft c.label)).setParent c.label (some f.label)) c.labels :=
    setParent_changes
  have hfc : f.label ∉ c.labels := fun hm => hdc f.label (by simp [IntervalTree.Frame.labels]) f.label hm rfl
  have hsc : ∀ d ∈ f.sibling.labels, d ∉ c.labels := fun d hd hm =>
    hdc d (by simp [IntervalTree.Frame.labels, hd]) d hm rfl
  refine ⟨rep_plug.mpr ⟨⟨?_, ?_, ?_⟩, ?_⟩, (h₁.mono (by simp)).trans (h₂.mono (by simp_all))⟩
  · rw [h₂.same _ hfc, getElem?_modify, if_pos rfl, hnode]
    unfold setChild
    by_cases hf : f.fromLeft = true <;> simp [hf, nodeOf]
  · exact h₂.rep (h₁.rep hsib fun d hd hda => hfs (List.mem_singleton.mp hda ▸ hd)) hsc
  · refine h₂.above (h₁.above habove fun d hd hda => ?_) fun d hd hm => ?_
    · obtain rfl := List.mem_singleton.mp hda
      exact hdf _ (.head _) _ hd rfl
    · exact hdc d (List.mem_append_right _ hd) d hm rfl
  · refine setParent_rep (p := some a) (h₁.rep hc fun d hd hda => hfc (List.mem_singleton.mp hda ▸ hd)) hnc

end Splice

section Splices

variable {b' : Int} {x' : Interval} {a' : Nat}

theorem labels_plug_node : ((plug fs (node a x b l r)).labels ++ dead).Perm
    (a :: (fs.flatMap IntervalTree.Frame.labels ++ (l.labels ++ r.labels) ++ dead)) := by
  refine (labels_plug.append_right dead).trans ?_
  rw [labels, List.append_assoc, List.append_assoc]
  exact List.perm_middle

theorem child_ne (h : a ∉ t.labels) : t.label ≠ some a :=
  fun he => h (label_mem he)

theorem setChild_left {child : Option Nat} :
    setChild true child = fun node => { node with left := child } := by
  funext node
  rfl

theorem setChild_right {child : Option Nat} :
    setChild false child = fun node => { node with right := child } := by
  funext node
  rfl

-- After the node is taken out, the bounds are fixed from its parent on.
theorem fixUp_splice (ha : Above T.nodeStorage p (f :: fs) (some a)) (hc : Rep T.nodeStorage (some a) c)
    (hd : Chain T.nodeStorage p dead)
    (hn : ((f :: fs).flatMap IntervalTree.Frame.labels ++ c.labels ++ dead).Nodup) (hT : T' = (T.modify f.label
      (setChild f.fromLeft c.label)).setParent c.label (some f.label)) :
    Rep T'.nodeStorage p (plug (f :: fs) c) ∧ Chain T'.nodeStorage p dead ∧ Changes T T' (f.label :: c.labels) := by
  obtain ⟨hn', _, hdisj⟩ := List.nodup_append.mp hn
  obtain ⟨hrep, hch⟩ := splice_spec ha hc hn'
  subst hT
  refine ⟨hrep, hch.chain hd fun d hd hm => ?_, hch⟩
  obtain rfl | hm := List.mem_cons.mp hm
  case inl => exact hdisj _ (by simp [IntervalTree.Frame.labels]) _ hd rfl
  case inr => exact hdisj d (List.mem_append_right _ hm) d hd rfl

theorem moveUpLeft_spec (h : Represents T (plug fs (node a x b l nil)) p dead) :
    Computes (T.moveUpLeft · a (nodeOf x b l.label none (parentOf p fs))) fun T' =>
      ∃ p' dead', Represents T' (plug (refresh Interval.end_ fs l) l) p' dead' := by
  have hn' := labels_plug_node.nodup_iff.mp h.nodup
  rw [labels, List.append_nil] at hn'
  obtain ⟨hna, hn⟩ := List.nodup_cons.mp hn'
  clear hn'
  obtain ⟨habove, hnode, hl, _⟩ := rep_plug.mp h.rep
  change Above T.nodeStorage p fs (some a) at habove
  cases fs
  case nil =>
    have hroot : T.root = some a := h.root
    refine ⟨{ T with root := l.label }, .of_forall fun fuel => by simp [moveUpLeft, hroot, nodeOf], ?_⟩
    by_cases hnil : l = nil
    case pos =>
      subst hnil
      exact ⟨none, [], rfl, trivial, rfl, by simp [refresh, plug, labels]⟩
    case neg =>
      refine ⟨some a, a :: dead, rfl, hl, ⟨rfl, _, hnode, fun c hc => ?_, by simp [nodeOf, label], h.chain⟩, ?_⟩
      · obtain ⟨node, hs⟩ := hl.isSome (label_mem hc)
        exact (List.getElem?_eq_some_iff.mp hs).1
      · have hn' : (a :: (l.labels ++ dead)).Nodup := List.nodup_cons.mpr ⟨by simpa using hna, by simpa using hn⟩
        exact List.perm_middle.nodup_iff.mpr hn'
  case cons f fs =>
    have hmem : ∀ g ∈ f :: fs, g.label ≠ a := by
      rintro g hg rfl
      exact hna (List.mem_append_left _ (List.mem_append_left _ (List.mem_flatMap.mpr ⟨g, hg, .head _⟩)))
    have hroot : T.root ≠ some a := by
      rw [h.root, label_plug, top]
      intro ht
      obtain ht | ⟨g, hg, he⟩ := top_mem ht
      case inl => exact hmem f (.head _) ht.symm
      case inr => exact hmem g (.tail _ hg) he
    have hsib : f.sibling.label ≠ some a := by
      refine child_ne fun hm => hna (List.mem_append_left _ (List.mem_append_left _ ?_))
      rw [List.flatMap_cons]
      exact List.mem_append_left _ (.tail _ hm)
    have hf := habove.1
    have hrun (fuel : Nat) : T.moveUpLeft fuel a (nodeOf x b l.label none (parentOf p (f :: fs))) =
        fixUp fuel ((T.modify f.label (setChild f.fromLeft l.label)).setParent l.label (some f.label)) (some a) := by
      have hparent : parentOf p (f :: fs) = some f.label := rfl
      simp only [moveUpLeft, hroot, if_false, nodeOf, hparent, Option.bind_eq_bind, Option.bind_some, hf]
      cases hfl : f.fromLeft
      case false =>
        simp only [hfl, hsib, if_false, hf, nodeOf, Option.bind_some, if_true, Bool.false_eq_true, setChild_right]
      case true =>
        have hf' : (T.modify f.label fun node => { node with left := l.label }).nodeStorage[f.label]? =
            some (nodeOf f.x f.bound l.label f.sibling.label (parentOf p fs)) := by
          rw [getElem?_modify, if_pos rfl, hf]
          simp [hfl, nodeOf]
        simp only [if_true, hf', nodeOf, Option.bind_some, hsib, if_false, setChild_left]
    simp only [hrun]
    generalize hT₁ : (T.modify f.label (setChild f.fromLeft l.label)).setParent l.label (some f.label) = T₁
    obtain ⟨hrep₁, hchain₁, hch₁⟩ := fixUp_splice habove hl h.chain hn hT₁.symm
    have hna₁ : a ∉ f.label :: l.labels := by
      intro hm
      obtain hm | hm := List.mem_cons.mp hm
      case inl => exact hmem f (.head _) hm.symm
      case inr => exact hna (by simp [hm])
    have hnode₁ : T₁.nodeStorage[a]? = some (nodeOf x b l.label none (some f.label)) := (hch₁.same a hna₁).trans hnode
    have hl₁ : Rep T₁.nodeStorage (some f.label) l := (rep_plug.mp hrep₁).2
    refine .of_succ ?_
    -- The node that is taken out is fixed as well.
    simp only [fixUp_succ hnode₁ (childEnd_spec hl₁) rfl]
    generalize hT₂ : T₁.modify a _ = T₂
    have hch₂ : Changes T₁ T₂ [a] := hT₂ ▸ .modify (.head _)
    have hperm : (plug (f :: fs) l).labels.Perm ((f :: fs).flatMap IntervalTree.Frame.labels ++ l.labels) :=
      labels_plug
    have hrep₂ : Rep T₂.nodeStorage p (plug (f :: fs) l) := hch₂.rep hrep₁ fun c hc hca => by
      obtain rfl := List.mem_singleton.mp hca
      exact hna (List.mem_append_left _ (hperm.mem_iff.mp hc))
    have hchain₂ : Chain T₂.nodeStorage p dead := hch₂.chain hchain₁ fun c hc hca => by
      obtain rfl := List.mem_singleton.mp hca
      exact hna (List.mem_append_right _ hc)
    have hn₂ : ((plug (f :: fs) l).labels ++ dead).Nodup := (hperm.append_right dead).nodup_iff.mpr hn
    refine .imp (fixUp_spec hrep₂ hchain₂ hn₂) ?_
    rintro T' ⟨hroot', hchain', hrep'⟩
    refine ⟨p, dead, ?_, hrep', hchain', ?_⟩
    · rw [hroot', hch₂.root, hch₁.root, h.root, label_plug, label_plug, top_refresh]
      rfl
    · refine ((labels_plug.append_right dead).trans ?_).nodup_iff.mpr hn
      rw [labels_refresh]

section Promote

variable {b' : Int} {x' : Interval} {a' : Nat}

-- The path from the leftmost node of the right subtree, after its entry has been moved up.
def promotedPath (gs fs : List Frame) (a : Nat) (x' : Interval) (b' : Int) (l : Tree) : List Frame :=
  gs ++ ⟨false, a, x', b', l⟩ :: fs

theorem labels_promotedPath : ((plug fs (node a x b l (plug gs (node a' x' b' nil r)))).labels ++ dead).Perm
    (a' :: ((promotedPath gs fs a x' b' l).flatMap IntervalTree.Frame.labels ++ r.labels ++ dead)) := by
  refine labels_plug_node.trans (List.perm_iff_count.mpr fun c => ?_)
  have hplug : (plug gs (node a' x' b' nil r)).labels.Perm
      (gs.flatMap IntervalTree.Frame.labels ++ (node a' x' b' nil r).labels) := labels_plug
  have hc := hplug.count_eq c
  simp only [labels, List.nil_append, List.count_append, List.count_cons] at hc
  simp only [promotedPath, List.flatMap_append, List.flatMap_cons, IntervalTree.Frame.labels, List.count_append,
    List.count_cons, List.cons_append, hc]
  omega

theorem promote_spec (h : Represents T (plug fs (node a x b l (plug gs (node a' x' b' nil r)))) p dead)
    {right : Nat} (hgs : ∀ f ∈ gs, f.fromLeft = true) (hleft : Returns (T.leftmost · right) a') :
    Computes (T.promote · a right) fun T' =>
      Represents T' (plug (refresh Interval.end_ (promotedPath gs fs a x' b' l) r) r) p dead := by
  have hn := labels_promotedPath.nodup_iff.mp h.nodup
  have hna := (List.nodup_cons.mp (labels_plug_node.nodup_iff.mp h.nodup)).1
  obtain ⟨habove, hrep⟩ := rep_plug.mp h.rep
  obtain ⟨hnode, hl, hr⟩ := hrep
  have hpromoted := (rep_plug.mp hr).2.1
  -- The entry is moved up.
  generalize hT₁ : T.modify a (fun node => { node with
    start := x'.start, end_ := x'.end_, subtreeEnd := b', chunk := x'.chunk }) = T₁
  have hch₁ : Changes T T₁ [a] := hT₁ ▸ .modify (.head _)
  have hd : ∀ c, c ∈ fs.flatMap IntervalTree.Frame.labels ++ (l.labels ++ (plug gs (node a' x' b' nil r)).labels) ++ dead →
      c ∉ [a] := by
    intro c hc hca
    exact hna (List.mem_singleton.mp hca ▸ hc)
  have hrep₁ : Rep T₁.nodeStorage p (plug (promotedPath gs fs a x' b' l) (node a' x' b' nil r)) := by
    rw [promotedPath, plug_append]
    refine rep_plug.mpr ⟨⟨?_, ?_, ?_⟩, ?_⟩
    · rw [← hT₁, getElem?_modify, if_pos rfl, hnode]
      rfl
    · exact hch₁.rep hl fun c hc => hd c (by simp [hc])
    · exact hch₁.above habove fun c hc => hd c (List.mem_append_left _ (List.mem_append_left _ hc))
    · exact hch₁.rep hr fun c hc => hd c (by simp [hc])
  have hchain₁ : Chain T₁.nodeStorage p dead := hch₁.chain h.chain fun c hc => hd c (by simp [hc])
  obtain ⟨f, fs', hpath⟩ : ∃ f fs', promotedPath gs fs a x' b' l = f :: fs' := by
    cases gs
    case nil       => exact ⟨_, _, rfl⟩
    case cons f gs => exact ⟨_, _, rfl⟩
  have hparent : parentOf (some a) gs = some f.label := by
    have hpp : parentOf (some a) gs = parentOf p (promotedPath gs fs a x' b' l) := by cases gs <;> rfl
    rw [hpp, hpath]
    rfl
  have hroot : T.root = top none (f :: fs') := by
    rw [h.root, label_plug, ← hpath, promotedPath, top_append]
    rfl
  rw [hpath] at hrep₁ hn ⊢
  obtain ⟨hna', hn'⟩ := List.nodup_cons.mp hn
  obtain ⟨habove₁, _, _, hr₁⟩ := rep_plug.mp hrep₁
  change Above T₁.nodeStorage p (f :: fs') (some a') at habove₁
  have hf := habove₁.1
  have hsib : f.sibling.label ≠ some a' := by
    refine child_ne fun hm => hna' (List.mem_append_left _ (List.mem_append_left _ ?_))
    rw [List.flatMap_cons]
    exact List.mem_append_left _ (.tail _ hm)
  generalize hT₂ : (T₁.modify f.label (setChild f.fromLeft r.label)).setParent r.label (some f.label) = T₂
  obtain ⟨hrep₂, hchain₂, hch₂⟩ := fixUp_splice habove₁ hr₁ hchain₁ hn' hT₂.symm
  have hperm : (plug (f :: fs') r).labels.Perm ((f :: fs').flatMap IntervalTree.Frame.labels ++ r.labels) :=
    labels_plug
  simp only [promote]
  refine .bind (P := fun toPromote => toPromote = a') ⟨a', hleft, rfl⟩ fun toPromote heq => ?_
  have hlink : (if (if f.fromLeft = true then some a' else f.sibling.label) = some a'
        then T₁.modify f.label (fun parent => { parent with left := r.label })
        else T₁.modify f.label (fun parent => { parent with right := r.label })) =
      T₁.modify f.label (setChild f.fromLeft r.label) := by
    cases hfl : f.fromLeft
    case false => simp [hsib, setChild_right]
    case true  => simp [setChild_left]
  simp only [heq, hpromoted, nodeOf, hT₁, hparent, Option.bind_eq_bind, Option.bind_some, hf, hlink, hT₂]
  refine .imp (fixUp_spec hrep₂ hchain₂ ((hperm.append_right dead).nodup_iff.mpr hn')) ?_
  rintro T' ⟨hroot', hchain', hrep'⟩
  refine ⟨?_, hrep', hchain', ?_⟩
  · rw [hroot', hch₂.root, hch₁.root, hroot, label_plug, top_refresh]
    rfl
  · refine ((labels_plug.append_right dead).trans ?_).nodup_iff.mpr hn'
    rw [labels_refresh]

end Promote
end Splices
end HeapSimulator.BufferIntervalTree
