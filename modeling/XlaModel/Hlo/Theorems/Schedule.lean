import XlaModel.Lib.Fallible
import XlaModel.Lib.ListSchedule
import XlaModel.Hlo.Schedule
import XlaModel.Hlo.Theorems.ReachabilityMap

namespace Hlo.HloSchedule

open Relation Fallible Fuel ListSchedule HloComputation

variable {c : HloComputation} {sequence sequence' done : List Nat}

section Invalidate

open Invalidate

-- The control predecessor is not scheduled before the instruction.
def Conflict (c : HloComputation) (sequence : List Nat) (inst pred : Nat) : Prop :=
  pred ∈ c.controlPredecessors inst ∧ pred ∈ c.instructions ∧ ∃ l₁ l₂, sequence = l₁ ++ inst :: l₂ ∧ pred ∉ l₁

theorem conflict_concat {inst pred x : Nat} : Conflict c (sequence ++ [x]) inst pred ↔ Conflict c sequence inst pred ∨
    (inst = x ∧ pred ∈ c.controlPredecessors inst ∧ pred ∈ c.instructions ∧ pred ∉ sequence) := by
  constructor
  case mp =>
    rintro ⟨hp, hi, l₁, l₂, hs, hl⟩
    obtain ⟨rfl, rfl⟩ | ⟨l, hs⟩ := eq_or_of_concat_eq hs
    case inl => exact .inr ⟨rfl, hp, hi, hl⟩
    case inr => exact .inl ⟨hp, hi, l₁, l, hs, hl⟩
  case mpr =>
    rintro (⟨hp, hi, l₁, l₂, rfl, hl⟩ | ⟨rfl, hp, hi, hl⟩)
    · exact ⟨hp, hi, l₁, l₂ ++ [x], by simp, hl⟩
    · exact ⟨hp, hi, sequence, [], rfl, hl⟩

theorem visit_spec {s : State} {inst : Nat} (h : inst ∉ c.controlPredecessors inst) :
    Yields (visit c s inst) fun s' => s'.seenInstructions = inst :: s.seenInstructions ∧
      ∀ x, x ∈ s'.invalidInstructions ↔ x ∈ s.invalidInstructions ∨ ∃ pred ∈ c.controlPredecessors inst,
        pred ∈ c.instructions ∧ pred ∉ s.seenInstructions ∧ (x = inst ∨ x = pred) := by
  refine .bind (P := fun s' => s'.seenInstructions = s.seenInstructions ∧ ∀ x, x ∈ s'.invalidInstructions ↔
    x ∈ s.invalidInstructions ∨ ∃ pred ∈ c.controlPredecessors inst,
      pred ∈ c.instructions ∧ pred ∉ s.seenInstructions ∧ (x = inst ∨ x = pred)) ?_ fun s' h => .pure ⟨by rw [h.1], h.2⟩
  generalize c.controlPredecessors inst = preds at h ⊢
  induction preds generalizing s
  case nil => exact .pure (by simp)
  case cons pred preds hi =>
    have hne : pred ≠ inst := fun he => h (he ▸ .head _)
    have hi := fun s => hi (s := s) fun hm => h (.tail _ hm)
    rw [List.foldlM_cons, visitPredecessor, if_neg hne]
    split_ifs with hp
    case pos =>
      refine (hi _).imp fun s' h => ⟨h.1, fun x => ?_⟩
      rw [h.2, List.exists_mem_cons_iff, and_iff_right hp.1, and_iff_right hp.2, List.mem_cons, List.mem_cons, ← or_assoc]
      exact (or_congr_left (or_comm.trans (or_congr_right or_comm))).trans or_assoc
    case neg =>
      refine (hi s).imp fun s' h => ⟨h.1, fun x => ?_⟩
      rw [h.2, List.exists_mem_cons_iff]
      exact or_congr_right (or_iff_right fun hq => hp ⟨hq.1, hq.2.1⟩).symm

theorem invalidInstructions_spec (h : ∀ x ∈ sequence, x ∉ c.controlPredecessors x) :
    Yields (invalidInstructions c sequence) fun invalid =>
      ∀ x, x ∈ invalid ↔ ∃ inst pred, Conflict c sequence inst pred ∧ (x = inst ∨ x = pred) := by
  let Inv (rest : List Nat) (s : State) : Prop := ∃ done, sequence = done ++ rest ∧
    (∀ x, x ∈ s.seenInstructions ↔ x ∈ done) ∧
    ∀ x, x ∈ s.invalidInstructions ↔ ∃ inst pred, Conflict c done inst pred ∧ (x = inst ∨ x = pred)
  have hi : Inv sequence ⟨[], []⟩ := ⟨[], by simp [Conflict]⟩
  refine .bind (.foldlM Inv hi ?_) ?_
  · rintro inst rest s ⟨done, rfl, hs, hi⟩
    refine (visit_spec (h inst (by simp))).imp fun s' h' => ⟨done ++ [inst], by simp, fun x => ?_, fun x => ?_⟩
    · rw [h'.1, List.mem_cons, List.mem_append, List.mem_singleton, hs, or_comm]
    · simp only [h'.2, hi, hs, conflict_concat]
      constructor
      case mp =>
        rintro (⟨i, p, hc, hx⟩ | ⟨p, hp, hpi, hps, hx⟩)
        · exact ⟨i, p, .inl hc, hx⟩
        · exact ⟨inst, p, .inr ⟨rfl, hp, hpi, hps⟩, hx⟩
      case mpr =>
        rintro ⟨i, p, hc | ⟨rfl, hp, hpi, hps⟩, hx⟩
        · exact .inl ⟨i, p, hc, hx⟩
        · exact .inr ⟨p, hp, hpi, hps, hx⟩
  · rintro s ⟨done, hd, -, hi⟩
    rw [List.append_nil] at hd
    exact .pure (hd ▸ hi)

theorem foldl_removeInstruction {invalid : List Nat} (h : sequence.Nodup) :
    invalid.foldl (removeInstruction c) sequence = sequence.filter fun x => ¬(x ∈ invalid ∧ x ∈ c.instructions) := by
  induction invalid generalizing sequence
  case nil => simp
  case cons y invalid hi =>
    have hr : removeInstruction c sequence y = sequence.filter fun x => ¬(x = y ∧ x ∈ c.instructions) := by
      rw [removeInstruction]
      split_ifs with hy
      case pos =>
        rw [h.erase_eq_filter]
        refine List.filter_congr fun x _ => ?_
        by_cases hx : x = y <;> simp [hx, hy.2]
      case neg =>
        refine (List.filter_eq_self.mpr fun x hx => ?_).symm
        rw [decide_eq_true_eq]
        rintro ⟨rfl, hi⟩
        exact hy ⟨hx, hi⟩
    rw [List.foldl_cons, hr, hi (h.filter _), List.filter_filter]
    refine List.filter_congr fun x _ => ?_
    simp only [List.mem_cons, ← Bool.decide_and, decide_eq_decide]
    tauto

end Invalidate

section Update

open Update

def predecessors (c : HloComputation) (x : Nat) : List Nat :=
  c.operands x ++ c.controlPredecessors x

-- The instructions that are not in the sequence.
def unscheduled (c : HloComputation) (sequence : List Nat) : List Nat :=
  c.instructions.filter (· ∉ sequence)

-- The maps reflect which instructions have already been placed.
structure Tracks (c : HloComputation) (placed : List Nat) (u : Update) : Prop where
  nodup : ∀ p, (u.newInstructionSuccessors p).Nodup
  mem   : ∀ p v, v ∈ u.newInstructionSuccessors p ↔ v ∈ placed ∧ p ∈ predecessors c v
  count : ∀ v ∈ placed, predecessors c v ≠ [] → u.unscheduledPredecessorCount v =
    some ((predecessors c v).dedup.filter (· ∉ u.newSequence)).length

section Init

variable {preds placed : List Nat} {successors : Nat → List Nat} {instruction p : Nat}

theorem foldl_addPredecessor (h : ∀ p, instruction ∉ successors p) :
    preds.foldl (addPredecessor instruction) successors p =
      if p ∈ preds then successors p ++ [instruction] else successors p := by
  have hl {preds : List Nat} {successors : Nat → List Nat} : preds.foldl (addPredecessor instruction) successors p =
      if p ∈ preds ∧ instruction ∉ successors p then successors p ++ [instruction] else successors p := by
    induction preds generalizing successors
    case nil => simp
    case cons pred preds hi =>
      rw [List.foldl_cons, hi, addPredecessor]
      by_cases hs : instruction ∈ successors pred
      case pos => by_cases hp : p = pred <;> simp [hs, hp]
      case neg => by_cases hp : p = pred <;> simp [hs, hp]
  simp [hl, h p]

theorem foldl_addNewInstruction (h : placed.Nodup) : Tracks c placed (placed.foldl (addNewInstruction c) .empty) ∧
    (placed.foldl (addNewInstruction c) .empty).newSequence = [] ∧
    (placed.foldl (addNewInstruction c) .empty).worklist = placed.filter (predecessors c · = []) := by
  induction placed using List.reverseRecOn
  case nil => exact ⟨⟨by simp [empty], by simp [empty], by simp⟩, rfl, rfl⟩
  case append_singleton placed x hi =>
    obtain ⟨ht, hs, hw⟩ := hi h.of_append_left
    have hx : x ∉ placed := fun hx => (List.nodup_append.mp h).2.2 x hx x (.head _) rfl
    rw [List.foldl_concat, List.filter_append, ← hw, addNewInstruction]
    by_cases hp : c.operands x = [] ∧ c.controlPredecessors x = []
    case pos =>
      have hp' : predecessors c x = [] := List.append_eq_nil_iff.mpr hp
      rw [if_pos hp]
      refine ⟨⟨ht.nodup, fun p v => ?_, fun v hv hn => ?_⟩, hs, by simp [hp']⟩
      · rw [ht.mem, List.mem_append, List.mem_singleton]
        constructor
        case mp => exact fun hv => ⟨.inl hv.1, hv.2⟩
        case mpr =>
          rintro ⟨hv | rfl, hv'⟩
          · exact ⟨hv, hv'⟩
          · rw [hp'] at hv'
            cases hv'
      · obtain hv | hv := List.mem_append.mp hv
        case inl => exact ht.count v hv hn
        case inr => exact absurd (List.mem_singleton.mp hv ▸ hp') hn
    case neg =>
      have hp' : predecessors c x ≠ [] := fun he => hp (List.append_eq_nil_iff.mp he)
      have hn (p : Nat) : x ∉ (placed.foldl (addNewInstruction c) .empty).newInstructionSuccessors p :=
        fun hm => hx ((ht.mem p x).mp hm).1
      rw [if_neg hp]
      refine ⟨⟨fun p => ?_, fun p v => ?_, fun v hv hn => ?_⟩, hs, by simp [hp']⟩
      · simp only [foldl_addPredecessor hn]
        split_ifs
        case pos => exact List.concat_eq_append ▸ (List.nodup_concat ..).mpr ⟨hn p, ht.nodup p⟩
        case neg => exact ht.nodup p
      · simp only [foldl_addPredecessor hn]
        change v ∈ (if p ∈ predecessors c x then _ else _) ↔ _
        rw [List.mem_append, List.mem_singleton, or_and_right, ← ht.mem]
        split_ifs with hpx
        case pos =>
          rw [List.mem_append, List.mem_singleton]
          exact or_congr_right ⟨fun he => ⟨he, he ▸ hpx⟩, And.left⟩
        case neg => exact (or_iff_left fun (he : v = x ∧ p ∈ predecessors c v) => hpx (he.1 ▸ he.2)).symm
      · by_cases hvx : v = x
        case pos =>
          subst hvx
          have hs : (placed.foldl (addNewInstruction c) empty).newSequence = [] := hs
          simp [hs, predecessors]
        case neg =>
          have hv : v ∈ placed := by simpa [hvx] using hv
          exact (Function.update_of_ne hvx ..).trans (ht.count v hv hn)

end Init

section Worklist

variable {u : Update} {placed kept worklist successors : List Nat} {x v : Nat}

theorem foldlM_scheduleSuccessor (hn : successors.Nodup) (f : Nat → Nat)
    (hc : ∀ v ∈ successors, u.unscheduledPredecessorCount v = some (f v + 1)) :
    successors.foldlM scheduleSuccessor u = some { u with
      unscheduledPredecessorCount := fun v => if v ∈ successors then some (f v) else u.unscheduledPredecessorCount v
      worklist                    := u.worklist ++ successors.filter (f · = 0) } := by
  induction successors generalizing u
  case nil => simp
  case cons v successors hi =>
    obtain ⟨hv, hn⟩ := List.nodup_cons.mp hn
    rw [List.foldlM_cons, scheduleSuccessor, hc v (.head _), Option.bind_eq_bind, Option.bind_some, hi hn]
    · congr 2
      · funext w
        by_cases hw : w = v
        case pos => simp [hw, hv]
        case neg => simp [hw]
      · by_cases hz : f v = 0 <;> simp [hz]
    · intro w hw
      exact (Function.update_of_ne (fun (he : w = v) => hv (he ▸ hw)) ..).trans (hc w (.tail _ hw))

theorem length_filter_concat {l s : List Nat} (h : l.Nodup) (hx : x ∈ l) (hs : x ∉ s) :
    (l.filter (· ∉ s)).length = (l.filter (· ∉ s ++ [x])).length + 1 := by
  have he : l.filter (· ∉ s ++ [x]) = (l.filter (· ∉ s)).erase x := by
    rw [(h.filter _).erase_eq_filter, List.filter_filter]
    refine List.filter_congr fun y _ => ?_
    by_cases hy : y = x <;> simp [hy]
  have hm : x ∈ l.filter (· ∉ s) := List.mem_filter.mpr ⟨hx, by simpa⟩
  rw [he, List.length_erase_of_mem hm, Nat.sub_add_cancel (List.length_pos_of_mem hm)]

theorem edge_iff (hv : v ∈ c.instructions) {p : Nat} : c.Edge p v ↔ p ∈ predecessors c v := by
  rw [Edge, and_iff_right hv, predecessors, List.mem_append]

-- Placing an instruction adds the instructions that become ready to the worklist.
theorem Tracks.place (h : Tracks c placed u) (worklist : List Nat) (hp : ∀ v ∈ placed, v ∈ c.instructions) (hx : x ∉ u.newSequence) :
    Yields (((u.newInstructionSuccessors x).foldlM scheduleSuccessor
      { u with worklist, newSequence := u.newSequence ++ [x] })) fun u' =>
      Tracks c placed u' ∧ u'.newSequence = u.newSequence ++ [x] ∧
      ∃ added, u'.worklist = worklist ++ added ∧ Adds c.Edge placed u.newSequence x added := by
  let f (v : Nat) : Nat := ((predecessors c v).dedup.filter (· ∉ u.newSequence ++ [x])).length
  have hf : ∀ v ∈ u.newInstructionSuccessors x, u.unscheduledPredecessorCount v = some (f v + 1) := by
    intro v hv
    obtain ⟨hv, hxv⟩ := (h.mem x v).mp hv
    rw [h.count v hv (List.ne_nil_of_mem hxv),
      length_filter_concat (List.nodup_dedup _) (List.mem_dedup.mpr hxv) hx]
  rw [foldlM_scheduleSuccessor (u := { u with worklist, newSequence := u.newSequence ++ [x] }) (h.nodup x) f hf]
  refine .pure ⟨⟨h.nodup, h.mem, fun v hv hn => ?count⟩, rfl, _, rfl, (h.nodup x).filter _, fun v => ?mem_iff⟩
  case count =>
    by_cases hxv : x ∈ predecessors c v
    case pos => exact if_pos ((h.mem x v).mpr ⟨hv, hxv⟩)
    case neg =>
      refine (if_neg fun hm => hxv ((h.mem x v).mp hm).2).trans ((h.count v hv hn).trans ?_)
      congr 2
      refine List.filter_congr fun p hp => ?_
      have hpx : p ≠ x := fun he => hxv (he ▸ List.mem_dedup.mp hp)
      simp [hpx]
  case mem_iff =>
    rw [List.mem_filter, h.mem, decide_eq_true_eq, List.length_eq_zero_iff, List.filter_eq_nil_iff]
    by_cases hv : v ∈ placed
    case pos => simp only [edge_iff (hp v hv), and_assoc, List.mem_dedup, decide_eq_true_eq, not_not]
    case neg => simp [hv]

theorem length_newSequence_le {s wl : List Nat} (h : Progress c.Edge kept placed s wl) :
    (s ++ wl).length ≤ (kept ++ placed).length := by
  refine (h.nodup.subperm fun v hv => ?_).length_le
  rw [List.mem_append]
  obtain hv | hv := List.mem_append.mp hv
  case inl => exact h.mem v hv
  case inr => exact .inr (h.worklist v hv)

-- What holds when all instructions on the worklist are placed.
structure Drained (c : HloComputation) (kept placed : List Nat) (u : Update) : Prop where
  tracks   : Tracks c placed u
  progress : Progress c.Edge kept placed u.newSequence []
  worklist : u.worklist = []

theorem scheduleWorklist_computes (kept : List Nat) (hp : ∀ v ∈ placed, v ∈ c.instructions) (ht : Tracks c placed u)
    (hg : Progress c.Edge kept placed u.newSequence u.worklist) :
    Computes (scheduleWorklist · u) (Drained c kept placed) := by
  -- Every step places an instruction.
  induction hm : (kept ++ placed).length - u.newSequence.length using Nat.strong_induction_on generalizing u
  case h m hi =>
    refine .of_succ ?_
    cases hw : u.worklist
    case nil =>
      simp only [scheduleWorklist, hw]
      exact .pure ⟨ht, hw ▸ hg, hw⟩
    case cons x worklist =>
      rw [hw] at hg
      have hx : x ∉ u.newSequence := fun hx => (List.nodup_append.mp hg.nodup).2.2 x hx x (.head _) rfl
      obtain ⟨u', hu, ht', hs, added, hw', ha⟩ := ht.place worklist hp hx
      simp only [scheduleWorklist, hw, hu, Option.bind_eq_bind, Option.bind_some]
      refine hi _ ?_ ht' (hs ▸ hw' ▸ hg.pop ha) rfl
      have := length_newSequence_le hg
      rw [← hm, hs]
      simp only [List.length_append, List.length_cons, List.length_nil] at this ⊢
      omega

theorem scheduleId_computes (hp : ∀ v ∈ placed, v ∈ c.instructions) (h : Drained c kept placed u) (hk : x ∉ kept)
    (hx : x ∉ placed) :
    Computes (scheduleId c · u x) (Drained c (if x ∈ c.instructions then kept ++ [x] else kept) placed) := by
  simp only [scheduleId]
  split_ifs
  case pos =>
    have hxs : x ∉ u.newSequence := fun hm => (h.progress.mem x hm).elim hk hx
    obtain ⟨u', hu, ht', hs, added, hw', ha⟩ := h.tracks.place [] hp hxs
    refine .of_succ ?_
    simp only [scheduleWorklist, h.worklist, List.nil_append, hu, Option.bind_eq_bind, Option.bind_some]
    exact scheduleWorklist_computes _ hp ht' (hs ▸ hw' ▸ h.progress.replay ha hk hx)
  case neg => exact .pure h

end Worklist
end Update

section Verify

open Verify

theorem forM_ok {f : α → Except ε Unit} {xs : List α} (h : ∀ x ∈ xs, f x = .ok ()) : xs.forM f = .ok () := by
  induction xs
  case nil => rfl
  case cons x xs hi =>
    rw [show (x :: xs).forM f = (f x >>= fun _ => xs.forM f) from rfl, h x (.head _)]
    exact hi fun y hy => h y (.tail _ hy)

theorem foldlM_insertPosition (h : (done ++ sequence).Nodup) :
    sequence.foldlM insertPosition done = .ok (done ++ sequence) := by
  induction sequence generalizing done
  case nil => simp [pure, Except.pure]
  case cons x sequence hi =>
    have hx : x ∉ done := fun hx => (List.nodup_append.mp h).2.2 x hx x (.head _) rfl
    rw [List.append_cons] at h ⊢
    rw [List.foldlM_cons, insertPosition, if_neg hx]
    exact hi h

theorem checkBefore_ok {x p : Nat} {error : Nat → VerifyError} (hx : x ∈ sequence) (hp : p ∈ sequence)
    (h : sequence.idxOf p < sequence.idxOf x) : checkBefore sequence x error p = .ok () := by
  simp [checkBefore, at?, hx, hp, h, bind, Except.bind, pure, Except.pure]

theorem verify_ok (hp : sequence.Perm c.instructions) (hn : sequence.Nodup) (hm : ∀ {p x}, c.Edge p x → p ∈ c.instructions)
    (hb : ∀ p x, c.Edge p x → sequence.idxOf p < sequence.idxOf x) : verify c sequence = .ok () := by
  have hc {x p : Nat} (error : Nat → VerifyError) (he : c.Edge p x) : checkBefore sequence x error p = .ok () :=
    checkBefore_ok (hp.mem_iff.mpr he.1) (hp.mem_iff.mpr (hm he)) (hb p x he)
  rw [verify, foldlM_insertPosition (by simpa using hn)]
  simp only [bind, Except.bind, List.nil_append, checkCount, hp.length_eq, if_true, pure, Except.pure]
  rw [forM_ok fun x hx => if_pos (hp.mem_iff.mpr hx)]
  refine forM_ok fun x hx => ?_
  rw [forM_ok fun p hpx => hc _ ⟨hx, .inl hpx⟩]
  exact forM_ok fun p hpx => hc _ ⟨hx, .inr hpx⟩

end Verify

-- A computation after its instructions have changed, with a sequence from before.
structure Updated (c : HloComputation) (sequence : List Nat) : Prop where
  valid      : c.Valid
  nodup      : sequence.Nodup
  removed    : ∀ x ∈ sequence, x ∉ c.instructions → c.controlPredecessors x = []
  compatible : ∀ x ∈ sequence, ∀ y ∈ sequence, TransGen c.Edge x y → sequence.idxOf x < sequence.idxOf y

def survivors (c : HloComputation) (sequence : List Nat) : List Nat :=
  sequence.filter (· ∈ c.instructions)

-- What the update of a sequence has to achieve.
structure Updates (c : HloComputation) (sequence s : List Nat) : Prop where
  perm   : s.Perm c.instructions
  verify : verify c s = .ok ()
  order  : (survivors c sequence).Sublist s
  early  : ∀ x ∈ unscheduled c sequence, ∀ k ∈ survivors c sequence,
    (∀ p ∈ predecessors c x, s.idxOf p < s.idxOf k) → s.idxOf x < s.idxOf k

-- The surviving instructions that have a new control predecessor.
def Rescheduled (c : HloComputation) (sequence : List Nat) (x : Nat) : Prop :=
  x ∈ survivors c sequence ∧ ∃ p ∈ c.controlPredecessors x, p ∉ sequence

def kept (c : HloComputation) (sequence : List Nat) : List Nat :=
  (survivors c sequence).filter fun x => ∀ p ∈ c.controlPredecessors x, p ∈ sequence

theorem mem_survivors {x : Nat} : x ∈ survivors c sequence ↔ x ∈ sequence ∧ x ∈ c.instructions := by
  rw [survivors, List.mem_filter, decide_eq_true_eq]

theorem mem_kept {x : Nat} : x ∈ kept c sequence ↔ x ∈ survivors c sequence ∧ ¬Rescheduled c sequence x := by
  rw [kept, List.mem_filter, decide_eq_true_eq, Rescheduled]
  refine and_congr_right fun hx => ?_
  simp [hx]

theorem mem_unscheduled {x : Nat} : x ∈ unscheduled c sequence ↔ x ∈ c.instructions ∧ x ∉ sequence := by
  rw [unscheduled, List.mem_filter, decide_eq_true_eq]

theorem kept_sublist : (kept c sequence).Sublist sequence :=
  List.filter_sublist.trans List.filter_sublist

namespace Updated

variable (h : Updated c sequence)
include h

theorem not_self {x : Nat} (hx : x ∈ sequence) : x ∉ c.controlPredecessors x := by
  intro hp
  by_cases hi : x ∈ c.instructions
  case pos => exact h.valid.acyclic x (.single ⟨hi, .inr hp⟩)
  case neg => simp [h.removed x hx hi] at hp

-- Only new instructions conflict with the instructions of the sequence.
theorem conflict_iff {inst pred : Nat} :
    Conflict c sequence inst pred ↔ inst ∈ survivors c sequence ∧ pred ∈ c.controlPredecessors inst ∧ pred ∉ sequence := by
  rw [mem_survivors]
  constructor
  case mp =>
    rintro ⟨hp, hpi, l₁, l₂, rfl, hl⟩
    have hm : inst ∈ l₁ ++ inst :: l₂ := by simp
    have hi : inst ∈ c.instructions := by
      by_contra hi
      simp [h.removed inst hm hi] at hp
    refine ⟨⟨hm, hi⟩, hp, fun hps => hl ?_⟩
    have := h.compatible pred hps inst hm (.single ⟨hi, .inr hp⟩)
    exact (mem_left_iff h.nodup).mpr ⟨hps, this⟩
  case mpr =>
    rintro ⟨⟨hm, hi⟩, hp, hps⟩
    obtain ⟨l₁, l₂, rfl⟩ := List.append_of_mem hm
    exact ⟨hp, h.valid.mem ⟨hi, .inr hp⟩, l₁, l₂, rfl, fun hl => hps (List.mem_append_left _ hl)⟩

-- The instructions that are left in the sequence when the conflicts have been removed.
theorem filter_invalid {invalid : List Nat}
    (hi : ∀ x, x ∈ invalid ↔ ∃ inst pred, Conflict c sequence inst pred ∧ (x = inst ∨ x = pred)) :
    (sequence.filter fun x => ¬(x ∈ invalid ∧ x ∈ c.instructions)).filter (· ∈ c.instructions) = kept c sequence := by
  rw [kept, survivors, List.filter_filter, List.filter_filter]
  refine List.filter_congr fun x hx => ?_
  by_cases hc : x ∈ c.instructions
  case pos =>
    have hr : x ∈ invalid ↔ ¬∀ p ∈ c.controlPredecessors x, p ∈ sequence := by
      rw [hi]
      push Not
      constructor
      case mp =>
        rintro ⟨inst, pred, hcf, rfl | rfl⟩
        · exact ⟨pred, (h.conflict_iff.mp hcf).2⟩
        · exact absurd hx (h.conflict_iff.mp hcf).2.2
      case mpr =>
        rintro ⟨p, hp⟩
        exact ⟨x, p, h.conflict_iff.mpr ⟨mem_survivors.mpr ⟨hx, hc⟩, hp⟩, .inl rfl⟩
    simp only [hc, hr, and_true, not_not, decide_true, Bool.true_and, Bool.and_true]
  case neg => simp [hc]

theorem updateComputationSchedule_progress : Computes (updateComputationSchedule c · sequence) fun s =>
    Progress c.Edge (kept c sequence) (unscheduled c (kept c sequence)) s [] := by
  obtain ⟨invalid, hv, hi⟩ := invalidInstructions_spec (c := c) fun x hx => h.not_self hx
  have hk := h.filter_invalid hi
  simp only [updateComputationSchedule, h.valid.nodup, not_true_eq_false, if_false, hv, Option.bind_eq_bind,
    Option.bind_some, foldl_removeInstruction h.nodup]
  generalize hs : sequence.filter (fun x => ¬(x ∈ invalid ∧ x ∈ c.instructions)) = sequence' at hk
  have hn : sequence'.Nodup := hs ▸ h.nodup.filter _
  have hu : unscheduled c sequence' = unscheduled c (kept c sequence) := by
    refine List.filter_congr fun x hx => ?_
    simp [← hk, List.mem_filter, hx]
  simp only [hn, not_true_eq_false, if_false]
  change Computes (fun n => do
    let u ← Update.scheduleWorklist n ((unscheduled c sequence').foldl (Update.addNewInstruction c) .empty)
    let u ← sequence'.foldlM (Update.scheduleId c n) u
    some u.newSequence) _
  rw [hu]
  have hp : ∀ v ∈ unscheduled c (kept c sequence), v ∈ c.instructions := fun v hv => (mem_unscheduled.mp hv).1
  obtain ⟨ht, hns, hw⟩ := foldl_addNewInstruction (c := c) (h.valid.nodup.filter (· ∉ kept c sequence))
  refine (scheduleWorklist_computes [] hp ht ?_).bind fun u hd => ?_
  · rw [hns, hw]
    refine .init ((h.valid.nodup.filter _).filter _) fun v => ?_
    rw [List.mem_filter, decide_eq_true_eq]
    refine and_congr_right fun hv => ?_
    simp only [edge_iff (hp v hv), List.eq_nil_iff_forall_not_mem]
  · refine Computes.bind (P := Drained c (kept c sequence) (unscheduled c (kept c sequence))) ?_ fun u hd => .pure hd.progress
    let Inv (rest : List Nat) (u : Update) : Prop := ∃ done, sequence' = done ++ rest ∧
      Drained c (done.filter (· ∈ c.instructions)) (unscheduled c (kept c sequence)) u
    refine (Computes.foldlM Inv ⟨[], rfl, hd⟩ ?_).imp ?_
    · rintro x rest u ⟨done, hdr, hd⟩
      have hx : x ∉ done := by
        intro hx
        rw [hdr] at hn
        exact (List.nodup_append.mp hn).2.2 x hx x (.head _) rfl
      have hxp : x ∉ unscheduled c (kept c sequence) := by
        rw [← hu, mem_unscheduled, not_and_not_right]
        exact fun _ => hdr ▸ by simp
      refine (scheduleId_computes hp hd (fun hm => hx (List.mem_of_mem_filter hm)) hxp).imp fun u hd => ?_
      refine ⟨done ++ [x], by simpa using hdr, ?_⟩
      rw [List.filter_append]
      by_cases hxc : x ∈ c.instructions <;> simpa [hxc] using hd
    · rintro u ⟨done, hdr, hd⟩
      rw [List.append_nil] at hdr
      have hd : Drained c (sequence'.filter (· ∈ c.instructions)) (unscheduled c (kept c sequence)) u := hdr ▸ hd
      rwa [hk] at hd

section Result

variable {s : List Nat} (hp : Progress c.Edge (kept c sequence) (unscheduled c (kept c sequence)) s [])
include hp

omit hp in
theorem mem_kept_or_unscheduled {p x : Nat} (he : c.Edge p x) :
    p ∈ kept c sequence ∨ p ∈ unscheduled c (kept c sequence) := by
  by_cases hk : p ∈ kept c sequence
  case pos => exact .inl hk
  case neg => exact .inr (mem_unscheduled.mpr ⟨h.valid.mem he, hk⟩)

omit h in
theorem progress_nodup : s.Nodup :=
  s.append_nil ▸ hp.nodup

theorem progress_perm : s.Perm c.instructions := by
  refine (List.perm_ext_iff_of_nodup (progress_nodup hp) h.valid.nodup).mpr fun x => ⟨fun hx => ?_, fun hx => ?_⟩
  · obtain hk | hu := hp.mem x hx
    case inl => exact (mem_survivors.mp (mem_kept.mp hk).1).2
    case inr => exact (mem_unscheduled.mp hu).1
  · by_cases hk : x ∈ kept c sequence
    case pos => exact hp.sublist.subset hk
    case neg =>
      exact hp.complete h.valid.wellFounded (fun v _ p he => h.mem_kept_or_unscheduled he) x
        (mem_unscheduled.mpr ⟨hx, hk⟩)

-- The instructions that are kept are in the same order in both sequences.
theorem kept_order {a b : Nat} (ha : a ∈ kept c sequence) (hb : b ∈ kept c sequence) :
    s.idxOf a < s.idxOf b ↔ sequence.idxOf a < sequence.idxOf b := by
  rw [idxOf_lt_iff_of_sublist hp.sublist (progress_nodup hp) ha hb, idxOf_lt_iff_of_sublist kept_sublist h.nodup ha hb]

theorem progress_before (p x : Nat) (he : c.Edge p x) : s.idxOf p < s.idxOf x := by
  obtain ⟨l₁, l₂, rfl⟩ := List.append_of_mem ((h.progress_perm hp).mem_iff.mpr he.1)
  refine ((mem_left_iff (progress_nodup hp)).mp ?_).2
  by_cases hx : x ∈ kept c sequence
  case pos =>
    refine hp.mem_of_ancestor h.valid.wellFounded (fun v _ p he => h.mem_kept_or_unscheduled he) rfl hx
      (Q := (TransGen c.Edge · x)) (fun p v he ht => ht.head he) (fun k hk ht => ?_) p (.single he)
      (h.mem_kept_or_unscheduled he)
    have hks := (mem_survivors.mp (mem_kept.mp hk).1).1
    have hxs := (mem_survivors.mp (mem_kept.mp hx).1).1
    exact (mem_left_iff (progress_nodup hp)).mpr
      ⟨hp.sublist.subset hk, (h.kept_order hp hk hx).mpr (h.compatible k hks x hxs ht)⟩
  case neg => exact hp.ready rfl (mem_unscheduled.mpr ⟨he.1, hx⟩) p he

theorem progress_early {x k : Nat} (hx : x ∈ unscheduled c (kept c sequence)) (hk : k ∈ kept c sequence)
    (hb : ∀ p ∈ predecessors c x, s.idxOf p < s.idxOf k) : s.idxOf x < s.idxOf k := by
  have hks : k ∈ s := hp.sublist.subset hk
  obtain ⟨l₁, l₂, rfl⟩ := List.append_of_mem hks
  refine ((mem_left_iff (progress_nodup hp)).mp (hp.early rfl hk x hx fun p he => ?_)).2
  refine (mem_left_iff (progress_nodup hp)).mpr ⟨(h.progress_perm hp).mem_iff.mpr (h.valid.mem he), hb p ?_⟩
  exact (edge_iff he.1).mp he

theorem progress_updates (hr : ∀ x, ¬Rescheduled c sequence x) : Updates c sequence s := by
  have hk : kept c sequence = survivors c sequence :=
    List.filter_eq_self.mpr fun x hx => by
      rw [decide_eq_true_eq]
      by_contra hn
      push Not at hn
      exact hr x ⟨hx, hn⟩
  have hv := verify_ok (h.progress_perm hp) (progress_nodup hp) h.valid.mem (h.progress_before hp)
  refine ⟨h.progress_perm hp, hv, hk ▸ hp.sublist, fun x hx k hks => h.progress_early hp ?_ (hk.symm ▸ hks)⟩
  rw [mem_unscheduled, hk, mem_survivors] at *
  exact ⟨hx.1, fun hm => hx.2 hm.1⟩

-- A rescheduled instruction passes a kept one that it does not depend on.
theorem progress_passes {x k : Nat} (hx : Rescheduled c sequence x) (hk : k ∈ kept c sequence)
    (hl : ∀ k' ∈ kept c sequence, sequence.idxOf k' < sequence.idxOf x → sequence.idxOf k' ≤ sequence.idxOf k)
    (ht : ¬TransGen c.Edge k x) : s.idxOf x < s.idxOf k := by
  have hks : k ∈ s := hp.sublist.subset hk
  obtain ⟨l₁, l₂, rfl⟩ := List.append_of_mem hks
  have hxk : x ∉ kept c sequence := fun hm => (mem_kept.mp hm).2 hx
  have hxs := mem_survivors.mp hx.1
  refine ((mem_left_iff (progress_nodup hp)).mp ?_).2
  refine hp.mem_of_ancestor h.valid.wellFounded (fun v _ p he => h.mem_kept_or_unscheduled he) rfl hk
    (Q := (ReflTransGen c.Edge · x)) (fun p v he hr => hr.head he) (fun k' hk' hr => ?_) x .refl
    (.inr (mem_unscheduled.mpr ⟨hxs.2, hxk⟩))
  obtain rfl | hr := reflTransGen_iff_eq_or_transGen.mp hr
  case inl => exact absurd hk' hxk
  case inr =>
    have hk's := (mem_survivors.mp (mem_kept.mp hk').1).1
    have hle := hl k' hk' (h.compatible k' hk's x hxs.1 hr)
    have hne : sequence.idxOf k' ≠ sequence.idxOf k := by
      intro he
      obtain rfl := (List.idxOf_inj hk's).mp he
      exact ht hr
    exact (mem_left_iff (progress_nodup hp)).mpr
      ⟨hp.sublist.subset hk', (h.kept_order hp hk' hk).mpr (lt_of_le_of_ne hle hne)⟩

end Result
end Updated

-- The update always leads to a valid schedule. It keeps the order if no surviving instruction has a new control
-- predecessor. Otherwise, it only does so if such an instruction depends on the last instruction that is kept before it.
theorem updateComputationSchedule_updates (h : Updated c sequence) :
    Computes (updateComputationSchedule c · sequence) fun s =>
      s.Perm c.instructions ∧ verify c s = .ok () ∧
      ((∀ x, ¬Rescheduled c sequence x) → Updates c sequence s) ∧
      (Updates c sequence s → ∀ x, Rescheduled c sequence x → ∀ k ∈ kept c sequence,
        sequence.idxOf k < sequence.idxOf x →
        (∀ k' ∈ kept c sequence, sequence.idxOf k' < sequence.idxOf x → sequence.idxOf k' ≤ sequence.idxOf k) →
        TransGen c.Edge k x) := by
  refine h.updateComputationSchedule_progress.imp fun s hp => ⟨h.progress_perm hp, ?_, h.progress_updates hp, ?_⟩
  · exact verify_ok (h.progress_perm hp) (Updated.progress_nodup hp) h.valid.mem (h.progress_before hp)
  · intro hu x hx k hk hlt hl
    by_contra ht
    have hks := (mem_kept.mp hk).1
    have hlt := (idxOf_lt_iff_of_sublist List.filter_sublist h.nodup hks hx.1).mp hlt
    have hsx := (idxOf_lt_iff_of_sublist hu.order (Updated.progress_nodup hp) hks hx.1).mpr hlt
    exact absurd (h.progress_passes hp hx hk hl ht) hsx.asymm

-- The instructions 0 and 1 have been scheduled. The instruction 2 is new and possibly a control predecessor of 1.
def withNew (control : Bool) : HloComputation :=
  .ofPredecessors 3 (fun _ => []) fun x => if x = 1 ∧ control then [2] else []

theorem withNew_edge {control : Bool} {p x : Nat} (h : (withNew control).Edge p x) : p = 2 ∧ x = 1 ∧ control = true := by
  obtain ⟨-, h | h⟩ := h
  case inl => simp [withNew, ofPredecessors] at h
  case inr =>
    simp only [withNew, ofPredecessors] at h
    split_ifs at h with hx
    case pos => exact ⟨List.mem_singleton.mp h, hx⟩
    case neg => cases h

theorem withNew_transGen {control : Bool} {p x : Nat} (h : TransGen (withNew control).Edge p x) : p = 2 ∧ x = 1 := by
  obtain ⟨_, he, _⟩ := TransGen.head'_iff.mp h
  obtain ⟨_, _, he'⟩ := TransGen.tail'_iff.mp h
  exact ⟨(withNew_edge he).1, (withNew_edge he').2.1⟩

theorem withNew_updated (control : Bool) : Updated (withNew control) [0, 1] where
  valid := by
    refine ⟨List.nodup_range, fun he => ?_, fun x _ y => ?_, fun x _ y => ?_, fun x ht => ?_⟩
    · obtain ⟨rfl, -⟩ := withNew_edge he
      exact List.mem_range.mpr (by decide)
    · simp [withNew, ofPredecessors]
    · simp [withNew, ofPredecessors]
    · have := withNew_transGen ht
      omega
  nodup := by decide
  removed x hx hn := by
    have hx : x < 3 := by simp at hx; omega
    exact absurd (List.mem_range.mpr hx) hn
  compatible x hx y hy ht := by
    obtain ⟨rfl, -⟩ := withNew_transGen ht
    simp at hx

theorem updateComputationSchedule_updates_withNew :
    ∃ s, Returns (updateComputationSchedule (withNew false) · [0, 1]) s ∧ Updates (withNew false) [0, 1] s := by
  obtain ⟨s, hs, -, -, h, -⟩ := updateComputationSchedule_updates (withNew_updated false)
  refine ⟨s, hs, h fun x hx => ?_⟩
  obtain ⟨-, p, hp, -⟩ := hx
  simp [withNew, ofPredecessors] at hp

-- The new instruction takes the place of the first one together with its control successor.
theorem not_updates_withNew :
    ¬(∀ c sequence, Updated c sequence → Computes (updateComputationSchedule c · sequence) (Updates c sequence)) := by
  intro h
  obtain ⟨s, hs, hu⟩ := h _ _ (withNew_updated true)
  have hr (n : Nat) : updateComputationSchedule (withNew true) (n + 3) [0, 1] = some [2, 1, 0] := rfl
  obtain ⟨n, hn⟩ := Returns.iff_exists.mp hs
  obtain rfl := Option.some.inj ((hr n).symm.trans (hn (n + 3) (by omega)))
  exact absurd hu.order (by decide)

end Hlo.HloSchedule
