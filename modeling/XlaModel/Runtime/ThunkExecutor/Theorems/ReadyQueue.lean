import XlaModel.Lib.Fallible
import XlaModel.Runtime.ThunkExecutor.ReadyQueue

namespace Runtime.ThunkExecutor

open Heap

namespace PriorityReadyQueue

variable {nodesDefs : List ExecutionGraph.NodeDef} {queue popped : PriorityQueue (ThunkExecutor.priority nodesDefs)} {n : Nat}

theorem exists_top (h : 0 < queue.size) : ∃ id, queue.top? = some id :=
  ⟨_, Array.getElem?_eq_getElem h⟩

theorem size_pop {id : Nat} (h : queue.top? = some id) : queue.size = queue.pop.size + 1 := by
  rw [← PriorityQueue.card_content, PriorityQueue.content_pop h, Multiset.card_cons, PriorityQueue.card_content]

theorem size_push {id : Nat} : (queue.push id).size = queue.size + 1 := by
  rw [← PriorityQueue.card_content, PriorityQueue.content_push, Multiset.card_cons, PriorityQueue.card_content]

-- Every node is in one of the two queues.
theorem content_keepTopNodes : (keepTopNodes n queue popped).1.content + (keepTopNodes n queue popped).2.content =
    queue.content + popped.content := by
  induction n generalizing queue popped
  case zero => rfl
  case succ n hi =>
    cases ht : queue.top?
    case none    => simp only [keepTopNodes, ht]
    case some id =>
      simp only [keepTopNodes, ht]
      rw [hi, PriorityQueue.content_push, PriorityQueue.content_pop ht, Multiset.add_cons, Multiset.cons_add]

theorem size_keepTopNodes (h : n ≤ queue.size) : (keepTopNodes n queue popped).2.size = popped.size + n := by
  induction n generalizing queue popped
  case zero => rfl
  case succ n hi =>
    obtain ⟨id, ht⟩ := exists_top (Nat.zero_lt_of_lt h)
    have hs := size_pop ht
    simp only [keepTopNodes, ht]
    rw [hi (by omega), size_push]
    omega

-- The nodes that are moved do not have a lower priority than the others.
theorem priority_keepTopNodes
    (h : ∀ i ∈ queue.content, ∀ j ∈ popped.content, ThunkExecutor.priority nodesDefs i ≤ ThunkExecutor.priority nodesDefs j) :
    ∀ i ∈ (keepTopNodes n queue popped).1.content, ∀ j ∈ (keepTopNodes n queue popped).2.content,
      ThunkExecutor.priority nodesDefs i ≤ ThunkExecutor.priority nodesDefs j := by
  induction n generalizing queue popped
  case zero => exact h
  case succ n hi =>
    cases ht : queue.top?
    case none    => simpa only [keepTopNodes, ht] using h
    case some id =>
      have hc := PriorityQueue.content_pop ht
      simp only [keepTopNodes, ht]
      refine hi fun i hi j hj => ?_
      have hi : i ∈ queue.content := hc ▸ Multiset.mem_cons_of_mem hi
      rw [PriorityQueue.content_push] at hj
      rcases Multiset.mem_cons.mp hj with rfl | hj
      case inl => exact PriorityQueue.le_top ht i hi
      case inr => exact h i hi j hj

-- The nodes that are removed do not have a higher priority than the others.
theorem priority_popHalf {q popped kept : PriorityReadyQueue} (h : q.popHalf = some (popped, kept)) :
    ∀ i ∈ popped.queue.content, ∀ j ∈ kept.queue.content,
      ThunkExecutor.priority q.nodesDefs i ≤ ThunkExecutor.priority q.nodesDefs j := by
  rw [popHalf] at h
  split_ifs at h
  obtain ⟨rfl, rfl⟩ := Prod.mk.inj (Option.some.inj h)
  refine priority_keepTopNodes fun i _ j hj => ?_
  rw [PriorityQueue.content_ofList] at hj
  exact absurd hj (Multiset.notMem_zero j)

end PriorityReadyQueue

namespace ReadyQueue

variable {q popped kept : ReadyQueue}

def content : ReadyQueue → Multiset Nat
  | fifo q     => q.queue.drop q.head
  | lifo q     => q.queue
  | priority q => q.queue.content

theorem card_content : q.content.card = q.size := by
  cases q
  case fifo     => simp [content, size, FifoReadyQueue.size]
  case lifo     => simp [content, size, LifoReadyQueue.size]
  case priority => exact PriorityQueue.card_content

theorem content_push {id : Nat} : (q.push id).content = id ::ₘ q.content := by
  cases q
  case fifo q =>
    simp only [push, content, FifoReadyQueue.push]
    rw [List.drop_append_of_le_length q.head_le]
    exact Multiset.coe_eq_coe.mpr List.perm_append_comm
  case lifo     => exact Multiset.coe_eq_coe.mpr List.perm_append_comm
  case priority => exact PriorityQueue.content_push

theorem content_pop {id : Nat} (h : q.pop = some (id, kept)) : q.content = id ::ₘ kept.content := by
  cases q
  case fifo q =>
    obtain ⟨⟨id, q'⟩, hp, he⟩ := Option.map_eq_some_iff.mp h
    rw [FifoReadyQueue.pop] at hp
    split_ifs at hp with hlt
    obtain ⟨rfl, rfl⟩ := Prod.mk.inj (Option.some.inj hp)
    obtain ⟨rfl, rfl⟩ := Prod.mk.inj he
    rw [content, List.drop_eq_getElem_cons hlt]
    rfl
  case lifo q =>
    obtain ⟨⟨id, q'⟩, hp, he⟩ := Option.map_eq_some_iff.mp h
    obtain ⟨x, hx, hp⟩ := Option.bind_eq_some_iff.mp hp
    obtain ⟨rfl, rfl⟩ := Prod.mk.inj (Option.some.inj hp)
    obtain ⟨rfl, rfl⟩ := Prod.mk.inj he
    obtain ⟨ys, hy⟩ := List.getLast?_eq_some_iff.mp hx
    simp only [content, hy, List.dropLast_concat]
    exact Multiset.coe_eq_coe.mpr List.perm_append_comm
  case priority q =>
    obtain ⟨⟨id, q'⟩, hp, he⟩ := Option.map_eq_some_iff.mp h
    obtain ⟨x, hx, hp⟩ := Option.bind_eq_some_iff.mp hp
    obtain ⟨rfl, rfl⟩ := Prod.mk.inj (Option.some.inj hp)
    obtain ⟨rfl, rfl⟩ := Prod.mk.inj he
    exact PriorityQueue.content_pop hx

-- The number of nodes that stay in the queue.
def keptSize : ReadyQueue → Nat
  | fifo q     => q.size / 2
  | lifo q     => (q.size - 1) / 2
  | priority q => q.size / 2

theorem popHalf_spec (h : 0 < q.size) :
    ∃ popped kept, q.popHalf = some (popped, kept) ∧ popped.content + kept.content = q.content ∧ kept.size = q.keptSize := by
  cases q
  case fifo q =>
    have hs : 0 < q.queue.length - q.head := h
    have he : ¬q.isEmpty := by simp [FifoReadyQueue.isEmpty]; omega
    refine ⟨_, _, by rw [popHalf, FifoReadyQueue.popHalf, if_neg he]; rfl, ?content, ?size⟩
    case content =>
      simp only [content, FifoReadyQueue.ofReadyNodes, List.drop_zero, Multiset.coe_add]
      rw [List.drop_take, Nat.add_sub_cancel_left, ← List.drop_drop]
      exact Multiset.coe_eq_coe.mpr (List.perm_append_comm.trans (by rw [List.take_append_drop]))
    case size =>
      simp only [size, keptSize, FifoReadyQueue.size, List.length_take]
      omega
  case lifo q =>
    have hs : 0 < q.queue.length := h
    have he : ¬q.isEmpty := by simpa [LifoReadyQueue.isEmpty] using List.ne_nil_of_length_pos hs
    refine ⟨_, _, by rw [popHalf, LifoReadyQueue.popHalf, if_neg he]; rfl, ?content, ?size⟩
    case content =>
      simp only [content, LifoReadyQueue.ofReadyNodes, Multiset.coe_add, List.take_append_drop]
    case size =>
      simp only [size, keptSize, LifoReadyQueue.size, List.length_drop]
      omega
  case priority q =>
    have hs : 0 < q.queue.size := h
    have he : ¬q.isEmpty := by simp [PriorityReadyQueue.isEmpty, PriorityQueue.isEmpty]; omega
    have hn : PriorityQueue.content (.ofList [] : PriorityQueue (ThunkExecutor.priority q.nodesDefs)) = 0 :=
      PriorityQueue.content_ofList []
    have hz : PriorityQueue.size (.ofList [] : PriorityQueue (ThunkExecutor.priority q.nodesDefs)) = 0 := by
      rw [← PriorityQueue.card_content, hn, Multiset.card_zero]
    refine ⟨_, _, by rw [popHalf, PriorityReadyQueue.popHalf, if_neg he]; rfl, ?content, ?size⟩
    case content =>
      simp only [content]
      rw [PriorityReadyQueue.content_keepTopNodes, hn, add_zero]
    case size =>
      simp only [size, keptSize, PriorityReadyQueue.size]
      rw [PriorityReadyQueue.size_keepTopNodes (by omega), hz, Nat.zero_add]

theorem keptSize_lt (h : 0 < q.size) : q.keptSize < q.size := by
  cases q
  case fifo     => exact Nat.div_lt_self h Nat.one_lt_two
  case lifo     => exact (Nat.div_le_self _ _).trans_lt (Nat.sub_one_lt_of_lt h)
  case priority => exact Nat.div_lt_self h Nat.one_lt_two

-- Only a queue in LIFO order with two nodes does not keep any of them.
theorem keptSize_pos_iff (h : 2 ≤ q.size) : 0 < q.keptSize ↔ ∀ l, q = .lifo l → l.size ≠ 2 := by
  cases q
  case fifo     => exact iff_of_true (Nat.div_pos h Nat.zero_lt_two) (fun _ he => nomatch he)
  case priority => exact iff_of_true (Nat.div_pos h Nat.zero_lt_two) (fun _ he => nomatch he)
  case lifo l =>
    have h : 2 ≤ l.size := h
    simp only [keptSize, lifo.injEq, forall_eq']
    omega

-- Every part of the queue has at least one node.
theorem popHalf_size (hc : popped.content + kept.content = q.content)
    (hk : kept.size = q.keptSize) (h₀ : 0 < q.size) : 0 < popped.size := by
  have hs := congrArg Multiset.card hc
  rw [Multiset.card_add, card_content, card_content, card_content, hk] at hs
  have := keptSize_lt h₀
  omega

section Split

variable {splitThreshold : Int} {tryJoin : Nat → Bool} {attempt : Nat}

-- Every node is in one of the queues that are offloaded or stays in the queue.
structure SplitsInto (q : ReadyQueue) (offloaded : List ReadyQueue) (kept : ReadyQueue) : Prop where
  content  : (offloaded.map ReadyQueue.content).sum + kept.content = q.content
  nonempty : ∀ popped ∈ offloaded, 0 < popped.size

theorem splitReadyQueue_computes : Fuel.Computes (splitReadyQueue splitThreshold tryJoin · attempt q)
    fun parts? => ∃ offloaded kept, parts? = some (offloaded, kept) ∧ q.SplitsInto offloaded kept := by
  induction hn : q.size using Nat.strong_induction_on generalizing q attempt
  case h n hi =>
    have hstop : Fuel.Computes (fun _ => some (some ([], q))) fun parts? =>
        ∃ offloaded kept, parts? = some (offloaded, kept) ∧ q.SplitsInto offloaded kept :=
      .pure ⟨[], q, rfl, by simp, by simp⟩
    refine .of_succ ?_
    simp only [splitReadyQueue]
    refine .ite (fun hlt => .ite (fun _ => ?_) fun _ => hstop) fun _ => hstop
    have h₀ : 0 < q.size := Nat.zero_lt_of_lt hlt
    obtain ⟨popped, kept, hp, hc, hk⟩ := popHalf_spec h₀
    simp only [hp]
    refine .bind (hi _ (hn ▸ hk ▸ keptSize_lt h₀) rfl) ?_
    rintro _ ⟨offloaded, kept', rfl, hs⟩
    refine .pure ⟨popped :: offloaded, kept', rfl, ?content, ?size⟩
    case content => rw [List.map_cons, List.sum_cons, add_assoc, hs.content, hc]
    case size => exact List.forall_mem_cons.mpr ⟨popHalf_size hc hk h₀, hs.nonempty⟩

end Split

-- Both parts of a queue with at least two nodes have nodes, and no node is lost or duplicated.
structure SplitsProperly (q : ReadyQueue) : Prop where
  popHalf : 2 ≤ q.size → ∃ popped kept, q.popHalf = some (popped, kept) ∧
    popped.content + kept.content = q.content ∧ 0 < popped.size ∧ 0 < kept.size
  split   : ∀ splitThreshold tryJoin, Fuel.Computes (splitReadyQueue splitThreshold tryJoin · 0 q)
    fun parts? => ∃ offloaded kept, parts? = some (offloaded, kept) ∧ q.SplitsInto offloaded kept

theorem splitsProperly_iff : q.SplitsProperly ↔ ∀ l, q = .lifo l → l.size ≠ 2 := by
  constructor
  case mp =>
    rintro ⟨h, -⟩ l rfl h₂
    obtain ⟨popped, kept, hp, -, -, hk⟩ := h h₂.ge
    obtain ⟨popped', kept', hp', -, hk'⟩ := popHalf_spec (q := .lifo l) (Nat.zero_lt_of_lt h₂.ge)
    obtain ⟨-, rfl⟩ := Prod.mk.inj (Option.some.inj (hp.symm.trans hp'))
    exact (keptSize_pos_iff (q := .lifo l) h₂.ge).mp (hk' ▸ hk) l rfl h₂
  case mpr =>
    refine fun h => ⟨fun h₂ => ?_, fun _ _ => splitReadyQueue_computes⟩
    have h₀ := Nat.zero_lt_of_lt h₂
    obtain ⟨popped, kept, hp, hc, hk⟩ := popHalf_spec h₀
    exact ⟨popped, kept, hp, hc, popHalf_size hc hk h₀, hk ▸ (keptSize_pos_iff h₂).mpr h⟩

theorem not_splitsProperly : ¬(lifo (.ofReadyNodes [0, 1])).SplitsProperly := by
  intro h
  obtain ⟨popped, kept, hp, -, -, hk⟩ := h.popHalf le_rfl
  have hn : (lifo (.ofReadyNodes [0, 1])).popHalf = some (.lifo ⟨[0, 1]⟩, .lifo ⟨[]⟩) := rfl
  obtain ⟨-, rfl⟩ := Prod.mk.inj (Option.some.inj (hp.symm.trans hn))
  exact absurd hk (Nat.lt_irrefl 0)

end ReadyQueue

end Runtime.ThunkExecutor
