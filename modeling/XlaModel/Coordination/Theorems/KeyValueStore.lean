import Mathlib.Tactic
import XlaModel.Coordination.KeyValueStore

namespace Coordination.KeyValueStore

variable {χ : Type} {s s' : KeyValueStore χ} {key key' pre value value' : Bytes} {c c' : χ}

section Get

@[simp]
theorem get_set {data : List (Bytes × Bytes)} {callbacks : List (Bytes × List χ)} :
    get ⟨SortedMap.set data key value, callbacks⟩ key' = if key' = key then some value else get ⟨data, callbacks⟩ key' := by
  rw [get, SortedMap.find_set]
  split_ifs <;> rfl

theorem get_delete : (s.delete key).get key' = if key' = key then none else s.get key' :=
by
  rw [get, delete, SortedMap.find_erase]
  split_ifs <;> rfl

theorem tryEmplace_none (h : s.get key = none) :
    s.tryEmplace key value = (⟨SortedMap.set s.data key value, s.callbacks⟩, true) := by
  simp [tryEmplace, h]

theorem tryEmplace_some (h : s.get key = some value) : s.tryEmplace key value' = (s, false) := by
  simp [tryEmplace, h]

theorem get_tryEmplace : (s.tryEmplace key value).1.get key' =
    if key' = key then some ((s.get key).getD value) else s.get key' := by
  rw [tryEmplace]
  cases h : s.get key
  case none       => exact get_set
  case some value => by_cases hk : key' = key <;> simp [hk, h]

end Get

section Prefix

theorem not_lt_of_prefix (h : pre <+: key) : ¬key < pre := by
  obtain ⟨t, rfl⟩ := h
  induction pre
  case nil           => simp
  case cons x pre hi => simpa [List.cons_lt_cons_iff] using hi

theorem lt_of_lt_of_not_prefix (h : ¬key < pre) (hp : ¬pre <+: key) (hl : key < key') : ¬pre <+: key' := by
  induction pre generalizing key key'
  case nil => exact absurd (List.nil_prefix ..) hp
  case cons x pre hi =>
    cases key
    case nil => simp at h
    case cons y key =>
      cases key'
      case nil => simp
      case cons z key' =>
        rw [List.cons_lt_cons_iff] at h hl
        rw [List.cons_prefix_cons] at hp ⊢
        rintro ⟨rfl, hp'⟩
        rw [not_or, not_lt] at h
        obtain hlt | ⟨rfl, hl⟩ := hl
        case inl => exact absurd hlt (not_lt.mpr h.1)
        case inr => exact hi (fun hk => h.2 ⟨rfl, hk⟩) (fun hk => hp ⟨rfl, hk⟩) hl hp'

-- The keys with the given prefix are neighbours.
structure Neighbours (pre : Bytes) : Prop where
  low  : ∀ key : Bytes, decide (key < pre) = true → pre.isPrefixOf key = false
  mono : ∀ key key' : Bytes, decide (key < pre) = true → key' ≤ key → decide (key' < pre) = true
  conv : ∀ key key' : Bytes, decide (key < pre) = false → pre.isPrefixOf key = false → key < key' →
    pre.isPrefixOf key' = false

theorem neighbours : Neighbours pre where
  low k hk := by
    rw [decide_eq_true_eq] at hk
    rw [Bool.eq_false_iff, Ne, List.isPrefixOf_iff_prefix]
    exact fun hp => not_lt_of_prefix hp hk
  mono k k' hk hle := by
    rw [decide_eq_true_eq] at hk ⊢
    exact hle.trans_lt hk
  conv k k' hk hp hlt := by
    rw [decide_eq_false_iff_not] at hk
    rw [Bool.eq_false_iff, Ne, List.isPrefixOf_iff_prefix] at hp ⊢
    exact lt_of_lt_of_not_prefix hk hp hlt

theorem deletePrefix_data (h : SortedMap.Sorted s.data) :
    (s.deletePrefix pre).data = s.data.filter fun p => !pre.isPrefixOf p.1 :=
  SortedMap.eq_filter_not (f := (decide <| · < pre)) (g := pre.isPrefixOf) h neighbours.low neighbours.mono neighbours.conv

theorem getPrefix_eq (h : SortedMap.Sorted s.data) : s.getPrefix pre = s.data.filter (pre.isPrefixOf ·.1) :=
  SortedMap.eq_filter (f := (decide <| · < pre)) (g := pre.isPrefixOf) h neighbours.low neighbours.mono neighbours.conv

theorem get_deletePrefix (h : SortedMap.Sorted s.data) :
    (s.deletePrefix pre).get key = if pre <+: key then none else s.get key := by
  have hf := SortedMap.find_filter (m := s.data) (k := key) fun k => ¬pre <+: k
  have hd : (s.deletePrefix pre).data = s.data.filter fun p => ¬pre <+: p.1 := by
    rw [deletePrefix_data h]
    refine List.filter_congr fun p _ => ?_
    rw [decide_not, Bool.not_inj_iff, Bool.eq_iff_iff, decide_eq_true_iff, List.isPrefixOf_iff_prefix]
  rw [get, hd, hf]
  by_cases hp : pre <+: key
  case pos => rw [if_neg (not_not.mpr hp), if_pos hp]
  case neg => rw [if_pos hp, if_neg hp, get]

end Prefix

section Pending

variable {callback : χ}

end Pending

-- What an operation can do. A key that is inserted or overwritten has its callbacks called.
inductive Effect (time : Nat) (op : Op) : KeyValueStore Nat → KeyValueStore Nat → Calls Nat → Prop
  | remove {s s' : KeyValueStore Nat} : (∀ key, op ≠ .addCallbackForKey key) → s'.callbacks = s.callbacks →
    (∀ key, s'.get key = s.get key ∨ s'.get key = none) → Effect time op s s' []
  | notify {s s' : KeyValueStore Nat} {key value : Bytes} : (∀ key, op ≠ .addCallbackForKey key) →
    s'.callbacks = MapVector.erase s.callbacks key →
    (∀ key', s'.get key' = if key' = key then some value else s.get key') →
    Effect time op s s' ((s.pending key).map (·, .ok value))
  | call {s : KeyValueStore Nat} {key value : Bytes} : op = .addCallbackForKey key → s.get key = some value →
    Effect time op s s [(time, .ok value)]
  | add {s s' : KeyValueStore Nat} {key : Bytes} : op = .addCallbackForKey key → s.get key = none →
    s'.data = s.data → s'.callbacks = MapVector.push s.callbacks key time → Effect time op s s' []

section Effect

variable {s : KeyValueStore Nat} {time : Nat} {op : Op}

theorem apply_effect (h : SortedMap.Sorted s.data) : Effect time op s (s.apply time op).1 (s.apply time op).2 := by
  cases op <;> simp only [apply]
  case put key value allowOverwrite =>
    rw [put]
    split_ifs
    case pos => exact .notify (by simp) rfl fun _ => get_set
    case neg =>
      cases hg : s.get key
      case none =>
        rw [tryEmplace_none hg]
        exact .notify (by simp) rfl fun _ => get_set
      case some value =>
        rw [tryEmplace_some hg]
        exact .remove (by simp) rfl fun _ => .inl rfl
  case incrementBy key increment =>
    have hv : (s.tryEmplace key ['0']).1.get key = some ((s.get key).getD ['0']) := by simp [get_tryEmplace]
    simp only [incrementBy, hv, Option.getD_some]
    cases ha : Bytes.simpleAtoi ((s.get key).getD ['0'])
    case none =>
      -- The value that is inserted for an absent key can be parsed.
      cases hg : s.get key
      case none => exact absurd ha (by rw [hg]; decide)
      case some value =>
        rw [tryEmplace_some hg]
        exact .remove (by simp) rfl fun _ => .inl rfl
    case some val =>
      have hc : (s.tryEmplace key ['0']).1.callbacks = s.callbacks := by
        rw [tryEmplace]
        split_ifs <;> rfl
      simp only [notifyCallbacksForKey, pending, hc]
      refine .notify (by simp) rfl fun key' => ?_
      have : (s.tryEmplace key ['0']).1.get key' = if key' = key then some ((s.get key).getD ['0']) else s.get key' :=
        get_tryEmplace
      rw [get_set]
      split_ifs at this ⊢
      case pos => rfl
      case neg => exact this
  case delete key =>
    refine .remove (by simp) rfl fun key' => ?_
    rw [get_delete]
    split_ifs <;> simp
  case deletePrefix pre =>
    refine .remove (by simp) rfl fun key' => ?_
    rw [get_deletePrefix h]
    split_ifs <;> simp
  case addCallbackForKey key =>
    rw [addCallbackForKey]
    cases hg : s.get key
    case none       => exact .add rfl hg rfl rfl
    case some value => exact .call rfl hg

theorem apply_sorted (h : SortedMap.Sorted s.data) : SortedMap.Sorted (s.apply time op).1.data := by
  have ht (key value : Bytes) : SortedMap.Sorted (s.tryEmplace key value).1.data := by
    rw [tryEmplace]
    split_ifs
    case pos => exact h
    case neg => exact h.set
  cases op <;> simp only [apply]
  case put key value allowOverwrite =>
    rw [put]
    split_ifs
    case pos => exact h.set
    case neg =>
      simp only
      split_ifs
      all_goals exact ht key value
  case incrementBy key increment =>
    simp only [incrementBy]
    cases Bytes.simpleAtoi (((s.tryEmplace key ['0']).1.get key).getD [])
    case none     => exact ht _ _
    case some val => exact (ht _ _).set
  case delete key => exact h.filter _
  case deletePrefix pre =>
    rw [deletePrefix_data h]
    exact h.filter _
  case addCallbackForKey key =>
    rw [addCallbackForKey]
    split <;> exact h

end Effect

def Op.isAdd : Op → Bool
  | .addCallbackForKey _ => true
  | _                    => false

-- The callbacks that are registered by a sequence of operations.
def registered (ops : List Op) : List Nat :=
  (List.range ops.length).filter fun i => ops[i]?.any Op.isAdd

def waiting (s : KeyValueStore Nat) : List Nat :=
  s.callbacks.flatMap Prod.snd

section Registered

variable {ops : List Op} {op : Op} {i : Nat}

theorem mem_registered : i ∈ registered ops ↔ ∃ key, ops[i]? = some (.addCallbackForKey key) := by
  rw [registered, List.mem_filter, List.mem_range, Option.any_eq_true]
  constructor
  case mp =>
    rintro ⟨-, op, ho, ha⟩
    cases op <;> simp only [Op.isAdd, Bool.false_eq_true] at ha
    case addCallbackForKey key => exact ⟨key, ho⟩
  case mpr =>
    rintro ⟨key, ho⟩
    exact ⟨(List.getElem?_eq_some_iff.mp ho).1, _, ho, rfl⟩

theorem registered_nodup : (registered ops).Nodup :=
  List.nodup_range.filter _

theorem registered_concat : registered (ops ++ [op]) = registered ops ++ if op.isAdd then [ops.length] else [] := by
  have hr : (List.range ops.length).filter (fun i => (ops ++ [op])[i]?.any Op.isAdd) = registered ops := by
    refine List.filter_congr fun i hi => ?_
    rw [List.getElem?_append_left (List.mem_range.mp hi)]
  rw [registered, List.length_append, List.length_singleton, List.range_succ, List.filter_append, hr]
  congr 1
  cases h : op.isAdd <;> simp [h]

theorem Op.isAdd_eq_false (h : ∀ key, op ≠ .addCallbackForKey key) : op.isAdd = false := by
  cases op
  case addCallbackForKey key => exact absurd rfl (h key)
  all_goals rfl

end Registered

namespace Effect

variable {s s' : KeyValueStore Nat} {calls : Calls Nat} {time : Nat} {op : Op}

theorem nodup (h : Effect time op s s' calls) (hn : (MapVector.keys s.callbacks).Nodup) :
    (MapVector.keys s'.callbacks).Nodup := by
  cases h
  case remove _ hc _   => rwa [hc]
  case notify _ hc _   => rw [hc, MapVector.keys_erase]; exact hn.filter _
  case call            => exact hn
  case add _ _ _ hc    => exact hc ▸ MapVector.nodup_push hn

-- The callbacks of a key wait as long as the key is absent.
theorem absent (h : Effect time op s s' calls) (ha : ∀ key, s.pending key ≠ [] → s.get key = none) {key : Bytes}
    (hp : s'.pending key ≠ []) : s'.get key = none := by
  cases h
  case remove _ hc hg =>
    rw [pending, hc] at hp
    obtain hg | hg := hg key
    case inl => exact hg.trans (ha key hp)
    case inr => exact hg
  case notify key' value _ hc hg =>
    rw [pending, hc] at hp
    rw [hg]
    by_cases hk : key = key'
    case pos => exact absurd (by simp [MapVector.find_erase, hk]) hp
    case neg =>
      rw [if_neg hk]
      exact ha key (by rwa [MapVector.find_erase, if_neg hk] at hp)
  case call => exact ha key hp
  case add key' _ hg hd hc =>
    rw [get, hd]
    by_cases hk : key = key'
    case pos => exact hk ▸ hg
    case neg =>
      rw [pending, hc, MapVector.find_push, if_neg hk] at hp
      exact ha key hp

-- Every callback is either called or continues to wait.
theorem waiting_perm (h : Effect time op s s' calls) (hn : (MapVector.keys s.callbacks).Nodup) :
    (calls.map Prod.fst ++ s'.waiting).Perm (s.waiting ++ if op.isAdd then [time] else []) := by
  cases h
  case remove ho hc _ => simp [waiting, hc, Op.isAdd_eq_false ho]
  case notify key value ho hc _ =>
    rw [waiting, waiting, hc, Op.isAdd_eq_false ho]
    simpa [Function.comp_def, pending] using MapVector.values_erase_perm (k := key) hn
  case call ho _      => simpa [waiting, ho, Op.isAdd] using (List.perm_append_singleton time _).symm
  case add ho _ _ hc  => simpa [waiting, ho, Op.isAdd, hc] using MapVector.values_push_perm hn

-- A callback that waits is new or has waited before.
theorem mem_pending (h : Effect time op s s' calls) {key : Bytes} {i : Nat} (hi : i ∈ s'.pending key) :
    i ∈ s.pending key ∨ (i = time ∧ op = .addCallbackForKey key ∧ s.get key = none) := by
  cases h
  case remove _ hc _ => exact .inl (by rwa [pending, hc] at hi)
  case notify key' value _ hc hg =>
    rw [pending, hc, MapVector.find_erase] at hi
    split_ifs at hi
    case pos => cases hi
    case neg => exact .inl hi
  case call => exact .inl hi
  case add key' ho hg hd hc =>
    rw [pending, hc, MapVector.find_push] at hi
    by_cases hk : key = key'
    case pos =>
      obtain rfl := hk
      rw [if_pos rfl, Option.getD_some, List.mem_append, List.mem_singleton] at hi
      exact hi.imp_right fun hi => ⟨hi, ho, hg⟩
    case neg => exact .inl (by rwa [if_neg hk] at hi)

-- A callback that is called gets the value of its key.
theorem mem_calls (h : Effect time op s s' calls) {i : Nat} {value : Except Error Bytes} (hc : (i, value) ∈ calls) :
    ∃ key val, value = .ok val ∧ s'.get key = some val ∧
      (i ∈ s.pending key ∨ (i = time ∧ op = .addCallbackForKey key)) := by
  cases h
  case remove => cases hc
  case notify key val _ _ hg =>
    obtain ⟨j, hj, he⟩ := List.mem_map.mp hc
    obtain ⟨rfl, rfl⟩ := Prod.ext_iff.mp he
    exact ⟨key, val, rfl, by rw [hg, if_pos rfl], .inl hj⟩
  case call key val ho hg =>
    obtain ⟨hi, rfl⟩ := Prod.mk.inj (List.mem_singleton.mp hc)
    exact ⟨key, val, rfl, hg, .inr ⟨hi, ho⟩⟩
  case add => cases hc

end Effect

section Run

variable {ops : List Op} {op : Op}

theorem run_concat : run (ops ++ [op]) = (run ops).step op := by
  rw [run, List.foldl_concat, run]

theorem run_concat_take {m : Nat} (h : m ≤ ops.length) : run ((ops ++ [op]).take m) = run (ops.take m) := by
  rw [List.take_append_of_le_length h]

-- The waiting callbacks are those whose keys have been absent since they were registered.
structure Waits (ops : List Op) (key : Bytes) (i : Nat) : Prop where
  registered : ops[i]? = some (.addCallbackForKey key)
  absent     : ∀ m, i ≤ m → m ≤ ops.length → (run (ops.take m)).store.get key = none

structure Called (ops : List Op) (key : Bytes) (value : Bytes) (call : Call) : Prop where
  registered : ops[call.callback]? = some (.addCallbackForKey key)
  le_time    : call.callback ≤ call.time
  lt_length  : call.time < ops.length
  value_eq   : call.value = .ok value
  get        : (run (ops.take (call.time + 1))).store.get key = some value

structure Invariant (ops : List Op) : Prop where
  time     : (run ops).time = ops.length
  sorted   : SortedMap.Sorted (run ops).store.data
  nodup    : (MapVector.keys (run ops).store.callbacks).Nodup
  absent   : ∀ key, (run ops).store.pending key ≠ [] → (run ops).store.get key = none
  perm     : ((run ops).calls.map Call.callback ++ (run ops).store.waiting).Perm (KeyValueStore.registered ops)
  waits    : ∀ key, ∀ i ∈ (run ops).store.pending key, Waits ops key i
  called   : ∀ call ∈ (run ops).calls, ∃ key value, Called ops key value call

theorem Waits.concat {key : Bytes} {i : Nat} (h : Waits ops key i) (hg : (run (ops ++ [op])).store.get key = none) :
    Waits (ops ++ [op]) key i where
  registered := by rw [List.getElem?_append_left (List.getElem?_eq_some_iff.mp h.registered).1, h.registered]
  absent m him hm := by
    rw [List.length_append, List.length_singleton] at hm
    obtain hm | rfl := Nat.le_succ_iff.mp hm
    case inl => rw [run_concat_take hm, h.absent m him hm]
    case inr => rwa [List.take_of_length_le (by simp)]

theorem Called.concat {key value : Bytes} {call : Call} (h : Called ops key value call) :
    Called (ops ++ [op]) key value call where
  registered := by rw [List.getElem?_append_left (List.getElem?_eq_some_iff.mp h.registered).1, h.registered]
  le_time    := h.le_time
  lt_length  := by simpa using h.lt_length.le
  value_eq   := h.value_eq
  get        := by rw [run_concat_take h.lt_length, h.get]

theorem Invariant.nil : Invariant [] where
  time     := rfl
  sorted   := .nil
  nodup    := .nil
  absent   := by simp [run, empty, pending, MapVector.find]
  perm     := .nil
  waits    := by simp [run, empty, pending, MapVector.find]
  called   := by simp [run]

theorem Invariant.concat (h : Invariant ops) : Invariant (ops ++ [op]) := by
  have hs : (run (ops ++ [op])).store = ((run ops).store.apply ops.length op).1 := by rw [run_concat, ← h.time]; rfl
  have hc : (run (ops ++ [op])).calls = (run ops).calls ++
      ((run ops).store.apply ops.length op).2.map fun c => ⟨c.1, c.2, ops.length⟩ := by rw [run_concat, ← h.time]; rfl
  have he : Effect ops.length op (run ops).store ((run ops).store.apply ops.length op).1
      ((run ops).store.apply ops.length op).2 := apply_effect h.sorted
  have ho : (ops ++ [op])[ops.length]? = some op := by simp
  have ha {key : Bytes} (hp : (run (ops ++ [op])).store.pending key ≠ []) : (run (ops ++ [op])).store.get key = none :=
    hs ▸ he.absent h.absent (hs ▸ hp)
  refine ⟨?time, ?sorted, ?nodup, fun _ => ha, ?perm, ?waits, ?called⟩
  case time   => rw [run_concat, History.step, List.length_append, List.length_singleton, ← h.time]
  case sorted => rw [hs]; exact apply_sorted h.sorted
  case nodup  => rw [hs]; exact he.nodup h.nodup
  case perm =>
    have hm : (((run ops).store.apply ops.length op).2.map fun c => (⟨c.1, c.2, ops.length⟩ : Call)).map Call.callback =
        ((run ops).store.apply ops.length op).2.map Prod.fst := by rw [List.map_map]; rfl
    rw [registered_concat, hs, hc, List.map_append, hm, List.append_assoc]
    refine ((he.waiting_perm h.nodup).append_left _).trans ?_
    rw [← List.append_assoc]
    exact h.perm.append_right _
  case waits =>
    intro key i hi
    have hg := ha (List.ne_nil_of_mem hi)
    rw [hs] at hi
    obtain hi | ⟨rfl, rfl, hn⟩ := he.mem_pending hi
    case inl => exact (h.waits key i hi).concat hg
    case inr =>
      refine ⟨ho, fun m him hm => ?_⟩
      rw [List.length_append, List.length_singleton] at hm
      obtain hm | rfl := Nat.le_succ_iff.mp hm
      case inl => rwa [run_concat_take hm, List.take_of_length_le him]
      case inr => rwa [List.take_of_length_le (by simp)]
  case called =>
    intro call hcall
    rw [hc, List.mem_append] at hcall
    cases hcall
    case inl hcall =>
      obtain ⟨key, value, hcall⟩ := h.called call hcall
      exact ⟨key, value, hcall.concat⟩
    case inr hcall =>
      obtain ⟨⟨i, value⟩, hcs, rfl⟩ := List.mem_map.mp hcall
      obtain ⟨key, val, hv, hg, hi⟩ := he.mem_calls hcs
      have hr : (ops ++ [op])[i]? = some (.addCallbackForKey key) ∧ i ≤ ops.length := by
        obtain hi | ⟨rfl, rfl⟩ := hi
        case inl =>
          have hr := (h.waits key i hi).registered
          have hl := (List.getElem?_eq_some_iff.mp hr).1
          exact ⟨by rw [List.getElem?_append_left hl, hr], hl.le⟩
        case inr => exact ⟨ho, le_rfl⟩
      refine ⟨key, val, hr.1, hr.2, by simp, hv, ?_⟩
      rw [List.take_of_length_le (by simp), hs, hg]

theorem invariant (ops : List Op) : Invariant ops := by
  induction ops using List.reverseRecOn
  case nil              => exact .nil
  case append_singleton => exact .concat ‹_›

end Run

-- What is promised for the callbacks of a store at the end of a sequence of operations.
structure Faithful (ops : List Op) : Prop where
  absent   : ∀ key, (run ops).store.pending key ≠ [] → (run ops).store.get key = none
  once     : ((run ops).calls.map Call.callback).Nodup
  called   : ∀ call ∈ (run ops).calls, ∃ key value, Called ops key value call
  waits    : ∀ key, ∀ i ∈ (run ops).store.pending key, Waits ops key i ∧ ∀ call ∈ (run ops).calls, call.callback ≠ i
  not_lost : ∀ key i, ops[i]? = some (.addCallbackForKey key) →
    i ∈ (run ops).store.pending key ∨ ∃ call ∈ (run ops).calls, call.callback = i

theorem callbacks_faithful (ops : List Op) : Faithful ops := by
  have h := invariant ops
  have hn := h.perm.nodup_iff.mpr registered_nodup
  refine ⟨h.absent, hn.of_append_left, h.called, fun key i hi => ⟨h.waits key i hi, ?_⟩, fun key i hi => ?_⟩
  · rintro call hc rfl
    exact (List.disjoint_of_nodup_append hn) (List.mem_map_of_mem hc) ((MapVector.mem_values h.nodup).mpr ⟨key, hi⟩)
  · have hm := h.perm.mem_iff.mpr (mem_registered.mpr ⟨key, hi⟩)
    rw [List.mem_append, List.mem_map] at hm
    obtain hm | hm := hm
    case inl => exact .inr hm
    case inr =>
      obtain ⟨key', hm⟩ := (MapVector.mem_values h.nodup).mp hm
      have he := (h.waits key' i hm).registered
      rw [hi, Option.some.injEq, Op.addCallbackForKey.injEq] at he
      exact .inl (he ▸ hm)

-- Until the store is destructed, every registered callback is called exactly once.
theorem destruct_perm (ops : List Op) :
    ((run ops).calls.map Call.callback ++ (run ops).store.destruct.map Prod.fst).Perm (registered ops) := by
  have hw : (run ops).store.destruct.map Prod.fst = (run ops).store.waiting := by
    simp [destruct, waiting, List.map_flatMap, Function.comp_def]
  exact hw ▸ (invariant ops).perm

end Coordination.KeyValueStore

namespace Coordination

namespace Bytes

variable {s : Bytes} {n : Nat} {v : Int}

theorem strip_eq (h : ∀ c ∈ s, isSpace c = false) : strip s = s := by
  have hd {t : Bytes} (ht : ∀ c ∈ t, isSpace c = false) : t.dropWhile isSpace = t := by
    cases t
    case nil       => rfl
    case cons c t  => simp [ht c]
  rw [strip, hd h, hd (by simpa using h), List.reverse_reverse]

theorem digits_eq (h : ∀ c ∈ s, c.isDigit) : digits n s = some (Nat.ofDigitChars 10 s n) := by
  induction s generalizing n
  case nil => simp [digits]
  case cons c s hi =>
    rw [digits, if_pos (h c List.mem_cons_self), Nat.ofDigitChars_cons, Nat.mul_comm]
    exact hi fun c hc => h c (List.mem_cons_of_mem _ hc)

theorem isDigit_of_mem_toDigits {c : Char} (h : c ∈ Nat.toDigits 10 n) : c.isDigit :=
  Nat.isDigit_of_mem_toDigits (by omega) (by omega) h

theorem unsigned_toDigits : unsigned (Nat.toDigits 10 n) = some n := by
  rw [unsigned, if_neg Nat.toDigits_ne_nil, digits_eq fun c hc => isDigit_of_mem_toDigits hc, Nat.ofDigitChars_ten_toDigits]

theorem isSpace_of_isDigit {c : Char} (h : c.isDigit) : isSpace c = false := by
  by_contra hs
  simp only [isSpace, List.mem_cons, List.not_mem_nil, or_false, Bool.not_eq_false, decide_eq_true_eq] at hs
  obtain rfl | rfl | rfl | rfl | rfl | rfl := hs <;> exact absurd h (by decide)

theorem signed_toDigits : signed (Nat.toDigits 10 n) = some (n : Int) := by
  have hu := @unsigned_toDigits n
  cases ht : Nat.toDigits 10 n
  case nil => exact absurd ht Nat.toDigits_ne_nil
  case cons c s =>
    have hc : c.isDigit := isDigit_of_mem_toDigits (n := n) (ht ▸ List.mem_cons_self)
    have hm : c ≠ '-' := by
      rintro rfl
      exact absurd hc (by decide)
    have hp : c ≠ '+' := by
      rintro rfl
      exact absurd hc (by decide)
    rw [signed.eq_3 _ (fun t he => hm (List.cons.inj he).1) fun t he => hp (List.cons.inj he).1, ←ht, hu]
    rfl

theorem signed_strCat : signed (strCat v) = some v := by
  rw [strCat]
  split_ifs with hv
  case pos =>
    rw [signed, unsigned_toDigits]
    show some (-(v.natAbs : Int)) = some v
    congr 1
    omega
  case neg =>
    rw [signed_toDigits]
    congr 1
    omega

theorem strip_strCat : strip (strCat v) = strCat v := by
  have hd {c : Char} (hc : c ∈ Nat.toDigits 10 v.natAbs) : isSpace c = false :=
    isSpace_of_isDigit (isDigit_of_mem_toDigits hc)
  apply strip_eq
  intro c hc
  rw [strCat] at hc
  split_ifs at hc
  case neg => exact hd hc
  case pos =>
    obtain rfl | hc := List.mem_cons.mp hc
    case inl => decide
    case inr => exact hd hc

-- What is printed is read again if it fits into an `int`.
theorem simpleAtoi_strCat : simpleAtoi (strCat v) = if -2 ^ 31 ≤ v ∧ v < 2 ^ 31 then some v else none := by
  rw [simpleAtoi, strip_strCat, signed_strCat, Option.filter_some]
  simp

end Bytes

def FitsInt32 (v : Int) : Prop :=
  -2 ^ 31 ≤ v ∧ v < 2 ^ 31

def FitsInt64 (v : Int) : Prop :=
  -2 ^ 63 ≤ v ∧ v < 2 ^ 63

namespace KeyValueStore

variable {χ : Type} {s : KeyValueStore χ} {key : Bytes} {v increment : Int} {increments : List Int}

-- The results of increments of a key, one after the other.
def incrementResults (s : KeyValueStore χ) (key : Bytes) : List Int → List (Except Error Bytes)
  | []                      => []
  | increment :: increments =>
    (s.incrementBy key increment).2 :: incrementResults (s.incrementBy key increment).1.1 key increments

-- A fresh key counts from zero.
def Counts (s : KeyValueStore χ) (key : Bytes) (v : Int) : Prop :=
  (s.get key).getD ['0'] = Bytes.strCat v

theorem incrementBy_eq (h : s.Counts key v) (hv : FitsInt32 v)
    (hs : FitsInt64 (v + increment)) :
    (s.incrementBy key increment).2 = .ok (Bytes.strCat (v + increment)) ∧
      (s.incrementBy key increment).1.1.Counts key (v + increment) := by
  have hg : ((s.tryEmplace key ['0']).1.get key).getD [] = Bytes.strCat v := by
    rw [get_tryEmplace, if_pos rfl]
    exact h
  have hb : (v + increment).bmod (2 ^ 64) = v + increment := by
    obtain ⟨h₁, h₂⟩ := hs
    exact Int.bmod_eq_of_le (by omega) (by omega)
  have hi : s.incrementBy key increment =
      (notifyCallbacksForKey { (s.tryEmplace key ['0']).1 with
        data := SortedMap.set (s.tryEmplace key ['0']).1.data key (Bytes.strCat (v + increment)) } key
          (Bytes.strCat (v + increment)), .ok (Bytes.strCat (v + increment))) := by
    simp only [incrementBy, hg, Bytes.simpleAtoi_strCat, if_pos (show -2 ^ 31 ≤ v ∧ v < 2 ^ 31 from hv), hb]
  rw [hi]
  exact ⟨rfl, by simp [Counts, notifyCallbacksForKey]⟩

theorem incrementBy_error (h : s.Counts key v) (hv : ¬FitsInt32 v) :
    ∃ error, (s.incrementBy key increment).2 = .error error := by
  have hg : ((s.tryEmplace key ['0']).1.get key).getD [] = Bytes.strCat v := by
    rw [get_tryEmplace, if_pos rfl]
    exact h
  simp only [incrementBy, hg, Bytes.simpleAtoi_strCat, if_neg (show ¬(-2 ^ 31 ≤ v ∧ v < 2 ^ 31) from hv)]
  exact ⟨_, rfl⟩

theorem incrementResults_iff (h : s.Counts key v)
    (hs : ∀ sum ∈ increments.scanl (· + ·) v, FitsInt64 sum) :
    s.incrementResults key increments = (increments.scanl (· + ·) v).tail.map (fun sum => .ok (Bytes.strCat sum)) ↔
    ∀ sum ∈ (increments.scanl (· + ·) v).dropLast, FitsInt32 sum := by
  induction increments generalizing s v
  case nil => simp [incrementResults]
  case cons increment increments hi =>
    rw [List.scanl_cons] at hs ⊢
    have hne : increments.scanl (· + ·) (v + increment) ≠ [] := by simp
    obtain ⟨sum, sums, hsums⟩ := List.exists_cons_of_ne_nil hne
    obtain rfl : v + increment = sum := by
      cases increments <;> simp_all
    rw [List.tail_cons, List.dropLast_cons_of_ne_nil hne, List.forall_mem_cons, incrementResults]
    by_cases hv : FitsInt32 v
    case neg =>
      obtain ⟨error, he⟩ := @incrementBy_error _ s key v increment h hv
      rw [he, hsums]
      simp [hv]
    case pos =>
      have hs' : ∀ sum ∈ increments.scanl (· + ·) (v + increment), FitsInt64 sum := fun sum hm =>
        hs sum (List.mem_cons_of_mem _ hm)
      obtain ⟨hr, hc⟩ := incrementBy_eq h hv (hs' (v + increment) (hsums ▸ List.mem_cons_self))
      have hi := hi hc hs'
      rw [hsums, List.tail_cons] at hi
      rw [hr, hsums, List.map_cons, List.cons_inj_right, hi]
      simp [hv]

-- The counter of a fresh key is exact if and only if the sums it is read back from fit into an `int`.
theorem incrementResults_exact_iff (h : s.get key = none)
    (hs : ∀ sum ∈ increments.scanl (· + ·) 0, FitsInt64 sum) :
    s.incrementResults key increments = (increments.scanl (· + ·) 0).tail.map (fun sum => .ok (Bytes.strCat sum)) ↔
    ∀ sum ∈ (increments.scanl (· + ·) 0).dropLast, FitsInt32 sum :=
  incrementResults_iff (by rw [Counts, h]; rfl) hs

theorem incrementResults_exact_iff_small :
    (empty : KeyValueStore Nat).incrementResults ['a'] [5, -7, 2147483647] =
      [.ok (Bytes.strCat 5), .ok (Bytes.strCat (-2)), .ok (Bytes.strCat 2147483645)] := by
  have hs : ∀ sum ∈ [5, -7, 2147483647].scanl (· + ·) 0, FitsInt64 sum := by simp [FitsInt64]
  apply (incrementResults_exact_iff (by rfl) hs).mpr
  simp [FitsInt32]

-- The third call reads a sum that does not fit into an `int`.
theorem not_incrementResults_exact :
    (∀ sum ∈ [2147483647, 1, 1].scanl (· + ·) 0, FitsInt64 sum) ∧
      (empty : KeyValueStore Nat).incrementResults ['a'] [2147483647, 1, 1] ≠
        [.ok (Bytes.strCat 2147483647), .ok (Bytes.strCat 2147483648), .ok (Bytes.strCat 2147483649)] := by
  have hs : ∀ sum ∈ [2147483647, 1, 1].scanl (· + ·) 0, FitsInt64 sum := by simp [FitsInt64]
  refine ⟨hs, fun h => ?_⟩
  have hf := (@incrementResults_iff _ (empty : KeyValueStore Nat) ['a'] 0 _ rfl hs).mp h
  simp [FitsInt32] at hf

end KeyValueStore
end Coordination
