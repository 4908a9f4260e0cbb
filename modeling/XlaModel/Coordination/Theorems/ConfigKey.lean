import XlaModel.Lib.Components
import XlaModel.Coordination.KeyValueStore
import XlaModel.Coordination.Theorems.KeyValueStore

namespace Coordination

open Components

namespace NormalizeKey

-- The part of a string before its first null byte.
def text (s : Bytes) : Bytes :=
  s.takeWhile (· ≠ nul)

section Text

variable {s t part rest : Bytes} {c : Char}

theorem not_mem_text : nul ∉ text s := fun h => by
  simpa using List.all_eq_true.mp List.all_takeWhile nul h

theorem text_append (h : nul ∉ part) : text (part ++ rest) = part ++ text rest := by
  refine List.takeWhile_append_of_pos fun c hc => ?_
  simpa using fun he : c = nul => h (he ▸ hc)

theorem text_of_not_mem (h : nul ∉ s) : text s = s := by
  have ha : text (s ++ []) = s ++ text [] := text_append h
  simpa [text] using ha

theorem text_cons (h : c ≠ nul) : text (c :: s) = c :: text s := by
  simp [text, h]

theorem components_text_dropWhile :
    components '/' (text (s.dropWhile (· = '/'))) = components '/' (text s) := by
  induction s
  case nil => rfl
  case cons c s hi =>
    by_cases hc : c = '/'
    case neg => rw [List.dropWhile_cons_of_neg (by simpa using hc)]
    case pos =>
      rw [List.dropWhile_cons_of_pos (by simpa using hc), hi, hc, text_cons (by decide), components_cons_self]

end Text

-- The part of the string that is written and the part that is not read yet.
structure View (s : State) (out rest : Bytes) : Prop where
  le        : s.dst ≤ s.src
  le_length : s.src ≤ s.normKey.length
  take      : s.normKey.take s.dst = out
  drop      : s.normKey.drop s.src = rest

namespace View

variable {s : State} {out rest : Bytes} {c : Char}

theorem read (h : View s out rest) : s.read = rest.headD nul := by
  rw [State.read, ←h.drop, List.headD_eq_head?_getD, List.head?_drop, List.getD_eq_getElem?_getD]

theorem length_le (h : View s out rest) : rest.length ≤ s.normKey.length := by
  rw [←h.drop, List.length_drop]
  exact Nat.sub_le ..

theorem dst_eq (h : View s out rest) : s.dst = out.length := by
  rw [←h.take, List.length_take, Nat.min_eq_left (h.le.trans h.le_length)]

theorem src_lt (h : View s out (c :: rest)) : s.src < s.normKey.length := by
  have hlen := congrArg List.length h.drop
  rw [List.length_drop, List.length_cons] at hlen
  omega

theorem drop_succ (h : View s out (c :: rest)) : s.normKey.drop (s.src + 1) = rest := by
  rw [←List.drop_drop, h.drop, List.drop_one, List.tail_cons]

theorem skip (h : View s out (c :: rest)) : View s.skip out rest where
  le        := h.le.trans (Nat.le_succ _)
  le_length := h.src_lt
  take      := h.take
  drop      := h.drop_succ

theorem copy (h : View s out (c :: rest)) : View s.copy (out ++ [c]) rest where
  le        := Nat.succ_le_succ h.le
  le_length := by simpa [State.copy] using h.src_lt
  take      := by
    have hlt : s.dst < s.normKey.length := h.le.trans_lt h.src_lt
    have hr : s.read = c := h.read
    simp [State.copy, List.take_add_one, hr, hlt, h.take, List.take_set_of_le]
  drop      := by
    rw [State.copy, List.drop_set_of_lt (Nat.lt_succ_of_le h.le)]
    exact h.drop_succ

theorem skipSlashes {fuel : Nat} (h : View s out rest) (hf : rest.length ≤ fuel) :
    View (s.skipSlashes fuel) out (rest.dropWhile (· = '/')) := by
  induction fuel generalizing s rest
  case zero =>
    obtain rfl := List.length_eq_zero_iff.mp (Nat.le_zero.mp hf)
    exact h
  case succ fuel hi =>
    rw [State.skipSlashes, h.read]
    cases rest
    case nil => simpa [nul] using h
    case cons c rest =>
      by_cases hc : c = '/'
      case pos => simpa [hc] using hi h.skip (Nat.le_of_succ_le_succ hf)
      case neg => simpa [hc] using h

-- The characters of a part of a key path.
def inPart (c : Char) : Bool :=
  c ≠ nul ∧ c ≠ '/'

theorem inPart_iff : inPart c = true ↔ c ≠ nul ∧ c ≠ '/' :=
  decide_eq_true_iff

theorem copyPart {fuel : Nat} (h : View s out rest) (hf : rest.length ≤ fuel) :
    View (s.copyPart fuel) (out ++ rest.takeWhile inPart) (rest.dropWhile inPart) := by
  induction fuel generalizing s out rest
  case zero =>
    obtain rfl := List.length_eq_zero_iff.mp (Nat.le_zero.mp hf)
    simpa [State.copyPart] using h
  case succ fuel hi =>
    rw [State.copyPart, h.read]
    cases rest
    case nil => simpa using h
    case cons c rest =>
      by_cases hc : c ≠ nul ∧ c ≠ '/'
      case pos =>
        rw [List.takeWhile_cons_of_pos (by simpa [inPart] using hc), List.dropWhile_cons_of_pos (by simpa [inPart] using hc),
          List.headD_cons, if_pos hc]
        simpa using hi h.copy (Nat.le_of_succ_le_succ hf)
      case neg =>
        rw [List.takeWhile_cons_of_neg (by simpa [inPart] using hc), List.dropWhile_cons_of_neg (by simpa [inPart] using hc),
          List.headD_cons, if_neg hc]
        simpa using h

-- A part of the key is copied up to the end of the text or up to and including its slash.
theorem parsePart (h : View s out rest) :
    ∃ part rest', rest.dropWhile (· = '/') = part ++ rest' ∧ nul ∉ part ∧ '/' ∉ part ∧
      ((rest'.headD nul = nul ∧ View s.parsePart (out ++ part) rest') ∨
        part ≠ [] ∧ ∃ rest'', rest' = '/' :: rest'' ∧ View s.parsePart (out ++ part ++ ['/']) rest'') := by
  have hle : (rest.dropWhile (· = '/')).length ≤ s.normKey.length :=
    (List.dropWhile_sublist _).length_le.trans h.length_le
  have hpart := (h.skipSlashes h.length_le).copyPart hle
  obtain ⟨rest₁, hr₁⟩ : ∃ rest₁, rest₁ = rest.dropWhile (· = '/') := ⟨_, rfl⟩
  obtain ⟨part, hp⟩ : ∃ part, part = rest₁.takeWhile inPart := ⟨_, rfl⟩
  obtain ⟨rest₂, hr₂⟩ : ∃ rest₂, rest₂ = rest₁.dropWhile inPart := ⟨_, rfl⟩
  have hsplit : part ++ rest₂ = rest₁ := by rw [hp, hr₂, List.takeWhile_append_dropWhile]
  have hin {c : Char} (hc : c ∈ part) : c ≠ nul ∧ c ≠ '/' :=
    inPart_iff.mp (List.all_eq_true.mp List.all_takeWhile c (hp ▸ hc))
  rw [←hr₁, ←hp, ←hr₂] at hpart
  refine ⟨part, rest₂, by rw [hsplit, hr₁], fun hn => (hin hn).1 rfl, fun hn => (hin hn).2 rfl, ?_⟩
  by_cases hnul : rest₂.headD nul = nul
  case pos =>
    refine .inl ⟨hnul, ?_⟩
    rwa [State.parsePart, State.copySlash, hpart.read, if_neg (not_not.mpr hnul)]
  case neg =>
    cases hc : rest₂
    case nil => simp [hc] at hnul
    case cons c rest₃ =>
      rw [hc, List.headD_cons] at hnul
      have hslash : c = '/' := by
        have hnot : inPart c = false := by
          have hd := List.head?_dropWhile_not inPart rest₁
          rw [←hr₂, hc] at hd
          simpa using hd
        simpa [inPart, hnul] using hnot
      obtain rfl := hslash
      refine .inr ⟨?component, rest₃, rfl, ?parse⟩
      case component =>
        -- The first character behind the leading slashes is not a slash.
        rintro hn
        have hd := List.head?_dropWhile_not (· = '/') rest
        rw [←hr₁, ←hsplit, hn, hc] at hd
        simp at hd
      case parse =>
        rw [State.parsePart, State.copySlash, hpart.read, hc, List.headD_cons, if_pos hnul]
        exact (hc ▸ hpart).copy

-- What the loop appends to the written part: the joined components and at most one slash.
inductive Appended (s : Bytes) : Bytes → Prop
  | join  : Appended s (join '/' (components '/' s))
  | slash : components '/' s ≠ [] → Appended s (join '/' (components '/' s) ++ ['/'])

theorem text_eq_nil (h : rest.headD nul = nul) : text rest = [] := by
  cases rest
  case nil         => rfl
  case cons c rest => simp_all [text]

theorem parse_of_nul {fuel : Nat} (h : View s out rest) (hn : rest.headD nul = nul) : s.parse fuel = s := by
  cases fuel
  case zero      => rfl
  case succ fuel => rw [State.parse, h.read, if_neg (not_not.mpr hn)]

theorem parse {fuel : Nat} (h : View s out rest) (hf : rest.length ≤ fuel) :
    ∃ added rest', Appended (text rest) added ∧ View (s.parse fuel) (out ++ added) rest' := by
  induction fuel generalizing s out rest
  case zero =>
    obtain rfl := List.length_eq_zero_iff.mp (Nat.le_zero.mp hf)
    exact ⟨_, [], .join, by simpa [text, State.parse] using h⟩
  case succ fuel hi =>
    rw [State.parse, h.read]
    by_cases hnul : rest.headD nul = nul
    case pos =>
      rw [if_neg (not_not.mpr hnul)]
      exact ⟨_, rest, .join, by simpa [text_eq_nil hnul] using h⟩
    case neg =>
      rw [if_pos hnul]
      obtain ⟨part, rest', hsplit, hpn, hps, ⟨hnul', hv⟩ | ⟨hne, rest'', rfl, hv⟩⟩ := h.parsePart
      case inl =>
        have hcomp : components '/' (text rest) = components '/' part := by
          rw [←components_text_dropWhile, hsplit, text_append hpn, text_eq_nil hnul', List.append_nil]
        have hpart : join '/' (components '/' (text rest)) = part := by
          rw [hcomp]
          cases hp : part
          case nil      => simp
          case cons c p => rw [components_of_not_mem (hp ▸ hps) (List.cons_ne_nil _ _), join_singleton]
        rw [hv.parse_of_nul hnul']
        exact ⟨_, rest', .join, hpart.symm ▸ hv⟩
      case inr =>
        have hcomp : components '/' (text rest) = part :: components '/' (text rest'') := by
          rw [←components_text_dropWhile, hsplit, text_append hpn, text_cons (by decide), components_append,
            components_of_not_mem hps hne, List.singleton_append]
        have hlen : rest''.length ≤ fuel := by
          have hd := congrArg List.length hsplit
          have hle := (List.dropWhile_sublist (l := rest) (· = '/')).length_le
          simp only [List.length_append, List.length_cons] at hd
          omega
        obtain ⟨added, rest₃, ha, hv'⟩ := hi hv hlen
        refine ⟨part ++ ['/'] ++ added, rest₃, ?_, by simpa using hv'⟩
        by_cases hnil : components '/' (text rest'') = []
        case pos =>
          -- Nothing follows the slash.
          have hadded : added = [] := by
            cases ha
            case join        => rw [hnil, join_nil]
            case slash hcons => exact absurd hnil hcons
          have hs : Appended (text rest) (join '/' (components '/' (text rest)) ++ ['/']) := .slash (by simp [hcomp])
          simpa [hcomp, hnil, hadded] using hs
        case neg =>
          have hj : join '/' (components '/' (text rest)) = part ++ ['/'] ++ join '/' (components '/' (text rest'')) := by
            rw [hcomp, join_cons hnil, List.append_assoc, List.singleton_append]
          cases ha
          case join  => exact hj ▸ .join
          case slash =>
            rw [←List.append_assoc, ←hj]
            exact .slash (by simp [hcomp])

theorem removeTrailingSlash (h : View s out rest) :
    s.removeTrailingSlash.normKey.take s.removeTrailingSlash.dst =
      if out.getLast? = some '/' then out.dropLast else out := by
  have hlast : out.getLast? = some '/' ↔ 0 < s.dst ∧ s.normKey[s.dst - 1]? = some '/' := by
    rw [List.getLast?_eq_getElem?, ←h.dst_eq, ←h.take]
    rcases Nat.eq_zero_or_pos s.dst with hz | hz
    case inl => simp [hz]
    case inr => rw [List.getElem?_take_of_lt (Nat.sub_lt hz Nat.one_pos), and_iff_right hz]
  by_cases hl : out.getLast? = some '/'
  case pos =>
    rw [State.removeTrailingSlash, if_pos (hlast.mp hl), if_pos hl, List.dropLast_eq_take, ←h.dst_eq, ←h.take,
      List.take_take, Nat.min_eq_left (Nat.sub_le ..)]
  case neg =>
    rw [State.removeTrailingSlash, if_neg (hlast.not.mp hl), if_neg hl]
    exact h.take

end View
end NormalizeKey

open NormalizeKey

-- The non-empty components before the first null byte are joined.
theorem normalizeKey_eq (s : Bytes) : normalizeKey s = join '/' (components '/' (text s)) := by
  have hv : View ⟨s, 0, 0⟩ [] s := ⟨Nat.le_refl _, Nat.zero_le _, rfl, rfl⟩
  obtain ⟨added, rest, ha, hv⟩ := hv.parse (Nat.le_refl s.length)
  have hr := hv.removeTrailingSlash
  have hlast : (join '/' (components '/' (text s))).getLast? ≠ some '/' := getLast?_join_ne valid_components
  rw [List.nil_append] at hr
  rw [normalizeKey, hr]
  cases ha
  case join  => rw [if_neg hlast]
  case slash => rw [if_pos (by simp), List.dropLast_concat]

theorem normalizeKey_of_not_mem {d : Bytes} (h : nul ∉ d) : normalizeKey d = join '/' (components '/' d) := by
  rw [normalizeKey_eq, text_of_not_mem h]

theorem normalizeKey_normalizeKey {d : Bytes} : normalizeKey (normalizeKey d) = normalizeKey d := by
  have hn : nul ∉ normalizeKey d := fun hm => by
    rw [normalizeKey_eq] at hm
    exact not_mem_text (mem_of_mem_join_components hm (by decide))
  rw [normalizeKey_of_not_mem hn, normalizeKey_eq, components_join valid_components]

namespace KeyValueStore

variable {χ : Type} {s : KeyValueStore Nat} {time : Nat} {op : Op} {ops : List Op} {p : Bytes × Bytes} {d key : Bytes}

section Keys

theorem mem_tryEmplace {value : Bytes} (h : p ∈ (s.tryEmplace key value).1.data) : p.1 = key ∨ p ∈ s.data := by
  rw [tryEmplace] at h
  split_ifs at h
  case pos => exact .inr h
  case neg => exact (SortedMap.mem_set h).imp_left (congrArg Prod.fst)

-- The keys that an operation adds.
theorem mem_apply (h : p ∈ (s.apply time op).1.data) :
    p ∈ s.data ∨ (∃ value allowOverwrite, op = .put p.1 value allowOverwrite) ∨ ∃ increment, op = .incrementBy p.1 increment := by
  cases op <;> simp only [apply] at h
  case put key value allowOverwrite =>
    have hk : p.1 = key ∨ p ∈ s.data := by
      rw [put] at h
      split_ifs at h
      case pos => exact (SortedMap.mem_set h).imp_left (congrArg Prod.fst)
      case neg =>
        simp only at h
        split_ifs at h
        all_goals exact mem_tryEmplace h
    obtain rfl | hk := hk
    case inl => exact .inr (.inl ⟨value, allowOverwrite, rfl⟩)
    case inr => exact .inl hk
  case incrementBy key increment =>
    have hk : p.1 = key ∨ p ∈ s.data := by
      simp only [incrementBy] at h
      split at h
      case h_1 => exact mem_tryEmplace h
      case h_2 =>
        obtain rfl | h := SortedMap.mem_set h
        case inl => exact .inl rfl
        case inr => exact mem_tryEmplace h
    obtain rfl | hk := hk
    case inl => exact .inr (.inr ⟨increment, rfl⟩)
    case inr => exact .inl hk
  case delete key => exact .inl (List.mem_filter.mp h).1
  case deletePrefix pre =>
    rw [deletePrefix, List.mem_append] at h
    obtain h | h := h
    case inl => exact .inl ((List.takeWhile_sublist _).mem h)
    case inr => exact .inl ((List.dropWhile_sublist _).mem ((List.dropWhile_sublist _).mem h))
  case addCallbackForKey key =>
    rw [addCallbackForKey] at h
    split at h
    all_goals exact .inl h

end Keys

-- The operations on the store that the service issues, in any order.
def Issued (ops : List Op) : Prop :=
  ∀ op ∈ ops, ∃ c : ConfigOp, op ∈ c.ops

theorem Issued.canonical (h : Issued ops) (hp : p ∈ (run ops).store.data) :
    ∃ cs, Valid '/' cs ∧ p.1 = join '/' cs := by
  have hnorm (key : Bytes) : ∃ cs, Valid '/' cs ∧ normalizeKey key = join '/' cs :=
    ⟨_, valid_components, normalizeKey_eq key⟩
  induction ops using List.reverseRecOn
  case nil => simp [run, empty] at hp
  case append_singleton ops op hi =>
    rw [run_concat] at hp
    have hops : Issued ops := fun op hop => h op (List.mem_append_left _ hop)
    obtain ⟨c, hc⟩ := h op (by simp)
    obtain hp | ⟨value, allowOverwrite, rfl⟩ | ⟨increment, rfl⟩ := mem_apply hp
    case inl => exact hi hops hp
    all_goals
      cases c <;> simp [ConfigOp.ops] at hc
      exact hc.1 ▸ hnorm _

-- The entries below a directory.
def Extends (d key : Bytes) : Prop :=
  components '/' d <+: components '/' key ∧ components '/' d ≠ components '/' key

instance : Decidable (Extends d key) :=
  inferInstanceAs (Decidable (_ ∧ _))

theorem isPrefixOf_iff (hn : nul ∉ d) (hd : components '/' d ≠ []) {cs : List Bytes} (hv : Valid '/' cs)
    (hk : key = join '/' cs) : (normalizeKey d ++ ['/']).isPrefixOf key = true ↔ Extends d key := by
  rw [List.isPrefixOf_iff_prefix, normalizeKey_of_not_mem hn, hk, join_append_prefix_iff hv valid_components hd, Extends,
    components_join hv]

structure DirectorySemantics (ops : List Op) (d : Bytes) : Prop where
  normalizeKey   : normalizeKey d = join '/' (components '/' d)
  idempotent     : Coordination.normalizeKey (Coordination.normalizeKey d) = Coordination.normalizeKey d
  sorted         : SortedMap.Sorted (run ops).store.data
  getKeyValueDir : (run ops).store.getKeyValueDir d = (run ops).store.data.filter (Extends d ·.1)
  deleteKeyValue : ((run ops).store.deleteKeyValue d).data =
    (run ops).store.data.filter fun p => ¬(Extends d p.1 ∨ p.1 = Coordination.normalizeKey d)

theorem deleteKeyValue_eq :
    (run (ops ++ (ConfigOp.deleteKeyValue d).ops)).store = (run ops).store.deleteKeyValue d := by
  rw [ConfigOp.ops, ←List.singleton_append, ←List.append_assoc, run_concat, run_concat]
  rfl

theorem directorySemantics (h : Issued ops) (hn : nul ∉ d) (hd : components '/' d ≠ []) : DirectorySemantics ops d where
  normalizeKey   := normalizeKey_of_not_mem hn
  idempotent     := normalizeKey_normalizeKey
  sorted         := (invariant ops).sorted
  getKeyValueDir := by
    rw [getKeyValueDir, getPrefix_eq (invariant ops).sorted]
    refine List.filter_congr fun p hp => ?_
    obtain ⟨cs, hv, hk⟩ := h.canonical hp
    rw [Bool.eq_iff_iff, isPrefixOf_iff hn hd hv hk, decide_eq_true_iff]
  deleteKeyValue := by
    have hs : SortedMap.Sorted ((run ops).store.delete (Coordination.normalizeKey d)).data :=
      (invariant ops).sorted.filter _
    rw [deleteKeyValue, deletePrefix_data hs, delete, SortedMap.erase, List.filter_filter]
    refine List.filter_congr fun p hp => ?_
    obtain ⟨cs, hv, hk⟩ := h.canonical hp
    rw [Bool.eq_iff_iff, Bool.and_eq_true, Bool.not_eq_true', ←Bool.not_eq_true, isPrefixOf_iff hn hd hv hk]
    simp only [decide_eq_true_eq, not_or, ne_eq]

theorem directorySemantics_nested : DirectorySemantics
    ((ConfigOp.insertKeyValue ['/', 'a', '/', '/', 'b'] ['x'] false).ops ++ (ConfigOp.deleteKeyValue ['a', 'b']).ops)
    ['/', 'a', '/'] := by
  refine directorySemantics (fun op hop => ?_) (by decide) (by decide)
  obtain hop | hop := List.mem_append.mp hop
  case inl => exact ⟨_, hop⟩
  case inr => exact ⟨_, hop⟩

end KeyValueStore
end Coordination
