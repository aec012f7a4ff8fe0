import Mathlib.Data.List.AList

/-!
# Ordered maps of immutable

The `OrderedSet` of the immutable library, which `HashSet` wraps, is an
`OrderedMap` from each of its values to itself (`Set.add(value)` is
`this._map.set(value, value)`). An `OrderedMap` keeps two structures:

* a `Map` from each key to the index of its slot, which answers `has` and
  `size`;
* a `List` of slots in insertion order, which iteration walks, skipping the
  holes that removals leave (`entry && fn(entry[1], entry[0], this)`).

`updateOrderedMap` updates both: setting a new key appends a slot; removing a
key clears its slot (pops it when it is the last), or, when the list is long
and at least half holes, compacts the list and rebuilds the `Map` from it.

The two agree (`OrderedMap.WF`) when the `Map` sends each key to exactly the
slot holding it. For such a map:

* `WF.set`, `WF.removeWith`: both updates keep the agreement, whether the
  removal compacts or not, so every map the library builds from the empty one
  has it (`Reachable.wf`);
* `WF.toArray_set`, `WF.toArray_remove`: the iteration order is that of an
  insertion-ordered list, to which setting appends a new key (`appendNew`) and
  removing erases one, whatever holes and compactions happen underneath;
* `WF.toArray_nodup`, `WF.has_iff_mem`, `WF.size_eq_length`: iteration repeats
  no key, `has` is membership in it and `size` its length;
* `Reachable.slotBound`: the slots, holes included, stay within twice the keys
  plus one, or the keys plus a trie node (`SlotBound`).
-/

namespace Isl.Immutable

variable {α : Type} [DecidableEq α]

/-- `l` with `a` appended unless it occurs in it: what adding `a` does to the
    order of an insertion-ordered set. -/
def appendNew (l : List α) (a : α) : List α :=
  if a ∈ l then l else l ++ [a]

/-- An `OrderedMap` from each of its keys to itself, as a set keeps it: a slot
    holds its key (`[k, k]`) or is a hole. -/
structure OrderedMap (α : Type) [DecidableEq α] where
  /-- `_map`: the index of the slot of each key. -/
  map : AList fun _ : α => ℕ
  /-- `_list`: the slots in insertion order; a hole (`undefined`) is `none`. -/
  list : List (Option α)

namespace OrderedMap

/-- `emptyOrderedMap()`. -/
def empty : OrderedMap α := ⟨∅, []⟩

/-- `size`: that of the `Map`. -/
def size (m : OrderedMap α) : ℕ := m.map.entries.length

/-- `has(k)`: the `Map` knows `k`. -/
def has (m : OrderedMap α) (k : α) : Bool := (m.map.lookup k).isSome

/-- Iteration (`toArray()`): the keys of the slots in order, holes skipped. -/
def toArray (m : OrderedMap α) : List α := m.list.filterMap id

/-- `SIZE`, the width `1 << SHIFT` of a node of immutable's tries. -/
def trieSize : ℕ := 32

/-- `updateOrderedMap(omap, k, k)`: a new key gets a new slot at the end; a
    known key already holds itself there, and the map is returned unchanged. -/
def set (m : OrderedMap α) (k : α) : OrderedMap α :=
  match m.map.lookup k with
  | some _ => m
  | none => ⟨m.map.insert k m.list.length, m.list ++ [some k]⟩

/-- The `Map` sending each key of the slots `l` to its index, counted from `n`,
    added to `acc`: `toKeyedSeq().map(entry => entry[0]).flip().toMap()`. -/
def indexMap : List (Option α) → ℕ → (AList fun _ : α => ℕ) → AList fun _ : α => ℕ
  | [], _, acc => acc
  | some k :: l, n, acc => indexMap l (n + 1) (acc.insert k n)
  | none :: l, n, acc => indexMap l (n + 1) acc

/-- The slots once the slot `i` is cleared: popped when it is the last
    (`list.pop()`), a hole otherwise (`list.set(i, undefined)`). -/
def clearSlot (l : List (Option α)) (i : ℕ) : List (Option α) :=
  if i = l.length - 1 then l.dropLast else l.set i none

/-- `updateOrderedMap(omap, k, NOT_SET)`. With at least `SIZE` slots, and at
    least twice as many as keys, the list is compacted: the slot `i` and the
    holes are dropped (`list.filter((entry, idx) => entry !== undefined && i !== idx)`)
    and the `Map` is rebuilt from what is left. Otherwise the key leaves the
    `Map` and its slot is cleared. -/
def remove (m : OrderedMap α) (k : α) : OrderedMap α :=
  match m.map.lookup k with
  | none => m
  | some i =>
    if trieSize ≤ m.list.length ∧ m.size * 2 ≤ m.list.length then
      let list := (m.list.eraseIdx i).filter Option.isSome
      ⟨indexMap list 0 ∅, list⟩
    else ⟨m.map.erase k, clearSlot m.list i⟩

/-- The removal of `k` with the choice of compaction left to `compact`; `remove`
    compacts on its own test (`remove_eq_removeWith`). -/
def removeWith (compact : Bool) (m : OrderedMap α) (k : α) : OrderedMap α :=
  match m.map.lookup k with
  | none => m
  | some i =>
    if compact then
      let list := (m.list.eraseIdx i).filter Option.isSome
      ⟨indexMap list 0 ∅, list⟩
    else ⟨m.map.erase k, clearSlot m.list i⟩

theorem remove_eq_removeWith (m : OrderedMap α) (k : α) :
    m.remove k =
      m.removeWith (decide (trieSize ≤ m.list.length ∧ m.size * 2 ≤ m.list.length)) k := by
  unfold remove removeWith
  cases m.map.lookup k <;> simp

/-- The `Map` and the slots agree: the `Map` sends `k` to `i` exactly when the
    slot `i` holds `k`. -/
def WF (m : OrderedMap α) : Prop :=
  ∀ k i, m.map.lookup k = some i ↔ m.list[i]? = some (some k)

/-! ### Slots -/

omit [DecidableEq α] in
@[simp] theorem mem_filterMap_id {l : List (Option α)} {k : α} :
    k ∈ l.filterMap id ↔ some k ∈ l := by
  simp

theorem getElem?_append_singleton {β : Type} (l : List β) (a : β) (i : ℕ) :
    (l ++ [a])[i]? = if i = l.length then some a else l[i]? := by
  split
  · subst_vars; simp
  · rcases Nat.lt_or_gt_of_ne ‹_› with h | h
    · simp [List.getElem?_append_left h]
    · rw [List.getElem?_append_right h.le, List.getElem?_eq_none h.le,
        List.getElem?_eq_none (by simp; omega)]

omit [DecidableEq α] in
/-- Keys in distinct slots make a duplicate-free iteration. -/
theorem nodup_filterMap_id {l : List (Option α)}
    (h : ∀ k (i j : ℕ), l[i]? = some (some k) → l[j]? = some (some k) → i = j) :
    (l.filterMap id).Nodup := by
  induction l with
  | nil => exact List.nodup_nil
  | cons x l ih =>
    have ht := ih fun k i j hi hj =>
      Nat.succ.inj (h k (i + 1) (j + 1) (by simpa using hi) (by simpa using hj))
    cases x with
    | none => simpa using ht
    | some a =>
      refine List.nodup_cons.2 ⟨fun ha => ?_, ht⟩
      obtain ⟨j, hj⟩ := List.mem_iff_getElem?.1 (mem_filterMap_id.1 ha)
      exact absurd (h a 0 (j + 1) (by simp) (by simpa using hj)) (Nat.succ_ne_zero j).symm

/-- Dropping the one slot of `k` erases `k` from the iteration. -/
theorem filterMap_eraseIdx {l : List (Option α)} {k : α} :
    ∀ {i : ℕ}, l[i]? = some (some k) → (∀ j, l[j]? = some (some k) → j = i) →
      (l.eraseIdx i).filterMap id = (l.filterMap id).erase k := by
  induction l with
  | nil => simp
  | cons x l ih =>
    rintro (_ | i) hi hu
    · obtain rfl : x = some k := by simpa using hi
      simp
    · have hx : x ≠ some k := fun hx => absurd (hu 0 (by simp [hx])) (Nat.succ_ne_zero i).symm
      have ht := ih (by simpa using hi) fun j hj => Nat.succ.inj (hu (j + 1) (by simpa using hj))
      cases x with
      | none => simpa using ht
      | some a =>
        have hak : a ≠ k := fun h => hx (congrArg some h)
        simp [ht, List.erase_cons, hak]

omit [DecidableEq α] in
theorem filterMap_set_none (l : List (Option α)) (i : ℕ) :
    (l.set i none).filterMap id = (l.eraseIdx i).filterMap id := by
  induction l generalizing i with
  | nil => simp
  | cons x l ih => cases i <;> cases x <;> simp [ih]

omit [DecidableEq α] in
/-- Clearing a slot, by a pop or by a hole, drops it from the iteration. -/
theorem filterMap_clearSlot (l : List (Option α)) (i : ℕ) :
    (clearSlot l i).filterMap id = (l.eraseIdx i).filterMap id := by
  unfold clearSlot
  split
  · next h =>
    rw [h, List.dropLast_eq_take, List.eraseIdx_eq_take_drop_succ,
      List.drop_eq_nil_of_le (by omega), List.append_nil]
  · exact filterMap_set_none l i

omit [DecidableEq α] in
theorem getElem?_clearSlot {l : List (Option α)} {i j : ℕ} {k : α} (hi : ∃ a, l[i]? = some a) :
    (clearSlot l i)[j]? = some (some k) ↔ l[j]? = some (some k) ∧ j ≠ i := by
  obtain ⟨a, ha⟩ := hi
  have hlen : i < l.length := (List.getElem?_eq_some_iff.1 ha).1
  unfold clearSlot
  split
  · rw [List.getElem?_dropLast]
    split
    · exact ⟨fun h => ⟨h, by omega⟩, fun h => h.1⟩
    · exact ⟨fun h => Option.noConfusion h,
        fun h => absurd (List.getElem?_eq_some_iff.1 h.1).1 (by have := h.2; omega)⟩
  · rw [List.getElem?_set]
    by_cases hij : i = j
    · subst hij; simp [hlen]
    · simp [hij, Ne.symm hij]

omit [DecidableEq α] in
theorem filterMap_filter_isSome (l : List (Option α)) :
    (l.filter Option.isSome).filterMap id = l.filterMap id := by
  induction l with
  | nil => rfl
  | cons x l ih => cases x <;> simp [ih]

omit [DecidableEq α] in
theorem length_filter_isSome (l : List (Option α)) :
    (l.filter Option.isSome).length = (l.filterMap id).length := by
  induction l with
  | nil => rfl
  | cons x l ih => cases x <;> simp [ih]

omit [DecidableEq α] in
theorem length_clearSlot_le (l : List (Option α)) (i : ℕ) : (clearSlot l i).length ≤ l.length := by
  unfold clearSlot
  split <;> simp

/-- The rebuilt `Map` leaves a key of no slot as `acc` had it. -/
theorem lookup_indexMap_of_not_mem {l : List (Option α)} {k : α} (hk : some k ∉ l) :
    ∀ n acc, (indexMap l n acc).lookup k = acc.lookup k := by
  induction l with
  | nil => simp [indexMap]
  | cons x l ih =>
    simp only [List.mem_cons, not_or] at hk
    obtain ⟨hx, hk⟩ := hk
    intro n acc
    cases x with
    | none => exact ih hk _ _
    | some a =>
      rw [indexMap, ih hk, AList.lookup_insert_ne fun h => hx (by rw [h])]

/-- The rebuilt `Map` sends the key of a slot to its index. -/
theorem lookup_indexMap_of_getElem? {l : List (Option α)} (hl : (l.filterMap id).Nodup)
    {k : α} : ∀ {i}, l[i]? = some (some k) → ∀ n acc, (indexMap l n acc).lookup k = some (n + i) := by
  induction l with
  | nil => simp
  | cons x l ih =>
    rintro (_ | i) hi n acc
    · obtain rfl : x = some k := by simpa using hi
      obtain ⟨hk, -⟩ : some k ∉ l ∧ (l.filterMap id).Nodup := by simpa using hl
      rw [indexMap, lookup_indexMap_of_not_mem hk, AList.lookup_insert]; rfl
    · have hi' : l[i]? = some (some k) := by simpa using hi
      have hn : n + (i + 1) = n + 1 + i := by omega
      cases x with
      | none => rw [indexMap, ih (by simpa using hl) hi', hn]
      | some a => rw [indexMap, ih (by simpa using (List.nodup_cons.1 hl).2) hi', hn]

/-- The `Map` rebuilt from duplicate-free slots agrees with them. -/
theorem lookup_indexMap_eq_some {l : List (Option α)} (hl : (l.filterMap id).Nodup) {k : α}
    {j : ℕ} : (indexMap l 0 ∅).lookup k = some j ↔ l[j]? = some (some k) := by
  refine ⟨fun hj => ?_, fun hj => by rw [lookup_indexMap_of_getElem? hl hj, Nat.zero_add]⟩
  by_cases hk : some k ∈ l
  · obtain ⟨i, hi⟩ := List.mem_iff_getElem?.1 hk
    rw [lookup_indexMap_of_getElem? hl hi, Nat.zero_add] at hj
    exact Option.some.inj hj ▸ hi
  · simp [lookup_indexMap_of_not_mem hk] at hj

/-! ### Coherence -/

theorem empty_wf : (empty : OrderedMap α).WF := fun k i => by simp [empty]

@[simp] theorem toArray_empty : (empty : OrderedMap α).toArray = [] := rfl

variable {m : OrderedMap α} {k : α}

theorem WF.slot_unique (h : m.WF) {i j : ℕ} (hi : m.list[i]? = some (some k))
    (hj : m.list[j]? = some (some k)) : i = j :=
  Option.some.inj (((h k i).2 hi).symm.trans ((h k j).2 hj))

theorem WF.toArray_nodup (h : m.WF) : m.toArray.Nodup :=
  nodup_filterMap_id fun _ _ _ => h.slot_unique

theorem WF.mem_toArray (h : m.WF) : k ∈ m.toArray ↔ ∃ i, m.map.lookup k = some i := by
  simp only [toArray, mem_filterMap_id]
  rw [List.mem_iff_getElem?]
  simp only [h k]

theorem WF.lookup_eq_none (h : m.WF) : m.map.lookup k = none ↔ k ∉ m.toArray := by
  rw [h.mem_toArray, Option.eq_none_iff_forall_not_mem]
  simp

theorem WF.has_iff_mem (h : m.WF) : m.has k = true ↔ k ∈ m.toArray := by
  rw [h.mem_toArray, has, Option.isSome_iff_exists]

/-- `size`, counted by the `Map`, is the number of keys iteration visits. -/
theorem WF.size_eq_length (h : m.WF) : m.size = m.toArray.length := by
  have hperm : m.map.keys.Perm m.toArray :=
    (List.perm_ext_iff_of_nodup m.map.keys_nodup h.toArray_nodup).2 fun k => by
      rw [← AList.mem_keys, ← AList.lookup_isSome, Option.isSome_iff_exists, h.mem_toArray]
  simpa [size, AList.keys, List.keys] using hperm.length_eq

theorem WF.set (h : m.WF) (k : α) : (m.set k).WF := by
  unfold OrderedMap.set
  cases hk : m.map.lookup k with
  | some => exact h
  | none =>
    intro k' i
    simp only [getElem?_append_singleton]
    by_cases hk' : k' = k
    · subst hk'
      rw [AList.lookup_insert, Option.some.injEq]
      split
      · next hi => simp [hi, eq_comm]
      · next hi =>
        refine ⟨fun h' => absurd h'.symm hi, fun h' => ?_⟩
        simp [(h k' i).2 h'] at hk
    · rw [AList.lookup_insert_ne hk', h k' i]
      split
      · next hi => simp [hi, List.getElem?_eq_none, Ne.symm hk']
      · rfl

theorem WF.toArray_set (h : m.WF) (k : α) : (m.set k).toArray = appendNew m.toArray k := by
  unfold OrderedMap.set appendNew
  cases hk : m.map.lookup k with
  | some i => simp [h.mem_toArray.2 ⟨i, hk⟩]
  | none => rw [if_neg (h.lookup_eq_none.1 hk)]; simp [toArray]

theorem WF.filterMap_eraseIdx (h : m.WF) {i : ℕ} (hi : m.list[i]? = some (some k)) :
    (m.list.eraseIdx i).filterMap id = m.toArray.erase k :=
  OrderedMap.filterMap_eraseIdx hi fun _ hj => h.slot_unique hj hi

theorem WF.removeWith (h : m.WF) (compact : Bool) (k : α) : (m.removeWith compact k).WF := by
  unfold OrderedMap.removeWith
  cases hk : m.map.lookup k with
  | none => exact h
  | some i =>
    have hi := (h k i).1 hk
    dsimp only
    split
    · -- compaction: the rebuilt `Map` indexes the remaining slots
      have hnd : (((m.list.eraseIdx i).filter Option.isSome).filterMap id).Nodup := by
        rw [filterMap_filter_isSome, h.filterMap_eraseIdx hi]
        exact h.toArray_nodup.erase k
      exact fun k' j => lookup_indexMap_eq_some hnd
    · intro k' j
      rw [getElem?_clearSlot ⟨_, hi⟩]
      by_cases hk' : k' = k
      · subst hk'
        simp only [AList.lookup_erase, reduceCtorEq, false_iff, not_and, not_not]
        exact fun hj => h.slot_unique hj hi
      · rw [AList.lookup_erase_ne hk', h k' j]
        refine ⟨fun hj => ⟨hj, fun hji => ?_⟩, And.left⟩
        subst hji
        exact hk' (by simpa [hi] using hj.symm)

theorem WF.remove (h : m.WF) (k : α) : (m.remove k).WF :=
  remove_eq_removeWith m k ▸ h.removeWith _ k

/-- The maps the library builds: from the empty map, by updates. -/
inductive Reachable : OrderedMap α → Prop
  | empty : Reachable empty
  | set {m : OrderedMap α} (k : α) : Reachable m → Reachable (m.set k)
  | remove {m : OrderedMap α} (k : α) : Reachable m → Reachable (m.remove k)

/-- Every map the library builds keeps its `Map` and slots in agreement. -/
theorem Reachable.wf (h : m.Reachable) : m.WF := by
  induction h with
  | empty => exact empty_wf
  | set k _ ih => exact ih.set k
  | remove k _ ih => exact ih.remove k

theorem WF.toArray_removeWith (h : m.WF) (compact : Bool) (k : α) :
    (m.removeWith compact k).toArray = m.toArray.erase k := by
  unfold OrderedMap.removeWith
  cases hk : m.map.lookup k with
  | none => exact (List.erase_of_not_mem (h.lookup_eq_none.1 hk)).symm
  | some i =>
    have hi := (h k i).1 hk
    dsimp only
    split
    · simp only [toArray, filterMap_filter_isSome, h.filterMap_eraseIdx hi]
    · simp only [toArray, filterMap_clearSlot, h.filterMap_eraseIdx hi]

theorem WF.toArray_remove (h : m.WF) (k : α) : (m.remove k).toArray = m.toArray.erase k := by
  rw [remove_eq_removeWith, h.toArray_removeWith]

/-- Two agreeing maps that iterate alike answer `has` and `size` alike. -/
theorem WF.has_size_eq_of_toArray_eq {n : OrderedMap α} (hm : m.WF) (hn : n.WF)
    (h : m.toArray = n.toArray) : (∀ k, m.has k = n.has k) ∧ m.size = n.size :=
  ⟨fun k => Bool.eq_iff_iff.2 (by rw [hm.has_iff_mem, hn.has_iff_mem, h]),
    by rw [hm.size_eq_length, hn.size_eq_length, h]⟩

/-- Compaction leaves no hole: there are as many slots as keys. -/
theorem WF.length_list_removeWith_true (h : m.WF) (hk : m.has k = true) :
    (m.removeWith true k).list.length = (m.removeWith true k).size := by
  obtain ⟨i, hi⟩ := Option.isSome_iff_exists.1 hk
  rw [(h.removeWith true k).size_eq_length]
  simp only [OrderedMap.removeWith, hi, if_true, toArray, length_filter_isSome,
    filterMap_filter_isSome]

/-! ### Slots and keys -/

/-- The slots stay within twice the keys, up to a trie node of holes:
    removals leave holes, and compaction drops them once the slots are at
    least twice the keys. -/
def SlotBound (m : OrderedMap α) : Prop :=
  m.list.length ≤ max (m.size + (trieSize - 1)) (2 * m.size + 1)

theorem WF.slotBound_set (h : m.WF) (hb : m.SlotBound) (k : α) : (m.set k).SlotBound := by
  cases hk : m.map.lookup k with
  | some i => simpa [OrderedMap.set, hk] using hb
  | none =>
    have hsize : (m.set k).size = m.size + 1 := by
      rw [(h.set k).size_eq_length, h.toArray_set, appendNew, if_neg (h.lookup_eq_none.1 hk),
        List.length_append, h.size_eq_length, List.length_singleton]
    have hlen : (m.set k).list.length = m.list.length + 1 := by simp [OrderedMap.set, hk]
    unfold SlotBound at *
    omega

theorem WF.slotBound_remove (h : m.WF) (hb : m.SlotBound) (k : α) : (m.remove k).SlotBound := by
  cases hk : m.map.lookup k with
  | none => simpa [OrderedMap.remove, hk] using hb
  | some i =>
    have hmem : k ∈ m.toArray := h.mem_toArray.2 ⟨i, hk⟩
    have hsize : (m.remove k).size + 1 = m.size := by
      rw [(h.remove k).size_eq_length, h.toArray_remove, h.size_eq_length,
        List.length_erase_of_mem hmem]
      exact Nat.sub_add_cancel (List.length_pos_of_mem hmem)
    unfold SlotBound at *
    by_cases hc : trieSize ≤ m.list.length ∧ m.size * 2 ≤ m.list.length
    · -- compaction leaves no hole
      have : (m.remove k).list.length = (m.remove k).size := by
        rw [(h.remove k).size_eq_length]
        simp only [OrderedMap.remove, hk, hc, and_self, if_true, toArray, length_filter_isSome,
          filterMap_filter_isSome]
      omega
    · have : (m.remove k).list.length ≤ m.list.length := by
        simp only [OrderedMap.remove, hk, hc, if_false]
        exact length_clearSlot_le _ _
      omega

/-- Every map the library builds keeps its slots within the bound. -/
theorem Reachable.slotBound (h : m.Reachable) : m.SlotBound := by
  induction h with
  | empty => exact Nat.zero_le _
  | set k hm ih => exact hm.wf.slotBound_set ih k
  | remove k hm ih => exact hm.wf.slotBound_remove ih k

end OrderedMap

end Isl.Immutable
