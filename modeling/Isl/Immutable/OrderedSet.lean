import Isl.Immutable.OrderedMap

/-!
# Ordered sets of immutable

immutable's `OrderedSet` over its `OrderedMap` (`Isl.Immutable.OrderedMap`),
with the operations `HashSet` calls. A set carries the fact that its map was
built by the library's updates (`OrderedMap.Reachable`), whence the agreement
of its `Map` and slots (`OrderedMap.WF`).

An operation that changes a set runs in `withMutations`: it applies the
updates `set.add` and `set.remove` to a mutable copy, and at the end
(`__ensureOwner`) a set left empty becomes the canonical empty set
(`ensureOwner`).
What each operation does to the iteration order (`toArray`), which is that of
a duplicate-free list:

* `toArray_ofSeq`: the constructor keeps the first occurrence of each value
  (`List.eraseDups`);
* `toArray_union`: `s`, then the values of `t` that `s` lacks, in `t`'s order;
* `toArray_intersect`, `toArray_subtract`: `s` filtered by membership in `t`;
* `toArray_reverse`: the reverse, since the rebuilt set meets no repeat.

The library's shortcuts change nothing a user of a set can see:

* `union_fast_paths_agree`: `union` returns one of its operands when the other
  is empty, which iterates, answers `has` and counts as adding the values;
* `removeWith_compaction_invisible`: removing a value iterates, answers `has`
  and counts alike whether the slots are compacted or not.
-/

namespace Isl.Immutable

variable {α : Type} [DecidableEq α]

/-! ### Insertion order -/

/-- Appending the values of a duplicate-free `l` in turn appends those that
    `s` lacks. -/
theorem foldl_appendNew_of_nodup {l : List α} (hl : l.Nodup) (s : List α) :
    l.foldl appendNew s = s ++ l.filter (· ∉ s) := by
  induction l generalizing s with
  | nil => simp
  | cons a l ih =>
    obtain ⟨ha, hl⟩ := List.nodup_cons.1 hl
    by_cases has : a ∈ s
    · simp [appendNew, has, ih hl]
    · rw [List.foldl_cons, appendNew, if_neg has, ih hl, List.filter_cons_of_pos (by simpa),
        List.append_assoc, List.singleton_append]
      congr 2
      refine List.filter_congr fun b hb => ?_
      have : b ≠ a := fun h => ha (h ▸ hb)
      simp [this]

theorem eraseDups_loop (l bs : List α) :
    List.eraseDups.loop l bs = l.foldl appendNew bs.reverse := by
  induction l generalizing bs with
  | nil => rfl
  | cons a l ih =>
    by_cases ha : a ∈ bs <;> simp [List.eraseDups.loop, ha, ih, appendNew]

/-- `List.eraseDups`, which keeps the first occurrence of each value, appends
    the values in turn to an insertion-ordered set. -/
theorem eraseDups_eq_foldl (l : List α) : l.eraseDups = l.foldl appendNew [] :=
  eraseDups_loop l []

theorem mem_foldl_appendNew {a : α} (s l : List α) :
    a ∈ l.foldl appendNew s ↔ a ∈ s ∨ a ∈ l := by
  induction l generalizing s with
  | nil => simp
  | cons b l ih =>
    rw [List.foldl_cons, ih, appendNew, List.mem_cons]
    by_cases hab : a = b
    · subst hab
      split <;> simp [*]
    · split <;> simp [hab]

theorem mem_eraseDups {a : α} {l : List α} : a ∈ l.eraseDups ↔ a ∈ l := by
  simp [eraseDups_eq_foldl, mem_foldl_appendNew]

theorem eraseDups_of_nodup {l : List α} (hl : l.Nodup) : l.eraseDups = l := by
  rw [eraseDups_eq_foldl, foldl_appendNew_of_nodup hl]
  simp

/-- Appending to `s ++ t` the values of `l` in turn appends to `t` those that
    `s` lacks. -/
theorem foldl_appendNew_append (s t l : List α) :
    l.foldl appendNew (s ++ t) = s ++ (l.filter (· ∉ s)).foldl appendNew t := by
  induction l generalizing t with
  | nil => rfl
  | cons a l ih =>
    by_cases ha : a ∈ s
    · rw [List.foldl_cons, appendNew, if_pos (List.mem_append_left t ha), ih,
        List.filter_cons_of_neg (by simpa)]
    · have : appendNew (s ++ t) a = s ++ appendNew t a := by
        by_cases hat : a ∈ t <;> simp [appendNew, ha, hat]
      rw [List.foldl_cons, this, ih, List.filter_cons_of_pos (by simpa), List.foldl_cons]

/-- `List.eraseDups` keeps the first occurrence of a value and drops its later
    repeats. -/
theorem eraseDups_cons (a : α) (l : List α) :
    (a :: l).eraseDups = a :: (l.filter (· ≠ a)).eraseDups := by
  have := foldl_appendNew_append [a] [] l
  simp only [List.append_nil, List.mem_singleton] at this
  rw [eraseDups_eq_foldl, eraseDups_eq_foldl, List.foldl_cons, appendNew, if_neg (List.not_mem_nil a),
    List.nil_append, this, List.singleton_append]

/-- Erasing the values of `r` in turn from a duplicate-free `s` keeps the rest
    in order. -/
theorem foldl_erase {s : List α} (hs : s.Nodup) (r : List α) :
    r.foldl List.erase s = s.filter (· ∉ r) := by
  induction r generalizing s with
  | nil => simp
  | cons a r ih =>
    rw [List.foldl_cons, ih (hs.erase a), hs.erase_eq_filter, List.filter_filter]
    congr 1
    ext b
    by_cases b = a <;> by_cases b ∈ r <;> simp [*]

/-! ### Sets -/

/-- immutable's `OrderedSet`: its `OrderedMap`, built by the library. -/
structure OrderedSet (α : Type) [DecidableEq α] where
  /-- `_map`. -/
  map : OrderedMap α
  /-- Only the library's updates build the map. -/
  reachable : map.Reachable

namespace OrderedSet

theorem wf (s : OrderedSet α) : s.map.WF := s.reachable.wf

/-- `emptyOrderedSet()`, which `OrderedSet()` returns. -/
def empty : OrderedSet α := ⟨.empty, .empty⟩

/-- `size`. -/
def size (s : OrderedSet α) : ℕ := s.map.size

/-- `has(value)`. -/
def has (s : OrderedSet α) (v : α) : Bool := s.map.has v

/-- `toArray()`, the order of iteration. -/
def toArray (s : OrderedSet α) : List α := s.map.toArray

/-- `set.add(value)` on a mutable set. -/
def add (s : OrderedSet α) (v : α) : OrderedSet α := ⟨s.map.set v, s.reachable.set v⟩

/-- `set.remove(value)` on a mutable set. -/
def remove (s : OrderedSet α) (v : α) : OrderedSet α := ⟨s.map.remove v, s.reachable.remove v⟩

/-- The end of `withMutations` (`__ensureOwner`): a set left empty is the
    canonical empty set. -/
def ensureOwner (s : OrderedSet α) : OrderedSet α := if s.size = 0 then empty else s

/-- `OrderedSet(values)` for values neither `null` nor an `OrderedSet`:
    `emptyOrderedSet().withMutations(set => iter.forEach(v => set.add(v)))`. -/
def ofSeq (values : List α) : OrderedSet α := ensureOwner (values.foldl add empty)

/-- `union(other)`: without the `other`s of size `0` there is nothing to add;
    an empty set returns `OrderedSet(other)`, which is `other`; otherwise the
    values of `other` are added in turn. -/
def union (s other : OrderedSet α) : OrderedSet α :=
  if other.size = 0 then s
  else if s.size = 0 then other
  else ensureOwner (other.toArray.foldl add s)

/-- `intersect(other)`: the values of `s` that `other` lacks, gathered in the
    order of `s`, are removed in turn. -/
def intersect (s other : OrderedSet α) : OrderedSet α :=
  ensureOwner ((s.toArray.filter fun v => !other.has v).foldl remove s)

/-- `subtract(other)`: the values of `s` that `other` has, gathered in the
    order of `s`, are removed in turn. -/
def subtract (s other : OrderedSet α) : OrderedSet α :=
  ensureOwner ((s.toArray.filter fun v => other.has v).foldl remove s)

/-- `reverse()`: `reify(this, reverseFactory(this, true))`, the set built by the
    constructor from the values in reverse order. -/
def reverse (s : OrderedSet α) : OrderedSet α := ofSeq s.toArray.reverse

/-! ### Iteration -/

variable (s t : OrderedSet α)

theorem toArray_nodup : s.toArray.Nodup := s.wf.toArray_nodup

theorem has_iff_mem {v : α} : s.has v = true ↔ v ∈ s.toArray := s.wf.has_iff_mem

theorem size_eq_length : s.size = s.toArray.length := s.wf.size_eq_length

@[simp] theorem toArray_empty : (empty : OrderedSet α).toArray = [] := rfl

theorem size_eq_zero : s.size = 0 ↔ s.toArray = [] := by
  rw [size_eq_length, List.length_eq_zero]

@[simp] theorem toArray_ensureOwner : s.ensureOwner.toArray = s.toArray := by
  unfold ensureOwner
  split
  · next h => rw [toArray_empty, (size_eq_zero s).1 h]
  · rfl

@[simp] theorem toArray_add (v : α) : (s.add v).toArray = appendNew s.toArray v :=
  s.wf.toArray_set v

@[simp] theorem toArray_remove (v : α) : (s.remove v).toArray = s.toArray.erase v :=
  s.wf.toArray_remove v

theorem toArray_foldl_add (l : List α) :
    (l.foldl add s).toArray = l.foldl appendNew s.toArray := by
  induction l generalizing s with
  | nil => rfl
  | cons v l ih => rw [List.foldl_cons, ih, toArray_add, List.foldl_cons]

theorem toArray_foldl_remove (l : List α) :
    (l.foldl remove s).toArray = l.foldl List.erase s.toArray := by
  induction l generalizing s with
  | nil => rfl
  | cons v l ih => rw [List.foldl_cons, ih, toArray_remove, List.foldl_cons]

theorem toArray_ofSeq (l : List α) : (ofSeq l).toArray = l.eraseDups := by
  rw [ofSeq, toArray_ensureOwner, toArray_foldl_add, eraseDups_eq_foldl]
  rfl

theorem toArray_union :
    (s.union t).toArray = s.toArray ++ t.toArray.filter (· ∉ s.toArray) := by
  unfold union
  split
  · next ht => simp [(size_eq_zero t).1 ht]
  · split
    · next hs => simp [(size_eq_zero s).1 hs]
    · rw [toArray_ensureOwner, toArray_foldl_add, foldl_appendNew_of_nodup (toArray_nodup t)]

theorem toArray_intersect : (s.intersect t).toArray = s.toArray.filter (t.has ·) := by
  rw [intersect, toArray_ensureOwner, toArray_foldl_remove, foldl_erase (toArray_nodup s)]
  refine List.filter_congr fun v hv => ?_
  cases h : t.has v <;> simp [h, hv]

theorem toArray_subtract : (s.subtract t).toArray = s.toArray.filter (!t.has ·) := by
  rw [subtract, toArray_ensureOwner, toArray_foldl_remove, foldl_erase (toArray_nodup s)]
  refine List.filter_congr fun v hv => ?_
  cases h : t.has v <;> simp [h, hv]

theorem toArray_reverse : s.reverse.toArray = s.toArray.reverse := by
  rw [reverse, toArray_ofSeq, eraseDups_of_nodup (List.nodup_reverse.2 (toArray_nodup s))]

/-! ### Fast paths and compaction -/

theorem has_size_eq_of_toArray_eq (h : s.toArray = t.toArray) :
    (∀ v, s.has v = t.has v) ∧ s.size = t.size :=
  s.wf.has_size_eq_of_toArray_eq t.wf h

/-- `union`'s fast paths, the set itself for an empty argument and the
    argument itself for an empty set, iterate, answer `has` and count as adding
    the argument's values in turn. -/
theorem union_fast_paths_agree :
    (s.union t).toArray = (ensureOwner (t.toArray.foldl add s)).toArray ∧
      (∀ v, (s.union t).has v = (ensureOwner (t.toArray.foldl add s)).has v) ∧
      (s.union t).size = (ensureOwner (t.toArray.foldl add s)).size := by
  have h : (s.union t).toArray = (ensureOwner (t.toArray.foldl add s)).toArray := by
    rw [toArray_union, toArray_ensureOwner, toArray_foldl_add,
      foldl_appendNew_of_nodup (toArray_nodup t)]
  exact ⟨h, has_size_eq_of_toArray_eq _ _ h⟩

/-- Compaction is invisible: removing a value with or without compacting the
    slots iterates, answers `has` and counts alike, and compacting leaves no
    hole. -/
theorem removeWith_compaction_invisible (v : α) :
    (s.map.removeWith true v).toArray = (s.map.removeWith false v).toArray ∧
      (∀ w, (s.map.removeWith true v).has w = (s.map.removeWith false v).has w) ∧
      (s.map.removeWith true v).size = (s.map.removeWith false v).size ∧
      (s.has v = true →
        (s.map.removeWith true v).list.length = (s.map.removeWith true v).size) := by
  have h : (s.map.removeWith true v).toArray = (s.map.removeWith false v).toArray := by
    rw [s.wf.toArray_removeWith, s.wf.toArray_removeWith]
  obtain ⟨hhas, hsize⟩ :=
    (s.wf.removeWith true v).has_size_eq_of_toArray_eq (s.wf.removeWith false v) h
  exact ⟨h, hhas, hsize, s.wf.length_list_removeWith_true⟩

end OrderedSet

end Isl.Immutable
