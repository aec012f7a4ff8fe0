import Isl.Dag.Set
import Mathlib.Data.List.Sort

/-!
# Laws of hash sets

What `HashSet` promises its users, over every set and every argument:

* `run_keeps_invariant`: after any run of operations, from `new HashSet()` or
  from `HashSet.fromHashes(x)`, iteration repeats no hash, `size` is its length
  and `contains` is membership in it, and its storage stays linear in its size
  (`slots_le_of_size`);
* `union_is_idempotent_monoid`: ordered union is associative and idempotent
  with the empty set as unit, so every grouping of a union of sets iterates
  alike (`UnionTree`);
* `fromHashes_agrees_with_arrayFromHashes`: the two conversions of a `SetLike`
  agree up to later repeats, as the first occurrence of a hash wins
  (`fromHashes_first_occurrence_wins`);
* `union_order_contract`, `intersect_order_contract`,
  `subtract_order_contract`, `reverse_is_involution`: the order of each
  combinator;
* `toSortedArray_canonical`: the sorted array is a canonical form of
  membership;
* `run_refines_spec`: every run iterates as the run of the operations' list
  specifications (`Op.spec`), the abstract model of a set;
* `intersect_subtract_partition`, `union_subtract_hash_round_trip`: how the
  combinators compose: intersecting with and subtracting one argument split a
  set, and adding a hash then subtracting it gives the set back exactly when
  it lacked the hash.
-/

namespace Isl.Dag

open Immutable HashSet

variable {α : Type} [DecidableEq α]

/-! ### Runs -/

/-- An operation of `HashSet` that makes a new set from one. -/
inductive Op (α : Type) [DecidableEq α] where
  | union (other : SetLike α)
  | intersect (other : SetLike α)
  | subtract (other : SetLike α)
  | reverse

/-- The set an operation makes from `s`. -/
def Op.apply : Op α → HashSet α → HashSet α
  | .union other, s => s.union other
  | .intersect other, s => s.intersect other
  | .subtract other, s => s.subtract other
  | .reverse, s => s.reverse

/-- The set made from `s` by the operations `ops` in turn. -/
def run (s : HashSet α) (ops : List (Op α)) : HashSet α :=
  ops.foldl (fun s op => op.apply s) s

/-- The representation invariant of a `HashSet`, as its users see it. -/
structure HashSet.Invariant (s : HashSet α) : Prop where
  /-- No hash is iterated twice. -/
  nodup : s.toArray.Nodup
  /-- `size` counts the iteration. -/
  size_eq : s.size = s.toArray.length
  /-- `contains` is membership in the iteration. -/
  contains_iff : ∀ hash, s.contains hash = true ↔ hash ∈ s.toArray

/-- Every set keeps the invariant, as its `OrderedSet` keeps its `Map` and
    slots in agreement. -/
theorem HashSet.invariant (s : HashSet α) : s.Invariant :=
  ⟨s.toArray_nodup, s.size_eq_length, fun _ => s.contains_iff_mem⟩

theorem run_keeps_invariant :
    (∀ ops : List (Op α), (run (HashSet.new none) ops).Invariant) ∧
      ∀ (x : SetLike α) (ops : List (Op α)), (run (fromHashes x) ops).Invariant :=
  ⟨fun _ => invariant _, fun _ _ => invariant _⟩

/-- The storage of a set stays linear in its size: the slots of its
    `OrderedMap`, holes included, number at most `size + 31` or `2 * size + 1`. -/
theorem slots_le_of_size (s : HashSet α) :
    s.inner.map.list.length ≤ max (s.size + 31) (2 * s.size + 1) :=
  s.inner.reachable.slotBound

/-! ### Union -/

/-- Ordered union of two iteration orders: `a`, then what `a` lacks of `b`. -/
def orderedUnion (a b : List α) : List α := a ++ b.filter (· ∉ a)

theorem toArray_union_hashSet (s t : HashSet α) :
    (s.union (.hashSet t)).toArray = orderedUnion s.toArray t.toArray :=
  toArray_union s (.hashSet t)

theorem orderedUnion_assoc (a b c : List α) :
    orderedUnion (orderedUnion a b) c = orderedUnion a (orderedUnion b c) := by
  simp only [orderedUnion, List.filter_append, List.filter_filter, List.append_assoc]
  congr 2
  refine List.filter_congr fun x _ => ?_
  by_cases hb : x ∈ b <;> by_cases ha : x ∈ a <;> simp [ha, hb]

@[simp] theorem nil_orderedUnion (b : List α) : orderedUnion [] b = b := by
  simp [orderedUnion]

/-- A grouping of unions of sets. -/
inductive UnionTree (α : Type) [DecidableEq α] where
  | leaf (s : HashSet α)
  | node (l r : UnionTree α)

/-- The union a grouping denotes. -/
def UnionTree.eval : UnionTree α → HashSet α
  | .leaf s => s
  | .node l r => l.eval.union (.hashSet r.eval)

/-- The sets of a grouping, left to right. -/
def UnionTree.leaves : UnionTree α → List (HashSet α)
  | .leaf s => [s]
  | .node l r => l.leaves ++ r.leaves

/-- Folding union over sets, from `acc`. -/
def unionAll (acc : HashSet α) (sets : List (HashSet α)) : HashSet α :=
  sets.foldl (fun acc s => acc.union (.hashSet s)) acc

theorem toArray_unionAll (acc : HashSet α) (sets : List (HashSet α)) :
    (unionAll acc sets).toArray = sets.foldl (fun a s => orderedUnion a s.toArray) acc.toArray := by
  induction sets generalizing acc with
  | nil => rfl
  | cons s sets ih => exact (ih _).trans (by rw [toArray_union_hashSet]; rfl)

theorem foldl_orderedUnion (acc : List α) (sets : List (HashSet α)) :
    sets.foldl (fun a s => orderedUnion a s.toArray) acc =
      orderedUnion acc (sets.foldl (fun a s => orderedUnion a s.toArray) []) := by
  induction sets generalizing acc with
  | nil => simp [orderedUnion]
  | cons s sets ih => rw [List.foldl_cons, ih, List.foldl_cons, ih (orderedUnion [] _),
      nil_orderedUnion, orderedUnion_assoc]

theorem UnionTree.toArray_eval (t : UnionTree α) :
    t.eval.toArray = (unionAll (HashSet.new none) t.leaves).toArray := by
  rw [toArray_unionAll]
  induction t with
  | leaf s => simp [eval, leaves]
  | node l r ihl ihr =>
    rw [eval, toArray_union_hashSet, ihl, ihr, leaves, List.foldl_append,
      foldl_orderedUnion (List.foldl _ _ l.leaves)]
    rfl

theorem union_is_idempotent_monoid (A B C : HashSet α) :
    ((A.union (.hashSet B)).union (.hashSet C)).toArray =
        (A.union (.hashSet (B.union (.hashSet C)))).toArray ∧
      (A.union (.hashSet A)).toArray = A.toArray ∧
      (A.union (.hashSet (HashSet.new none))).toArray = A.toArray ∧
      ((HashSet.new none).union (.hashSet A)).toArray = A.toArray ∧
      ∀ t : UnionTree α, t.eval.toArray = (unionAll (HashSet.new none) t.leaves).toArray := by
  refine ⟨?_, ?_, ?_, ?_, UnionTree.toArray_eval⟩
  · simp only [toArray_union_hashSet, orderedUnion_assoc]
  · simp [toArray_union_hashSet, orderedUnion]
  · simp [toArray_union_hashSet, orderedUnion]
  · simp [toArray_union_hashSet]

/-! ### Conversions -/

theorem fromHashes_agrees_with_arrayFromHashes :
    (∀ x : SetLike α, (fromHashes x).toArray = (arrayFromHashes x).eraseDups) ∧
      (∀ x : SetLike α, (fromHashes x).toArray = arrayFromHashes x ↔
        (arrayFromHashes x).Nodup) ∧
      ∀ x : SetLike α, (∀ hashes, x ≠ .iterable hashes) →
        (fromHashes x).toArray = arrayFromHashes x := by
  refine ⟨toArray_fromHashes, fun x => ⟨fun h => h ▸ toArray_nodup _, fun h => ?_⟩, ?_⟩
  · rw [toArray_fromHashes, eraseDups_of_nodup h]
  · intro x hx
    rw [toArray_fromHashes, eraseDups_of_nodup]
    cases x with
    | iterable hashes => exact absurd rfl (hx hashes)
    | hashSet s => exact s.toArray_nodup
    | orderedSet s => exact s.toArray_nodup
    | hash h => exact List.nodup_singleton h
    | null | undefined => exact List.nodup_nil

theorem fromHashes_hash_agrees :
    (fromHashes (.hash 7 : SetLike ℕ)).toArray = arrayFromHashes (.hash 7) :=
  fromHashes_agrees_with_arrayFromHashes.2.2 _ fun _ h => SetLike.noConfusion h

/-- Converting an iterable keeps its first hash first, then converts the rest
    without it: the first occurrence wins. -/
theorem fromHashes_first_occurrence_wins (h : α) (hashes : List α) :
    (fromHashes (.iterable (h :: hashes))).toArray =
      h :: (fromHashes (.iterable (hashes.filter (· ≠ h)))).toArray := by
  simp only [toArray_fromHashes, arrayFromHashes, eraseDups_cons]

/-! ### Order of the combinators -/

variable (A : HashSet α) (other : SetLike α)

theorem union_order_contract :
    (A.union other).toArray =
        A.toArray ++ (fromHashes other).toArray.filter (fun hash => !A.contains hash) ∧
      (∀ hash, hash ∈ (A.union other).toArray ↔ hash ∈ A.toArray ∨ hash ∈ arrayFromHashes other) ∧
      (A.union other).toArray.Nodup := by
  refine ⟨?_, fun hash => ?_, toArray_nodup _⟩
  · rw [toArray_union]
    congr 1
    exact List.filter_congr fun h _ => by simp [contains_eq_decide]
  · rw [toArray_union, List.mem_append, List.mem_filter, mem_fromHashes]
    by_cases h : hash ∈ A.toArray <;> simp [h]

theorem intersect_order_contract :
    (A.intersect other).toArray = A.toArray.filter ((fromHashes other).contains ·) ∧
      (A.intersect other).toArray.Sublist A.toArray ∧
      ∀ hash, hash ∈ (A.intersect other).toArray ↔
        hash ∈ A.toArray ∧ hash ∈ arrayFromHashes other := by
  refine ⟨toArray_intersect A other, ?_, fun hash => ?_⟩
  · rw [toArray_intersect]; exact List.filter_sublist _
  · rw [toArray_intersect, List.mem_filter, contains_iff_mem, mem_fromHashes]

theorem subtract_order_contract :
    (A.subtract other).toArray = A.toArray.filter (!(fromHashes other).contains ·) ∧
      (A.subtract other).toArray.Sublist A.toArray ∧
      ∀ hash, hash ∈ (A.subtract other).toArray ↔
        hash ∈ A.toArray ∧ hash ∉ arrayFromHashes other := by
  refine ⟨toArray_subtract A other, ?_, fun hash => ?_⟩
  · rw [toArray_subtract]; exact List.filter_sublist _
  · rw [toArray_subtract, List.mem_filter, ← mem_fromHashes]
    simp [contains_eq_decide]

theorem reverse_is_involution :
    A.reverse.toArray = A.toArray.reverse ∧ A.reverse.size = A.size ∧
      (∀ hash, A.reverse.contains hash = A.contains hash) ∧
      A.reverse.reverse.toArray = A.toArray := by
  refine ⟨toArray_reverse A, ?_, fun hash => ?_, ?_⟩
  · rw [size_eq_length, size_eq_length, toArray_reverse, List.length_reverse]
  · rw [Bool.eq_iff_iff, contains_iff_mem, contains_iff_mem, toArray_reverse, List.mem_reverse]
  · rw [toArray_reverse, toArray_reverse, List.reverse_reverse]

/-! ### Further laws -/

theorem toArray_intersect_hashSet (s t : HashSet α) :
    (s.intersect (.hashSet t)).toArray = s.toArray.filter (· ∈ t.toArray) :=
  (toArray_intersect s _).trans (List.filter_congr fun _ _ => contains_eq_decide t)

theorem toArray_subtract_hashSet (s t : HashSet α) :
    (s.subtract (.hashSet t)).toArray = s.toArray.filter (· ∉ t.toArray) :=
  (toArray_subtract s _).trans (List.filter_congr fun _ _ => by simp [contains_eq_decide])

theorem contains_union_comm (s t : HashSet α) (hash : α) :
    (s.union (.hashSet t)).contains hash = (t.union (.hashSet s)).contains hash := by
  simp only [contains_eq_decide, toArray_union_hashSet, orderedUnion, List.mem_append,
    List.mem_filter, decide_eq_true_eq]
  by_cases hs : hash ∈ s.toArray <;> by_cases ht : hash ∈ t.toArray <;> simp [hs, ht]

/-- Union has the same members either way round, but not the same order. -/
theorem union_symmetric_in_members_only :
    (∀ (A B : HashSet α) hash,
        (A.union (.hashSet B)).contains hash = (B.union (.hashSet A)).contains hash) ∧
      ∃ A B : HashSet ℕ, (A.union (.hashSet B)).toArray ≠ (B.union (.hashSet A)).toArray :=
  ⟨contains_union_comm, fromHashes (.hash 1), fromHashes (.hash 2), by decide⟩

/-- Intersection distributes over union, order included. -/
theorem intersect_union_distrib (A B C : HashSet α) :
    ((A.union (.hashSet B)).intersect (.hashSet C)).toArray =
      ((A.intersect (.hashSet C)).union (.hashSet (B.intersect (.hashSet C)))).toArray := by
  simp only [toArray_intersect_hashSet, toArray_union_hashSet, orderedUnion, List.filter_append,
    List.filter_filter]
  congr 1
  refine List.filter_congr fun x _ => ?_
  by_cases hc : x ∈ C.toArray <;> by_cases ha : x ∈ A.toArray <;> simp [ha, hc]

/-- Subtracting a union subtracts its parts in turn, order included. -/
theorem subtract_union_eq_subtract_subtract (A B C : HashSet α) :
    (A.subtract (.hashSet (B.union (.hashSet C)))).toArray =
      ((A.subtract (.hashSet B)).subtract (.hashSet C)).toArray := by
  simp only [toArray_subtract_hashSet, toArray_union_hashSet, orderedUnion, List.filter_filter]
  refine List.filter_congr fun x _ => ?_
  by_cases hb : x ∈ B.toArray <;> by_cases hc : x ∈ C.toArray <;> simp [hb, hc]

/-- Intersecting with an argument and subtracting it split a set in two: every
    hash of the set is in exactly one part, and the sizes add up. -/
theorem intersect_subtract_partition (A : HashSet α) (other : SetLike α) :
    (A.intersect other).size + (A.subtract other).size = A.size ∧
      ∀ hash, ((A.intersect other).contains hash = true ∨ (A.subtract other).contains hash = true ↔
          A.contains hash = true) ∧
        ¬((A.intersect other).contains hash = true ∧ (A.subtract other).contains hash = true) := by
  refine ⟨?_, fun hash => ?_⟩
  · rw [size_eq_length, size_eq_length, size_eq_length, toArray_intersect, toArray_subtract,
      ← List.length_eq_length_filter_add]
  · rw [contains_iff_mem, contains_iff_mem, contains_iff_mem, toArray_intersect, toArray_subtract]
    simp only [List.mem_filter]
    cases (fromHashes other).contains hash <;> simp

/-- Adding a hash and subtracting it again leaves the set's order without the
    hash, which gives the set back exactly when it lacked the hash. -/
theorem union_subtract_hash_round_trip (A : HashSet α) (h : α) :
    ((A.union (.hash h)).subtract (.hash h)).toArray = A.toArray.filter (· ≠ h) ∧
      (((A.union (.hash h)).subtract (.hash h)).toArray = A.toArray ↔ A.contains h = false) := by
  have hone : (fromHashes (.hash h : SetLike α)).toArray = [h] := by
    rw [toArray_fromHashes]; exact eraseDups_of_nodup (List.nodup_singleton h)
  have hres : ((A.union (.hash h)).subtract (.hash h)).toArray = A.toArray.filter (· ≠ h) := by
    rw [toArray_subtract, toArray_union, hone, List.filter_append]
    by_cases hA : h ∈ A.toArray <;> simp [hA, contains_eq_decide, hone]
  refine ⟨hres, ?_⟩
  rw [hres, List.filter_eq_self, Bool.eq_false_iff, ne_eq, contains_iff_mem]
  simp only [decide_eq_true_eq, ne_eq]
  exact ⟨fun H hh => H h hh rfl, fun H a ha hah => H (hah ▸ ha)⟩

/-! ### The list model -/

/-- What an operation does to the iteration order, stated on lists: the
    abstract model of a `HashSet` is its duplicate-free iteration. -/
def Op.spec : Op α → List α → List α
  | .union other, l => l ++ (arrayFromHashes other).eraseDups.filter (· ∉ l)
  | .intersect other, l => l.filter (· ∈ arrayFromHashes other)
  | .subtract other, l => l.filter (· ∉ arrayFromHashes other)
  | .reverse, l => l.reverse

/-- One operation iterates as its list specification. -/
theorem toArray_apply (op : Op α) (s : HashSet α) : (op.apply s).toArray = op.spec s.toArray := by
  cases op with
  | union other => rw [Op.apply, Op.spec, toArray_union, toArray_fromHashes]
  | intersect other =>
    rw [Op.apply, Op.spec, toArray_intersect]
    exact List.filter_congr fun _ _ => by simp [contains_eq_decide, mem_fromHashes]
  | subtract other =>
    rw [Op.apply, Op.spec, toArray_subtract]
    exact List.filter_congr fun _ _ => by simp [contains_eq_decide, mem_fromHashes]
  | reverse => exact toArray_reverse s

/-- Every run of operations on a set iterates as the run of their list
    specifications from its iteration: the code refines the list model. -/
theorem run_refines_spec (s : HashSet α) (ops : List (Op α)) :
    (run s ops).toArray = ops.foldl (fun l op => op.spec l) s.toArray := by
  induction ops generalizing s with
  | nil => rfl
  | cons op ops ih => rw [run, List.foldl_cons, ← run, ih, toArray_apply, List.foldl_cons]

/-! ### Sorted arrays -/

section Sorted

variable [LinearOrder α] (A B : HashSet α)

theorem sorted_toSortedArray : A.toSortedArray.Sorted (· ≤ ·) := by
  have h : A.toSortedArray.Pairwise fun a b => decide (a ≤ b) = true :=
    List.sorted_mergeSort
      (fun _ _ _ hab hbc => by simpa using le_trans (by simpa using hab) (by simpa using hbc))
      (fun a b => by simpa using le_total a b) A.toArray
  simpa [List.Sorted] using h

theorem toSortedArray_perm : A.toSortedArray.Perm A.toArray := List.mergeSort_perm _ _

theorem toSortedArray_eq_iff :
    A.toSortedArray = B.toSortedArray ↔ ∀ hash, A.contains hash = B.contains hash := by
  refine ⟨fun h hash => ?_, fun h => ?_⟩
  · rw [Bool.eq_iff_iff, contains_iff_mem, contains_iff_mem, ← (toSortedArray_perm A).mem_iff,
      ← (toSortedArray_perm B).mem_iff, h]
  · -- same members: both sorted arrays are sorted permutations of each other
    have hperm : A.toArray.Perm B.toArray :=
      (List.perm_ext_iff_of_nodup (toArray_nodup A) (toArray_nodup B)).2 fun hash => by
        rw [← contains_iff_mem, ← contains_iff_mem, h]
    exact List.eq_of_perm_of_sorted ((toSortedArray_perm A).trans
      (hperm.trans (toSortedArray_perm B).symm)) (sorted_toSortedArray A) (sorted_toSortedArray B)

theorem toSortedArray_canonical :
    (A.toSortedArray = B.toSortedArray ↔ ∀ hash, A.contains hash = B.contains hash) ∧
      A.toSortedArray.Sorted (· ≤ ·) ∧ A.toSortedArray.Perm A.toArray :=
  ⟨toSortedArray_eq_iff A B, sorted_toSortedArray A, toSortedArray_perm A⟩

/-- Sorting forgets the order in which a union was taken. -/
theorem toSortedArray_union_comm :
    (A.union (.hashSet B)).toSortedArray = (B.union (.hashSet A)).toSortedArray :=
  (toSortedArray_eq_iff _ _).2 (contains_union_comm A B)

end Sorted

end Isl.Dag
