import Isl.Immutable.OrderedSet

/-!
# Sets of commit hashes

`HashSet` (`dag/set.ts`): a set of commit hashes that keeps the order of its
hashes, wrapping immutable's `OrderedSet` (`Isl.Immutable.OrderedSet`); and
`SetLike`, the values that convert to one (`HashSet.fromHashes`) or to an
array (`arrayFromHashes`). A hash is of any type with decidable equality;
`toSortedArray` sorts by a linear order, which at `Isl.Dag.Hash` is the
default comparison of `Array.prototype.sort`, by UTF-16 code units.

Each operation is stated once by what it does to `toArray`, its iteration
order, and later proofs cite that instead of unfolding it:

* `toArray_fromHashes`: the converted values, first occurrences kept;
* `toArray_union`: the set, then what it lacks of `other`, in `other`'s order;
* `toArray_intersect`, `toArray_subtract`: the set, filtered by `other`;
* `toArray_reverse`: the reverse.
-/

namespace Isl.Dag

open Immutable

variable {α : Type} [DecidableEq α]

/-- `HashSet`: a set of commit hashes that keeps their order. -/
structure HashSet (α : Type) [DecidableEq α] where
  /-- `inner`, the `OrderedSet` that `SelfUpdate` wraps. -/
  inner : OrderedSet α

/-- `SetLike`: a convenient type that converts to `HashSet`. `Iterable<Hash>`
    is any finite iteration of hashes; a `Hash` is a string, never iterated. -/
inductive SetLike (α : Type) [DecidableEq α] where
  | hashSet (s : HashSet α)
  | orderedSet (s : OrderedSet α)
  | iterable (hashes : List α)
  | hash (h : α)
  | null
  | undefined

namespace HashSet

/-- `new HashSet(set?)`: the set, or `ImSet()` when there is none. -/
def new (set : Option (OrderedSet α) := none) : HashSet α := ⟨set.getD .empty⟩

/-- `HashSet.fromHashes(hashes)`. -/
def fromHashes : SetLike α → HashSet α
  | .null | .undefined => new (some .empty)
  | .hashSet hashes => hashes
  | .hash hashes => new (some (.ofSeq [hashes]))
  | .orderedSet hashes => new (some hashes)
  | .iterable hashes => new (some (.ofSeq hashes))

/-- `toHashes()`. -/
def toHashes (s : HashSet α) : OrderedSet α := s.inner

/-- `toArray()`, which is also the order of `[Symbol.iterator]()`. -/
def toArray (s : HashSet α) : List α := s.inner.toArray

/-- `union(other)`: this, then other without the overlapping subset. -/
def union (s : HashSet α) (other : SetLike α) : HashSet α :=
  new (some (s.inner.union (fromHashes other).inner))

/-- `intersect(other)`: in the order of this set. -/
def intersect (s : HashSet α) (other : SetLike α) : HashSet α :=
  new (some (s.inner.intersect (fromHashes other).inner))

/-- `subtract(other)`: the items of this set not in other, in its order. -/
def subtract (s : HashSet α) (other : SetLike α) : HashSet α :=
  new (some (s.inner.subtract (fromHashes other).inner))

/-- `contains(hash)`. -/
def contains (s : HashSet α) (hash : α) : Bool := s.inner.has hash

/-- `reverse()`: `new HashSet(this.inner.reverse())`. -/
def reverse (s : HashSet α) : HashSet α := new (some s.inner.reverse)

/-- `toSortedArray()`: `toArray().sort()`. -/
def toSortedArray [LinearOrder α] (s : HashSet α) : List α :=
  s.toArray.mergeSort fun a b => decide (a ≤ b)

/-- `size`. -/
def size (s : HashSet α) : ℕ := s.inner.size

end HashSet

open HashSet in
/-- `arrayFromHashes(hashes)`; an `OrderedSet` is spread (`[...hashes]`) in its
    iteration order. -/
def arrayFromHashes : SetLike α → List α
  | .null | .undefined => []
  | .hashSet hashes => hashes.toArray
  | .hash hashes => [hashes]
  | .orderedSet hashes => hashes.toArray
  | .iterable hashes => hashes

namespace HashSet

/-! ### Iteration order -/

variable (s : HashSet α) (other : SetLike α)

@[simp] theorem toArray_new_none : (new none : HashSet α).toArray = [] := rfl

@[simp] theorem toArray_new_some (t : OrderedSet α) : (new (some t)).toArray = t.toArray := rfl

/-- The identity fast path of `fromHashes`. -/
@[simp] theorem fromHashes_hashSet : fromHashes (.hashSet s) = s := rfl

theorem toArray_nodup : s.toArray.Nodup := s.inner.toArray_nodup

theorem contains_iff_mem {hash : α} : s.contains hash = true ↔ hash ∈ s.toArray :=
  s.inner.has_iff_mem

theorem contains_eq_decide {hash : α} : s.contains hash = decide (hash ∈ s.toArray) := by
  rw [Bool.eq_iff_iff, decide_eq_true_iff, contains_iff_mem]

theorem size_eq_length : s.size = s.toArray.length := s.inner.size_eq_length

theorem toArray_fromHashes : (fromHashes other).toArray = (arrayFromHashes other).eraseDups := by
  cases other with
  | hashSet t => exact (eraseDups_of_nodup t.toArray_nodup).symm
  | orderedSet t => exact (eraseDups_of_nodup t.toArray_nodup).symm
  | iterable hashes => exact OrderedSet.toArray_ofSeq hashes
  | hash h => exact OrderedSet.toArray_ofSeq [h]
  | null | undefined => rfl

theorem mem_fromHashes {hash : α} :
    hash ∈ (fromHashes other).toArray ↔ hash ∈ arrayFromHashes other := by
  rw [toArray_fromHashes, mem_eraseDups]

theorem toArray_union : (s.union other).toArray =
    s.toArray ++ (fromHashes other).toArray.filter (· ∉ s.toArray) :=
  OrderedSet.toArray_union _ _

theorem toArray_intersect :
    (s.intersect other).toArray = s.toArray.filter ((fromHashes other).contains ·) :=
  OrderedSet.toArray_intersect _ _

theorem toArray_subtract :
    (s.subtract other).toArray = s.toArray.filter (!(fromHashes other).contains ·) :=
  OrderedSet.toArray_subtract _ _

theorem toArray_reverse : s.reverse.toArray = s.toArray.reverse :=
  OrderedSet.toArray_reverse _

end HashSet

end Isl.Dag
