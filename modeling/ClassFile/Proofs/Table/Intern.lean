/-
# Interning tables are maps in which the first insertion wins

The view of an `InternTable` is `toList`: its keys with their values, in the order of insertion.
Everything else, the arena, the buckets and the links between entries of one bucket, only serves
to find a key fast.  `Proofs.Table.Chained` has the theory for any equivalence of keys; this module
is about keys that are compared by equality.

* `Linked` is the invariant of the layout: a bucket points to the newest of its entries, and each
  entry to the next older one of its bucket (`newest`).
* `get?_eq_lookup`: in a linked table, looking a key up along its chain answers as `List.lookup`
  on the view does.
* `toList_insert`: inserting appends to the view, unless the key is there already.
-/
import ClassFile.Proofs.Table.Chained

namespace ClassFile.InternTable

variable {K V : Type}

/-! ## 1. The layout -/

/-- **The invariant of the layout.**  No two entries have one key, each has the hash of its key,
and buckets and entries point to the newest entry below them. -/
structure Linked [Hashable K] (t : InternTable K V) : Prop where
  buckets_pos : 0 < t.buckets.size
  head_eq : ∀ bucket, bucket < t.buckets.size →
    t.buckets[bucket]? = some (newest t.entries t.buckets.size bucket t.entries.size)
  next_eq : ∀ (i : Nat) (e : InternEntry K V), t.entries[i]? = some e →
    e.next = newest t.entries t.buckets.size (bucketOf e.hash t.buckets.size) i
  hash_eq : ∀ (i : Nat) (e : InternEntry K V), t.entries[i]? = some e → e.hash = hashOf e.key
  keys_nodup : (t.toList.map Prod.fst).Nodup

theorem linked_empty [Hashable K] : (empty : InternTable K V).Linked where
  buckets_pos := by simp [empty]
  head_eq := by
    intro bucket hb
    simp only [empty, Array.size_replicate] at hb
    simp [empty, newest, hb]
  next_eq := by simp [empty]
  hash_eq := by simp [empty]
  keys_nodup := by simp

variable [BEq K] [LawfulBEq K] [Hashable K] {t : InternTable K V}

/-- Where keys are compared by equality, equal keys are one key. -/
theorem linked_iff : t.Linked ↔ t.Chained := by
  have hkeys : (t.toList.map Prod.fst).Nodup ↔
      t.toList.Pairwise fun a b => (a.1 == b.1) = false := by
    rw [List.Nodup, List.pairwise_map]
    simp only [ne_eq, beq_eq_false_iff_ne]
  exact ⟨fun ht => ⟨ht.buckets_pos, ht.head_eq, ht.next_eq, ht.hash_eq, hkeys.1 ht.keys_nodup⟩,
    fun ht => ⟨ht.buckets_pos, ht.head_eq, ht.next_eq, ht.hash_eq, hkeys.2 ht.keys_apart⟩⟩

namespace Linked

/-! ## 2. Looking up -/

/-- **Looking up along a chain is looking up in the view.** -/
theorem get?_eq_lookup (ht : t.Linked) (key : K) : t.get? key = t.toList.lookup key :=
  (linked_iff.1 ht).get?_eq_lookup key

theorem get?_eq_some_iff (ht : t.Linked) {key : K} {v : V} :
    t.get? key = some v ↔ (key, v) ∈ t.toList := by
  rw [ht.get?_eq_lookup, lookup_eq_some_iff_of_apart (linked_iff.1 ht).keys_apart]
  simp only [beq_iff_eq, exists_eq_left']

theorem get?_eq_none_iff (ht : t.Linked) {key : K} :
    t.get? key = none ↔ key ∉ t.toList.map Prod.fst := by
  rw [(linked_iff.1 ht).get?_eq_none_iff, List.mem_map]
  simp only [beq_eq_false_iff_ne, not_exists, not_and]

/-! ## 3. Inserting -/

/-- Inserting keeps the layout. -/
theorem insert (ht : t.Linked) (key : K) (value : V) : (t.insert key value).2.Linked :=
  linked_iff.2 ((linked_iff.1 ht).insert key value)

/-- **The first insertion wins**: a new key goes to the end of the view, another one changes
nothing. -/
theorem toList_insert (ht : t.Linked) (key : K) (value : V) :
    (t.insert key value).2.toList =
      if (t.get? key).isSome then t.toList else t.toList ++ [(key, value)] :=
  (linked_iff.1 ht).toList_insert key value

/-- Looking a key up after an insertion. -/
theorem get?_insert [DecidableEq K] (ht : t.Linked) (key : K) (value : V) (k : K) :
    (t.insert key value).2.get? k =
      if k = key then some ((t.get? key).getD value) else t.get? k := by
  rw [(linked_iff.1 ht).get?_insert]
  simp only [beq_iff_eq]

end Linked

end ClassFile.InternTable
