/-
# Chains of an interning table

A bucket of an `InternTable` leads to the newest of its entries, and each entry to the next older one of
its bucket.  Keys are compared by an equivalence that hashing respects; it need not be equality.

* `Chained` is the invariant of the layout, said with `newest`.  It is kept by linking an entry, by
  laying the entries anew over another number of buckets, and by inserting.
* `Search` and `Passes` follow links as they are, whether or not they end.  In a chained table each link
  leads to a smaller position (`Chained.next_lt`), so a search ends with what the view has for its key
  (`Chained.search`), and a chain passes just the entries of its bucket (`Chained.passes_iff`).
* `Chained.get?_eq_lookup`: so looking a key up answers as `List.lookup` on the view does.
-/
import ClassFile.InternTable
import Mathlib.Data.List.Nodup

namespace ClassFile.InternTable

variable {K V : Type}

/-! ## 1. The layout -/

/-- The newest entry of a bucket among the first `limit` entries. -/
def newest (entries : Array (InternEntry K V)) (bucketCount bucket : Nat) : Nat → Option Nat
  | 0 => none
  | limit + 1 =>
    match entries[limit]? with
    | some e => if bucketOf e.hash bucketCount = bucket then some limit
      else newest entries bucketCount bucket limit
    | none => newest entries bucketCount bucket limit

/-- **The invariant of the layout.**  No two entries have equal keys, each has the hash of its key, and
buckets and entries point to the newest entry below them. -/
structure Chained [BEq K] [Hashable K] (t : InternTable K V) : Prop where
  buckets_pos : 0 < t.buckets.size
  head_eq : ∀ bucket, bucket < t.buckets.size →
    t.buckets[bucket]? = some (newest t.entries t.buckets.size bucket t.entries.size)
  next_eq : ∀ (i : Nat) (e : InternEntry K V), t.entries[i]? = some e →
    e.next = newest t.entries t.buckets.size (bucketOf e.hash t.buckets.size) i
  hash_eq : ∀ (i : Nat) (e : InternEntry K V), t.entries[i]? = some e → e.hash = hashOf e.key
  keys_apart : t.toList.Pairwise fun a b => (a.1 == b.1) = false

theorem newest_succ {entries : Array (InternEntry K V)} {bucketCount bucket limit : Nat}
    {e : InternEntry K V} (he : entries[limit]? = some e) :
    newest entries bucketCount bucket (limit + 1) =
      if bucketOf e.hash bucketCount = bucket then some limit
      else newest entries bucketCount bucket limit := by
  rw [newest, he]

theorem newest_lt {entries : Array (InternEntry K V)} {bucketCount bucket limit i : Nat}
    (h : newest entries bucketCount bucket limit = some i) : i < limit := by
  induction limit with
  | zero => simp [newest] at h
  | succ limit ih =>
    rw [newest] at h
    split at h
    · split at h
      · cases h; exact Nat.lt_succ_self _
      · exact Nat.lt_succ_of_lt (ih h)
    · exact Nat.lt_succ_of_lt (ih h)

/-- Entries behind the limit do not matter. -/
theorem newest_congr {entries entries' : Array (InternEntry K V)} {bucketCount bucket limit : Nat}
    (h : ∀ i, i < limit → (entries[i]?.map InternEntry.hash) = entries'[i]?.map InternEntry.hash) :
    newest entries bucketCount bucket limit = newest entries' bucketCount bucket limit := by
  induction limit with
  | zero => rfl
  | succ limit ih =>
    have hrest := ih fun i hi => h i (Nat.lt_succ_of_lt hi)
    have hlast := h limit (Nat.lt_succ_self _)
    rw [newest, newest]
    cases he : entries[limit]? <;> cases he' : entries'[limit]? <;> rw [he, he'] at hlast
    · exact hrest
    · cases hlast
    · cases hlast
    · simp only [Option.map_some, Option.some.injEq] at hlast
      simp only [hlast, hrest]

/-! ## 2. Following links -/

/-- The search for a key from a cursor on: it ends where an entry has the hash and the key, or where the
links end.  Nothing is said about where links lead, so a search may also have no end. -/
inductive Search [BEq K] (entries : Array (InternEntry K V)) (h : UInt32) (key : K) :
    Option Nat → Option V → Prop
  | stop : Search entries h key none none
  | found {i : Nat} {e : InternEntry K V} (he : entries[i]? = some e)
      (hit : (e.hash == h && e.key == key) = true) : Search entries h key (some i) (some e.value)
  | next {i : Nat} {e : InternEntry K V} {answer : Option V} (he : entries[i]? = some e)
      (miss : (e.hash == h && e.key == key) = false) (rest : Search entries h key e.next answer) :
      Search entries h key (some i) answer

/-- Following links from a cursor on passes a position. -/
inductive Passes (entries : Array (InternEntry K V)) : Option Nat → Nat → Prop
  | here {i : Nat} {e : InternEntry K V} (he : entries[i]? = some e) : Passes entries (some i) i
  | next {i j : Nat} {e : InternEntry K V} (he : entries[i]? = some e)
      (rest : Passes entries e.next j) : Passes entries (some i) j

/-- Where links lead to smaller positions, looking a key up does what a search does. -/
theorem Search.chainFind [BEq K] {entries : Array (InternEntry K V)} {h : UInt32} {key : K}
    (hlinks : ∀ (i : Nat) (e : InternEntry K V) (j : Nat), entries[i]? = some e → e.next = some j →
      j < i)
    {cursor : Option Nat} {answer : Option V} (hs : Search entries h key cursor answer) :
    ∀ i, cursor = some i → chainFind entries h key i = answer := by
  induction hs with
  | stop => exact fun i hi => nomatch hi
  | found he hit =>
    rintro i ⟨⟩
    rw [InternTable.chainFind, he]
    exact if_pos hit
  | @next i e answer he miss rest ih =>
    rintro i ⟨⟩
    rw [InternTable.chainFind, he]
    dsimp only
    rw [if_neg (by simp [miss])]
    cases hn : e.next with
    | none =>
      rw [hn] at rest
      cases rest
      rfl
    | some j =>
      dsimp only
      rw [if_pos (hlinks i e j he hn), ih j hn]

/-- The keys and values of the first `limit` entries, the newest first. -/
def below (entries : Array (InternEntry K V)) (limit : Nat) : List (K × V) :=
  ((entries.toList.take limit).map fun e => (e.key, e.value)).reverse

theorem below_succ {entries : Array (InternEntry K V)} {limit : Nat} {e : InternEntry K V}
    (he : entries[limit]? = some e) :
    below entries (limit + 1) = (e.key, e.value) :: below entries limit := by
  have hlt : limit < entries.toList.length := by
    rw [Array.length_toList]
    exact (Array.getElem?_eq_some_iff.1 he).1
  have hget : entries.toList[limit] = e := by
    rw [Array.getElem_toList]
    exact (Array.getElem?_eq_some_iff.1 he).2
  simp [below, List.take_succ_eq_append_getElem hlt, hget]

/-! ## 3. Lists of keys with values -/

section Lists

variable [BEq K] [EquivBEq K]

/-- Equal keys have the same value. -/
theorem lookup_congr {l : List (K × V)} {a b : K} (h : a == b) : l.lookup a = l.lookup b := by
  induction l with
  | nil => rfl
  | cons p l ih => rw [List.lookup_cons, List.lookup_cons, BEq.congr_left h, ih]

/-- Without equal keys, looking a key up finds each entry that has it. -/
theorem lookup_eq_some_iff_of_apart {l : List (K × V)}
    (hl : l.Pairwise fun a b => (a.1 == b.1) = false) {k : K} {v : V} :
    l.lookup k = some v ↔ ∃ k', k == k' ∧ (k', v) ∈ l := by
  induction l with
  | nil => simp
  | cons p l ih =>
    obtain ⟨k', v'⟩ := p
    obtain ⟨hapart, hl⟩ := List.pairwise_cons.1 hl
    rw [List.lookup_cons]
    cases hk : k == k' with
    | true =>
      constructor
      · rintro ⟨⟩
        exact ⟨k', hk, List.mem_cons_self⟩
      · rintro ⟨k₂, hk₂, hmem⟩
        rcases List.mem_cons.1 hmem with heq | hmem
        · cases heq
          rfl
        · have hne : (k' == k₂) = false := hapart _ hmem
          rw [← BEq.congr_left hk, hk₂] at hne
          exact nomatch hne
    | false =>
      refine (ih hl).trans ⟨fun ⟨k₂, hk₂, hmem⟩ => ⟨k₂, hk₂, List.mem_cons_of_mem _ hmem⟩, ?_⟩
      rintro ⟨k₂, hk₂, hmem⟩
      rcases List.mem_cons.1 hmem with heq | hmem
      · cases heq
        rw [hk] at hk₂
        exact nomatch hk₂
      · exact ⟨k₂, hk₂, hmem⟩

/-- Without equal keys, the order of a list does not matter for looking up. -/
theorem lookup_reverse_of_apart {l : List (K × V)}
    (hl : l.Pairwise fun a b => (a.1 == b.1) = false) (k : K) : l.reverse.lookup k = l.lookup k := by
  have hr : l.reverse.Pairwise fun a b => (a.1 == b.1) = false :=
    List.pairwise_reverse.2 (hl.imp fun h => BEq.symm_false h)
  ext v
  rw [lookup_eq_some_iff_of_apart hr, lookup_eq_some_iff_of_apart hl]
  simp only [List.mem_reverse]

end Lists

/-! ## 4. Looking up -/

namespace Chained

variable [BEq K] [Hashable K] {t : InternTable K V}

/-- **Each link leads to a smaller position.** -/
theorem next_lt (ht : t.Chained) (i : Nat) (e : InternEntry K V) (j : Nat)
    (he : t.entries[i]? = some e) (hj : e.next = some j) : j < i :=
  newest_lt ((ht.next_eq i e he).symm.trans hj)

theorem passes_newest_iff (ht : t.Chained) (bucket : Nat) {limit : Nat}
    (hl : limit ≤ t.entries.size) (j : Nat) :
    Passes t.entries (newest t.entries t.buckets.size bucket limit) j ↔
      j < limit ∧ ∃ e, t.entries[j]? = some e ∧ bucketOf e.hash t.buckets.size = bucket := by
  induction limit with
  | zero =>
    rw [newest]
    exact ⟨nofun, fun h => absurd h.1 (Nat.not_lt_zero j)⟩
  | succ limit ih =>
    have he : t.entries[limit]? = some t.entries[limit] := Array.getElem?_eq_getElem hl
    have ih := ih (Nat.le_of_succ_le hl)
    rw [newest_succ he]
    split
    · rename_i hbucket
      have hnext := ht.next_eq limit _ he
      rw [hbucket] at hnext
      constructor
      · rintro (⟨_⟩ | ⟨he', rest⟩)
        · exact ⟨Nat.lt_succ_self _, _, he, hbucket⟩
        · cases he.symm.trans he'
          rw [hnext] at rest
          obtain ⟨hlt, hentry⟩ := ih.1 rest
          exact ⟨Nat.lt_succ_of_lt hlt, hentry⟩
      · rintro ⟨hlt, hentry⟩
        rcases Nat.lt_succ_iff_lt_or_eq.1 hlt with hlt | rfl
        · exact .next he (hnext ▸ ih.2 ⟨hlt, hentry⟩)
        · exact .here he
    · rename_i hbucket
      refine ih.trans ⟨fun ⟨hlt, hentry⟩ => ⟨Nat.lt_succ_of_lt hlt, hentry⟩, ?_⟩
      rintro ⟨hlt, e, he', hbucket'⟩
      rcases Nat.lt_succ_iff_lt_or_eq.1 hlt with hlt | rfl
      · exact ⟨hlt, e, he', hbucket'⟩
      · cases he.symm.trans he'
        exact absurd hbucket' hbucket

/-- **A chain passes just the entries whose hash selects its bucket.** -/
theorem passes_iff (ht : t.Chained) {bucket : Nat} {head : Option Nat}
    (hhead : t.buckets[bucket]? = some head) (j : Nat) :
    Passes t.entries head j ↔
      ∃ e, t.entries[j]? = some e ∧ bucketOf e.hash t.buckets.size = bucket := by
  have hb : bucket < t.buckets.size := (Array.getElem?_eq_some_iff.1 hhead).1
  cases hhead.symm.trans (ht.head_eq bucket hb)
  refine (ht.passes_newest_iff bucket (Nat.le_refl _) j).trans ⟨And.right, ?_⟩
  rintro ⟨e, he, hbucket⟩
  exact ⟨(Array.getElem?_eq_some_iff.1 he).1, e, he, hbucket⟩

theorem bucketOf_lt (ht : t.Chained) (h : UInt32) : bucketOf h t.buckets.size < t.buckets.size :=
  Nat.mod_lt _ ht.buckets_pos

variable [EquivBEq K] [LawfulHashable K]

/-- A search from the newest entry of a bucket below a limit on ends with what the entries below the
limit have for the key, the newest first. -/
theorem search_below (ht : t.Chained) (key : K) {limit : Nat} (hl : limit ≤ t.entries.size) :
    Search t.entries (hashOf key) key
      (newest t.entries t.buckets.size (bucketOf (hashOf key) t.buckets.size) limit)
      ((below t.entries limit).lookup key) := by
  induction limit with
  | zero =>
    simp only [newest, below, List.take_zero, List.map_nil, List.reverse_nil, List.lookup_nil]
    exact .stop
  | succ limit ih =>
    have he : t.entries[limit]? = some t.entries[limit] := Array.getElem?_eq_getElem hl
    have hhash := ht.hash_eq limit _ he
    have hnext := ht.next_eq limit _ he
    have ih := ih (Nat.le_of_succ_le hl)
    rw [newest_succ he, below_succ he, List.lookup_cons]
    generalize t.entries[limit] = e at he hhash hnext
    cases hk : key == e.key with
    | true =>
      have hsame : e.hash = hashOf key := by
        rw [hhash, hashOf, hashOf, LawfulHashable.hash_eq _ _ hk]
      rw [if_pos (by rw [hsame])]
      exact .found he (by rw [hsame, BEq.symm hk, beq_self_eq_true]; rfl)
    | false =>
      split
      · rename_i hbucket
        rw [hbucket] at hnext
        exact .next he (by rw [BEq.symm_false hk, Bool.and_false]) (hnext ▸ ih)
      · exact ih

/-- **A search ends**, with what the view has for the key. -/
theorem search (ht : t.Chained) (key : K) :
    ∃ head, t.buckets[bucketOf (hashOf key) t.buckets.size]? = some head ∧
      Search t.entries (hashOf key) key head (t.toList.lookup key) := by
  have hall : below t.entries t.entries.size = t.toList.reverse := by
    rw [below, ← Array.length_toList, List.take_length, toList]
  have hsearch := ht.search_below key (Nat.le_refl _)
  rw [hall, lookup_reverse_of_apart ht.keys_apart] at hsearch
  exact ⟨_, ht.head_eq _ (ht.bucketOf_lt _), hsearch⟩

/-- **Looking up along a chain is looking up in the view.** -/
theorem get?_eq_lookup (ht : t.Chained) (key : K) : t.get? key = t.toList.lookup key := by
  obtain ⟨head, hhead, hsearch⟩ := ht.search key
  rw [get?, hhead]
  cases head with
  | none =>
    generalize t.toList.lookup key = answer at hsearch
    cases hsearch
    rfl
  | some i => exact hsearch.chainFind ht.next_lt i rfl

theorem get?_eq_none_iff (ht : t.Chained) {key : K} :
    t.get? key = none ↔ ∀ e ∈ t.toList, (e.1 == key) = false := by
  rw [ht.get?_eq_lookup, List.lookup_eq_none_iff]
  refine forall_congr' fun e => forall_congr' fun _ => ?_
  rw [bne, Bool.not_eq_true', BEq.comm]

end Chained

/-! ## 5. Inserting -/

@[simp] theorem toList_link (t : InternTable K V) (key : K) (value : V) (h : UInt32) :
    (t.link key value h).toList = t.toList ++ [(key, value)] := by
  simp [link, toList]

@[simp] theorem toList_empty : (empty : InternTable K V).toList = [] := rfl

theorem getElem?_push_of_lt {α : Type} {a : Array α} {x : α} {i : Nat} (h : i < a.size) :
    (a.push x)[i]? = a[i]? := by
  rw [Array.getElem?_push, if_neg (Nat.ne_of_lt h)]

section Insert

variable [BEq K] [Hashable K]

/-- Linking a new key keeps the layout. -/
theorem Chained.link {t : InternTable K V} (ht : t.Chained) {key : K} (value : V)
    (hk : ∀ e ∈ t.toList, (e.1 == key) = false) : (t.link key value (hashOf key)).Chained := by
  have hb := ht.bucketOf_lt (hashOf key)
  have hbelow : ∀ bucket limit, limit ≤ t.entries.size → ∀ e,
      newest (t.entries.push e) t.buckets.size bucket limit =
        newest t.entries t.buckets.size bucket limit := by
    intro bucket limit hl e
    refine newest_congr fun i hi => ?_
    rw [getElem?_push_of_lt (Nat.lt_of_lt_of_le hi hl)]
  refine ⟨?_, ?_, ?_, ?_, ?_⟩
  · simpa [InternTable.link] using ht.buckets_pos
  · intro bucket hbucket
    simp only [InternTable.link, Array.size_setIfInBounds] at hbucket ⊢
    rw [Array.size_push, newest, Array.getElem?_push_size, Array.getElem?_setIfInBounds]
    by_cases heq : bucketOf (hashOf key) t.buckets.size = bucket
    · simp [heq, hbucket]
    · simp only [heq, if_false]
      rw [hbelow _ _ (Nat.le_refl _), ht.head_eq _ hbucket]
  · intro i e he
    simp only [InternTable.link, Array.size_setIfInBounds] at he ⊢
    rw [Array.getElem?_push] at he
    split at he
    · rename_i hi
      cases he
      subst hi
      rw [hbelow _ _ (Nat.le_refl _), ht.head_eq _ hb]
      rfl
    · have hi : i < t.entries.size := (Array.getElem?_eq_some_iff.1 he).1
      rw [hbelow _ _ (Nat.le_of_lt hi)]
      exact ht.next_eq _ _ he
  · intro i e he
    simp only [InternTable.link] at he
    rw [Array.getElem?_push] at he
    split at he
    · cases he; rfl
    · exact ht.hash_eq _ _ he
  · rw [toList_link, List.pairwise_append]
    refine ⟨ht.keys_apart, List.pairwise_singleton .., fun a ha b hb => ?_⟩
    rw [List.mem_singleton.1 hb]
    exact hk a ha

theorem chained_buckets (count : Nat) (h : 0 < count) :
    (⟨#[], Array.replicate count none⟩ : InternTable K V).Chained where
  buckets_pos := by simpa using h
  head_eq := by
    intro bucket hb
    simp only [Array.size_replicate] at hb
    simp [newest, hb]
  next_eq := by simp
  hash_eq := by simp
  keys_apart := by simp [toList]

theorem chained_empty : (empty : InternTable K V).Chained := chained_buckets 256 (by decide)

/-- Laying entries anew one after the other keeps the layout and appends to the view. -/
theorem Chained.foldl_link (es : List (InternEntry K V)) {t : InternTable K V} (ht : t.Chained)
    (hhash : ∀ e ∈ es, e.hash = hashOf e.key)
    (hapart : (t.toList ++ es.map fun e => (e.key, e.value)).Pairwise
      fun a b => (a.1 == b.1) = false) :
    (es.foldl (fun t e => t.link e.key e.value e.hash) t).Chained ∧
      (es.foldl (fun t e => t.link e.key e.value e.hash) t).toList =
        t.toList ++ es.map fun e => (e.key, e.value) := by
  induction es generalizing t with
  | nil => simpa using ht
  | cons e es ih =>
    have hfresh : ∀ a ∈ t.toList, (a.1 == e.key) = false := fun a ha =>
      (List.pairwise_append.1 hapart).2.2 a ha (e.key, e.value) (by simp)
    have hlink : (t.link e.key e.value e.hash).Chained := by
      rw [hhash e (by simp)]
      exact ht.link e.value hfresh
    have hview : (t.link e.key e.value e.hash).toList ++ es.map (fun e => (e.key, e.value)) =
        t.toList ++ (e :: es).map fun e => (e.key, e.value) := by simp
    obtain ⟨hchained, hall⟩ :=
      ih hlink (fun e' he' => hhash e' (by simp [he'])) (by rw [hview]; exact hapart)
    rw [List.foldl_cons]
    exact ⟨hchained, hall.trans hview⟩

/-- **Another number of buckets** keeps the layout and the view. -/
theorem Chained.rehash {t : InternTable K V} (ht : t.Chained) {count : Nat} (hcount : 0 < count) :
    (t.rehash count).Chained ∧ (t.rehash count).toList = t.toList := by
  have hhash : ∀ e ∈ t.entries.toList, e.hash = hashOf e.key := by
    intro e he
    obtain ⟨i, hi, rfl⟩ := List.mem_iff_getElem.1 he
    exact ht.hash_eq i _ (by simp)
  obtain ⟨hchained, hall⟩ := (chained_buckets (K := K) (V := V) count hcount).foldl_link
    t.entries.toList hhash (by simpa [toList] using ht.keys_apart)
  rw [InternTable.rehash, ← Array.foldl_toList]
  exact ⟨hchained, by simpa [toList] using hall⟩

/-- Growing keeps the layout and the view. -/
theorem Chained.grow {t : InternTable K V} (ht : t.Chained) :
    t.grow.Chained ∧ t.grow.toList = t.toList := by
  unfold InternTable.grow
  split
  · exact ht.rehash (Nat.succ_pos _)
  · exact ⟨ht, rfl⟩

/-- The answer of an insertion is the value that the key has afterwards. -/
theorem fst_insert (t : InternTable K V) (key : K) (value : V) :
    (t.insert key value).1 = (t.get? key).getD value := by
  unfold InternTable.insert
  split <;> simp_all

/-- **The first insertion wins**: a new key goes to the end of the view, another one changes
nothing. -/
theorem Chained.toList_insert {t : InternTable K V} (ht : t.Chained) (key : K) (value : V) :
    (t.insert key value).2.toList =
      if (t.get? key).isSome then t.toList else t.toList ++ [(key, value)] := by
  unfold InternTable.insert
  split
  · simp_all
  · rename_i hnone
    simp [hnone, ht.grow.2]

variable [EquivBEq K] [LawfulHashable K]

/-- Inserting keeps the layout. -/
theorem Chained.insert {t : InternTable K V} (ht : t.Chained) (key : K) (value : V) :
    (t.insert key value).2.Chained := by
  unfold InternTable.insert
  split
  · exact ht
  · rename_i hnone
    obtain ⟨hgrow, hview⟩ := ht.grow
    refine hgrow.link value ?_
    rw [hview]
    exact ht.get?_eq_none_iff.1 hnone

/-- Looking a key up after an insertion. -/
theorem Chained.get?_insert {t : InternTable K V} (ht : t.Chained) (key : K) (value : V) (k : K) :
    (t.insert key value).2.get? k =
      if k == key then some ((t.get? key).getD value) else t.get? k := by
  rw [(ht.insert key value).get?_eq_lookup, ht.toList_insert, ht.get?_eq_lookup,
    ht.get?_eq_lookup]
  cases hget : t.toList.lookup key with
  | some v =>
    rw [Option.isSome_some, if_pos rfl, Option.getD_some]
    split
    · rename_i hk
      rw [lookup_congr hk, hget]
    · rfl
  | none =>
    rw [Option.isSome_none, if_neg Bool.false_ne_true, List.lookup_append, List.lookup_cons,
      List.lookup_nil, Option.getD_none]
    cases hk : k == key with
    | true => rw [lookup_congr hk, hget]; rfl
    | false => exact Option.or_none

end Insert

end ClassFile.InternTable
