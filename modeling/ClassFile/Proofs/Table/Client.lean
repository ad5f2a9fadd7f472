/-
# What a client sees of an interning table

A `Client` makes calls on a table, each of which may depend on the answers before it; making a value for
a key that has none is a client again.  `Client.run` gives the calls to a table, and `Client.expected`
answers them from the list of all insertions so far: a key has the value of the first of them that has an
equal key.

No client can tell the two apart (`Client.run_stores`), however often the buckets grow on the way and
however keys collide.  `FirstWins` says of the table itself what this means, and what its chains look
like; it holds of the table that any client leaves, and of the same entries over any number of buckets
(`Client.first_insertion_wins`).
-/
import ClassFile.Proofs.Table.Chained

namespace ClassFile.InternTable

variable {K V ε : Type}

/-! ## 1. Clients -/

/-- Calls on a table, one after the other, up to a value or an error.  What follows a call depends on its
answer, and `getOrInsert` has calls on the same table in it. -/
inductive Client (K V ε : Type) where
  | finish (result : Except ε V)
  | get (key : K) (next : Option V → Client K V ε)
  | insert (key : K) (value : V) (next : V → Client K V ε)
  | getOrInsert (key : K) (make : Client K V ε) (next : Except ε V → Client K V ε)
  | size (next : Nat → Client K V ε)

namespace Client

variable [BEq K]

/-- The calls of a client on a table, with its result and the table afterwards. -/
def run [Hashable K] : Client K V ε → InternTable K V → Except ε V × InternTable K V
  | finish result, t => (result, t)
  | get key next, t => (next (t.get? key)).run t
  | insert key value next, t =>
    let (answer, t) := t.insert key value
    (next answer).run t
  | getOrInsert key make next, t =>
    let (answer, t) := t.getOrInsert key make.run
    (next answer).run t
  | size next, t => (next t.size).run t

/-- The same calls answered from the insertions so far, of which the first one of a key counts. -/
def expected : Client K V ε → List (K × V) → Except ε V × List (K × V)
  | finish result, log => (result, log)
  | get key next, log => (next (log.lookup key)).expected log
  | insert key value next, log =>
    (next ((log.lookup key).getD value)).expected (log ++ [(key, value)])
  | getOrInsert key make next, log =>
    match log.lookup key with
    | some existing => (next (.ok existing)).expected log
    | none =>
      match make.expected log with
      | (.ok value, log) =>
        (next (.ok ((log.lookup key).getD value))).expected (log ++ [(key, value)])
      | (.error e, log) => (next (.error e)).expected log
  | size next, log => (next (log.map Prod.fst).eraseDups.length).expected log

end Client

/-! ## 2. Tables of insertions -/

/-- Removing repetitions keeps the last element if no kept one is like it. -/
theorem eraseDups_append_singleton {α : Type} [BEq α] (l : List α) (a : α) :
    (l ++ [a]).eraseDups =
      if l.eraseDups.any (a == ·) then l.eraseDups else l.eraseDups ++ [a] := by
  suffices hloop : ∀ kept, List.eraseDupsBy.loop (· == ·) (l ++ [a]) kept =
      if (List.eraseDupsBy.loop (· == ·) l kept).any (a == ·)
      then List.eraseDupsBy.loop (· == ·) l kept
      else List.eraseDupsBy.loop (· == ·) l kept ++ [a] from hloop []
  induction l with
  | nil =>
    intro kept
    simp only [List.nil_append, List.eraseDupsBy.loop, List.any_reverse]
    cases kept.any (a == ·) <;> simp
  | cons b l ih =>
    intro kept
    rw [List.cons_append]
    unfold List.eraseDupsBy.loop
    split
    · exact ih kept
    · exact ih (b :: kept)

variable [BEq K] [Hashable K] {t : InternTable K V} {log : List (K × V)}

/-- A chained table that has the first insertion of each key. -/
structure Stores (t : InternTable K V) (log : List (K × V)) : Prop where
  chained : t.Chained
  lookup : ∀ key, t.toList.lookup key = log.lookup key
  keys : t.toList.map Prod.fst = (log.map Prod.fst).eraseDups

theorem stores_empty : (empty : InternTable K V).Stores [] :=
  ⟨chained_empty, fun _ => rfl, rfl⟩

theorem Stores.size_eq (h : t.Stores log) : t.size = (log.map Prod.fst).eraseDups.length := by
  rw [← h.keys, List.length_map, toList, List.length_map, Array.length_toList, size]

theorem Stores.rehash (h : t.Stores log) {count : Nat} (hcount : 0 < count) :
    (t.rehash count).Stores log := by
  obtain ⟨hchained, hview⟩ := h.chained.rehash hcount
  exact ⟨hchained, fun key => by rw [hview, h.lookup], by rw [hview, h.keys]⟩

variable [EquivBEq K] [LawfulHashable K]

theorem Stores.get?_eq (h : t.Stores log) (key : K) : t.get? key = log.lookup key := by
  rw [h.chained.get?_eq_lookup, h.lookup]

/-- **An insertion is one more insertion**, and its answer is the value of the first one. -/
theorem Stores.insert (h : t.Stores log) (key : K) (value : V) :
    (t.insert key value).1 = (log.lookup key).getD value ∧
      (t.insert key value).2.Stores (log ++ [(key, value)]) := by
  have hview := h.chained.toList_insert key value
  rw [h.get?_eq] at hview
  have hknown : (log.lookup key).isSome = ((log.map Prod.fst).eraseDups.any (key == ·)) := by
    rw [← h.lookup, ← h.keys, Bool.eq_iff_iff, Option.isSome_iff_ne_none, ne_eq,
      List.lookup_eq_none_iff, List.any_map, List.any_eq_true]
    simp only [bne, Bool.not_eq_true', Function.comp_apply, not_forall, Bool.not_eq_false,
      exists_prop]
  refine ⟨by rw [fst_insert, h.get?_eq], h.chained.insert key value, fun k => ?_, ?_⟩
  · rw [← (h.chained.insert key value).get?_eq_lookup, h.chained.get?_insert, h.get?_eq, h.get?_eq,
      List.lookup_append, List.lookup_cons, List.lookup_nil]
    cases hk : k == key with
    | true =>
      rw [if_pos rfl, lookup_congr hk]
      cases log.lookup key <;> rfl
    | false => exact Option.or_none.symm
  · rw [hview, List.map_append, List.map_cons, List.map_nil, eraseDups_append_singleton, ← hknown]
    split
    · exact h.keys
    · rw [List.map_append, h.keys]
      rfl

/-- **No client can tell** a table from the list of its insertions. -/
theorem Client.run_stores (client : Client K V ε) : ∀ {t : InternTable K V} {log : List (K × V)},
    t.Stores log → (client.run t).1 = (client.expected log).1 ∧
      (client.run t).2.Stores (client.expected log).2 := by
  induction client with
  | finish result => exact fun h => ⟨rfl, h⟩
  | get key next ih =>
    intro t log h
    rw [run, expected, h.get?_eq]
    exact ih _ h
  | insert key value next ih =>
    intro t log h
    obtain ⟨hanswer, hstores⟩ := h.insert key value
    rw [run, expected, ← hanswer]
    exact ih _ hstores
  | getOrInsert key make next ihmake ih =>
    intro t log h
    rw [run, expected, InternTable.getOrInsert, h.get?_eq]
    cases log.lookup key with
    | some existing => exact ih _ h
    | none =>
      obtain ⟨hresult, hstores⟩ := ihmake h
      rcases hrun : make.run t with ⟨result, t'⟩
      rcases hexpected : make.expected log with ⟨result', log'⟩
      rw [hrun, hexpected] at hresult hstores
      obtain rfl : result = result' := hresult
      cases result with
      | error e => exact ih _ hstores
      | ok value =>
        obtain ⟨hanswer, hstores⟩ := Stores.insert hstores key value
        dsimp only
        rw [← hanswer]
        exact ih _ hstores
  | size next ih =>
    intro t log h
    rw [run, expected, h.size_eq]
    exact ih _ h

/-! ## 3. The first insertion wins -/

/-- **The table is the map of the insertions** in which the first one of a key wins, and its chains are in
order. -/
structure FirstWins (t : InternTable K V) (log : List (K × V)) : Prop where
  /-- A key has the value of the first insertion of an equal key, or none. -/
  get : ∀ key, t.get? key = log.lookup key
  /-- Inserting answers with the value of the first insertion, which may be this one. -/
  insert : ∀ key value, some (t.insert key value).1 = (log ++ [(key, value)]).lookup key
  /-- There are as many entries as distinct keys. -/
  size : t.size = (log.map Prod.fst).eraseDups.length
  /-- Each link leads to a smaller position. -/
  descends : ∀ (i : Nat) (e : InternEntry K V) (j : Nat), t.entries[i]? = some e →
    e.next = some j → j < i
  /-- Each search ends, with the answer that looking the key up has. -/
  search : ∀ key, ∃ head, t.buckets[bucketOf (hashOf key) t.buckets.size]? = some head ∧
    Search t.entries (hashOf key) key head (t.get? key)
  /-- Each entry has the hash of its key, and is passed from just the bucket that its hash selects. -/
  passes : ∀ (i : Nat) (e : InternEntry K V), t.entries[i]? = some e → e.hash = hashOf e.key ∧
    bucketOf e.hash t.buckets.size < t.buckets.size ∧
    ∀ (bucket : Nat) (head : Option Nat), t.buckets[bucket]? = some head →
      (Passes t.entries head i ↔ bucket = bucketOf e.hash t.buckets.size)

theorem Stores.firstWins (h : t.Stores log) : t.FirstWins log where
  get := h.get?_eq
  insert key value := by
    have hinsert := (h.insert key value).1
    rw [hinsert, List.lookup_append, List.lookup_cons, beq_self_eq_true]
    cases log.lookup key <;> rfl
  size := h.size_eq
  descends := h.chained.next_lt
  search key := by
    obtain ⟨head, hhead, hsearch⟩ := h.chained.search key
    exact ⟨head, hhead, h.chained.get?_eq_lookup key ▸ hsearch⟩
  passes i e he := by
    refine ⟨h.chained.hash_eq i e he, h.chained.bucketOf_lt e.hash, fun bucket head hhead => ?_⟩
    rw [h.chained.passes_iff hhead]
    constructor
    · rintro ⟨e', he', hbucket⟩
      cases he.symm.trans he'
      exact hbucket.symm
    · exact fun hbucket => ⟨e, he, hbucket.symm⟩

/-- **Whatever calls are made on a new table**, they are answered as from the list of insertions; the
first insertion of a key wins; and another number of buckets changes none of it. -/
theorem Client.first_insertion_wins (client : Client K V ε) :
    (client.run empty).1 = (client.expected []).1 ∧
      (client.run empty).2.FirstWins (client.expected []).2 ∧
      ∀ count, 0 < count → ((client.run empty).2.rehash count).FirstWins (client.expected []).2 := by
  obtain ⟨hresult, hstores⟩ := client.run_stores stores_empty
  exact ⟨hresult, hstores.firstWins, fun count hcount => (hstores.rehash hcount).firstWins⟩

/-- Texts cut out of others are equal keys if they read the same.  What makes the value of the second key
here inserts that key itself, so that what it makes comes too late. -/
theorem first_insertion_wins_slices :
    let cut : String.Slice := "ba".toSlice.drop 1
    let client : Client String.Slice Nat Unit :=
      .insert "a".toSlice 10 fun _ =>
      .getOrInsert "b".toSlice (.insert "b".toSlice 7 fun _ => .finish (.ok 8)) fun made =>
      .insert cut 20 fun _ => .finish made
    EquivBEq String.Slice ∧ LawfulHashable String.Slice ∧ (client.run empty).1 = .ok 7 ∧
      (client.run empty).2.get? cut = some 10 ∧ (client.run empty).2.size = 2 := by
  intro cut client
  obtain ⟨hresult, hwins, -⟩ := client.first_insertion_wins
  exact ⟨inferInstance, inferInstance, hresult.trans (by decide +kernel),
    (hwins.get cut).trans (by decide +kernel), hwins.size.trans (by decide +kernel)⟩

end ClassFile.InternTable
