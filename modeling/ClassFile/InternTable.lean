/-
# Hash tables in which the first insertion wins

An `InternTable` gives each key one value for good: inserting a key that is already present
changes nothing and answers with the value it has.  Constants, types and bootstrap methods are
numbered with it.

Entries live in an arena, in the order of insertion, and are never moved or removed.  A bucket
points to the newest entry whose hash selects it, and each entry points to the next older one of
its bucket.  Every link therefore points to a strictly smaller position of the arena, which is
why following a chain ends (`chainFind`).  The buckets grow when the table is three quarters
full (`grow`), and the links are laid anew.
-/
namespace ClassFile

/-- A key with its value and its place in the chain of its bucket. -/
structure InternEntry (K V : Type) where
  key : K
  value : V
  hash : UInt32
  next : Option Nat

/-- Entries in the order of insertion, and the newest entry of each bucket. -/
structure InternTable (K V : Type) where
  entries : Array (InternEntry K V)
  buckets : Array (Option Nat)

namespace InternTable

variable {K V : Type}

/-- The table without entries. -/
def empty : InternTable K V := ⟨#[], Array.replicate 256 none⟩

/-- The number of keys. -/
def size (t : InternTable K V) : Nat := t.entries.size

/-- Is the table without entries? -/
def isEmpty (t : InternTable K V) : Bool := t.entries.isEmpty

/-- The keys with their values, in the order of insertion. -/
def toList (t : InternTable K V) : List (K × V) := t.entries.toList.map fun e => (e.key, e.value)

/-- The part of a key's hash that is kept. -/
def hashOf [Hashable K] (key : K) : UInt32 := (hash key).toUInt32

/-- The bucket that a hash selects. -/
def bucketOf (h : UInt32) (bucketCount : Nat) : Nat := h.toNat % bucketCount

/-- Looks for a key along the chain that starts at entry `i`. -/
def chainFind [BEq K] (entries : Array (InternEntry K V)) (h : UInt32) (key : K) (i : Nat) :
    Option V :=
  match entries[i]? with
  | none => none
  | some e =>
    if e.hash == h && e.key == key then some e.value
    else
      match e.next with
      | none => none
      | some j => if j < i then chainFind entries h key j else none
termination_by i

variable [BEq K] [Hashable K]

/-- The value of a key. -/
def get? (t : InternTable K V) (key : K) : Option V :=
  let h := hashOf key
  match t.buckets[bucketOf h t.buckets.size]? with
  | some (some i) => chainFind t.entries h key i
  | _ => none

omit [BEq K] [Hashable K] in
/-- Puts an entry in front of the chain of its bucket. -/
def link (t : InternTable K V) (key : K) (value : V) (h : UInt32) : InternTable K V :=
  let ⟨entries, buckets⟩ := t
  let bucket := bucketOf h buckets.size
  let next := buckets[bucket]?.join
  let buckets := buckets.setIfInBounds bucket (some entries.size)
  ⟨entries.push ⟨key, value, h, next⟩, buckets⟩

omit [BEq K] [Hashable K] in
/-- The same entries over a new number of buckets. -/
def rehash (t : InternTable K V) (bucketCount : Nat) : InternTable K V :=
  t.entries.foldl (fun t e => t.link e.key e.value e.hash) ⟨#[], Array.replicate bucketCount none⟩

omit [BEq K] [Hashable K] in
/-- More buckets, when three quarters as many entries as buckets are there. -/
def grow (t : InternTable K V) : InternTable K V :=
  if t.buckets.size * 3 ≤ t.entries.size * 4 then t.rehash (t.buckets.size * 2 + 1) else t

/-- Gives a key a value, unless it has one already; also the value it now has. -/
def insert (t : InternTable K V) (key : K) (value : V) : V × InternTable K V :=
  match t.get? key with
  | some existing => (existing, t)
  | none => (value, t.grow.link key value (hashOf key))

/-- The value of a key, which is made and inserted when the key has none.  Making it may use the table,
and what it inserts stays there, also when it fails. -/
def getOrInsert {ε : Type} (t : InternTable K V) (key : K)
    (make : InternTable K V → Except ε V × InternTable K V) : Except ε V × InternTable K V :=
  match t.get? key with
  | some existing => (.ok existing, t)
  | none =>
    match make t with
    | (.ok value, t) =>
      let (value, t) := t.insert key value
      (.ok value, t)
    | (.error e, t) => (.error e, t)

end InternTable

end ClassFile
