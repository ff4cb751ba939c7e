import Ngx.Buckets

/-! The hash table of the channels. Keys are words, values are pointers; a chain is the list of
its pairs. -/
namespace Ngx.Hash

structure Pair where
  key : UInt64
  value : UInt64
  deriving DecidableEq, Repr

def hashTableNull : UInt64 := 0

/-- `hash_func` and `equal_func`: an equivalence of keys, and a hash that respects it. -/
structure KeyFunctions where
  hashFunc : UInt64 → UInt64
  equalFunc : UInt64 → UInt64 → Bool
  refl : ∀ a, equalFunc a a
  symm : ∀ {a b}, equalFunc a b → equalFunc b a
  trans : ∀ {a b c}, equalFunc a b → equalFunc b c → equalFunc a c
  respects : ∀ {a b}, equalFunc a b → hashFunc a = hashFunc b

/-- `ngx_websocket_channel_hash_func` and `ngx_websocket_channel_equal_func`. -/
def websocketChannelKeys : KeyFunctions where
  hashFunc key := key
  equalFunc a b := a == b
  refl := by simp
  symm := by simp
  trans := by simp
  respects := by simp

/-- `ngx_hash_table_t`. Every pair counted by `entries` takes 24 bytes of memory of its own, so
that no small multiple of it leaves the 64-bit words. -/
structure HashTable where
  table : Nat → List Pair
  tableSize : Nat
  entries : Nat
  primeIndex : Nat

def hashTablePrimes : List Nat :=
  [193, 389, 769, 1543, 3079, 6151, 12289, 24593, 49157, 98317, 196613, 393241, 786433, 1572869,
    3145739, 6291469, 12582917, 25165843, 50331653, 100663319, 201326611, 402653189, 805306457,
    1610612741]

def HashTable.newTableSize (t : HashTable) : Nat :=
  (hashTablePrimes[t.primeIndex]?).getD (t.entries * 10)

/-- `ngx_hash_table_allocate_table`, with whether `calloc` has the memory. -/
def HashTable.allocateTable (memory : Bool) (t : HashTable) : HashTable × Bool :=
  ({ t with tableSize := t.newTableSize, table := fun _ => [] }, memory)

/-- `ngx_hash_table_new`, with whether its `malloc` and its `calloc` have the memory. -/
def hashTableNew (memory tableMemory : Bool) : Option HashTable :=
  if ¬ memory then none
  else
    let (t, allocated) := HashTable.allocateTable tableMemory ⟨fun _ => [], 0, 0, 0⟩
    if allocated then some t else none

variable (f : KeyFunctions)

def KeyFunctions.index (tableSize : Nat) (key : UInt64) : Nat := (f.hashFunc key).toNat % tableSize

def HashTable.enlarge (memory : Bool) (t : HashTable) : HashTable × Bool :=
  let (new, allocated) := HashTable.allocateTable memory { t with primeIndex := t.primeIndex + 1 }
  if ¬ allocated then
    ({ new with table := t.table, tableSize := t.tableSize, primeIndex := t.primeIndex }, false)
  else
    ({ new with
        table := Buckets.relink (fun pair => f.index new.tableSize pair.key) t.tableSize t.table },
      true)

/-- One call of `ngx_hash_table_insert`, with whether there is memory for a larger table and
for a new entry. -/
structure Call where
  key : UInt64
  value : UInt64
  tableMemory : Bool
  entryMemory : Bool

/-- The part of `ngx_hash_table_insert` after the table was enlarged or was large enough. -/
def HashTable.store (call : Call) (t : HashTable) : HashTable × Bool :=
  let index := f.index t.tableSize call.key
  let same := fun pair : Pair => f.equalFunc pair.key call.key
  match Buckets.replaceFirst same ⟨call.key, call.value⟩ (t.table index) with
  | some chain => ({ t with table := Function.update t.table index chain }, true)
  | none =>
    if ¬ call.entryMemory then (t, false)
    else
      ({ t with
          table := Function.update t.table index (⟨call.key, call.value⟩ :: t.table index)
          entries := t.entries + 1 }, true)

/-- `ngx_hash_table_insert`, with whether it returns 1. -/
def HashTable.insert (call : Call) (t : HashTable) : HashTable × Bool :=
  if t.entries * 3 / t.tableSize > 0 then
    let (t, enlarged) := t.enlarge f call.tableMemory
    if ¬ enlarged then (t, false) else t.store f call
  else t.store f call

def HashTable.lookup (t : HashTable) (key : UInt64) : UInt64 :=
  match (t.table (f.index t.tableSize key)).find? fun pair => f.equalFunc key pair.key with
  | some pair => pair.value
  | none => hashTableNull

/-- A table with the pairs of the calls that returned 1, the latest first. -/
structure History where
  table : HashTable
  stored : List Pair

def History.call (h : History) (call : Call) : History :=
  let (t, inserted) := h.table.insert f call
  ⟨t, if inserted then ⟨call.key, call.value⟩ :: h.stored else h.stored⟩

def History.run (t : HashTable) (calls : List Call) : History := calls.foldl (History.call f) ⟨t, []⟩

/-- Every pair is in the chain of its key, no two pairs of a chain have equal keys, and a key is
found with the pair stored for it last. -/
structure Represents (t : HashTable) (stored : List Pair) : Prop where
  positive : 0 < t.tableSize
  placed : ∀ i, ∀ pair ∈ t.table i, f.index t.tableSize pair.key = i
  distinct : ∀ i, (t.table i).Pairwise fun a b => ¬ f.equalFunc a.key b.key
  found : ∀ key, ((t.table (f.index t.tableSize key)).find? fun pair => f.equalFunc key pair.key) =
    stored.find? fun pair => f.equalFunc key pair.key
  entries : t.entries =
    ((stored.map Pair.key).pwFilter fun a b => ¬ f.equalFunc a b).length

variable {f : KeyFunctions} {t : HashTable} {stored : List Pair}

theorem KeyFunctions.index_congr {a b : UInt64} (same : f.equalFunc a b) (tableSize : Nat) :
    f.index tableSize a = f.index tableSize b := by
  rw [index, index, f.respects same]

theorem KeyFunctions.index_lt (positive : 0 < t.tableSize) (key : UInt64) :
    f.index t.tableSize key < t.tableSize :=
  Nat.mod_lt _ positive

theorem KeyFunctions.equal_congr {a b key : UInt64} (same : f.equalFunc a b) :
    f.equalFunc key a = f.equalFunc key b := by
  rw [Bool.eq_iff_iff]
  exact ⟨fun h => f.trans h same, fun h => f.trans h (f.symm same)⟩

theorem unique_of_distinct {chain : List Pair}
    (distinct : chain.Pairwise fun a b => ¬ f.equalFunc a.key b.key) (key : UInt64) :
    Buckets.Unique (fun pair => f.equalFunc key pair.key) chain := by
  apply distinct.imp
  rintro a b different ⟨left, right⟩
  exact different (f.trans (f.symm left) right)

theorem fresh_represents {memory tableMemory : Bool}
    (allocated : hashTableNew memory tableMemory = some t) : Represents f t [] := by
  cases memory <;> cases tableMemory <;> cases allocated
  exact ⟨by decide, by simp, fun _ => .nil, fun _ => rfl, rfl⟩

theorem newTableSize_positive (some : 0 < t.entries) : 0 < t.newTableSize := by
  rw [HashTable.newTableSize]
  cases prime : hashTablePrimes[t.primeIndex]? with
  | none => simpa using some
  | some size =>
    have all : ∀ p ∈ hashTablePrimes, 0 < p := by decide
    exact all size (List.mem_of_getElem? prime)

/-- Whether or not there is memory for the larger table. -/
theorem enlarge_represents (memory : Bool) (used : 0 < t.entries) (rep : Represents f t stored) :
    Represents f (t.enlarge f memory).1 stored := by
  cases memory with
  | false =>
    simp only [HashTable.enlarge, HashTable.allocateTable, Bool.false_eq_true, not_false_eq_true,
      if_true]
    exact rep
  | true =>
    simp only [HashTable.enlarge, HashTable.allocateTable, not_true_eq_false, if_false]
    have positive := newTableSize_positive (t := { t with primeIndex := t.primeIndex + 1 }) used
    generalize HashTable.newTableSize { t with primeIndex := t.primeIndex + 1 } = size at *
    have moved {pair : Pair} {i : Nat} :
        pair ∈ Buckets.relink (fun pair => f.index size pair.key) t.tableSize t.table i ↔
          f.index size pair.key = i ∧ pair ∈ t.table (f.index t.tableSize pair.key) :=
      Buckets.mem_relink rep.placed fun pair => KeyFunctions.index_lt rep.positive pair.key
    have distinct : ∀ i, (Buckets.relink (fun pair => f.index size pair.key) t.tableSize t.table
        i).Pairwise fun a b => ¬ f.equalFunc a.key b.key := by
      refine Buckets.relink_pairwise ?_ rep.placed ?_ ?_
      · exact fun different same => different (f.symm same)
      · exact fun apart same => apart (KeyFunctions.index_congr same _)
      · exact rep.distinct
    refine ⟨positive, fun i pair member => (moved.mp member).1, distinct, fun key => ?_,
      rep.entries⟩
    rw [← rep.found]
    ext pair
    rw [Buckets.find?_eq_some_iff (unique_of_distinct (distinct _) key),
      Buckets.find?_eq_some_iff (unique_of_distinct (rep.distinct _) key), moved]
    constructor
    · rintro ⟨⟨-, member⟩, same⟩
      rw [KeyFunctions.index_congr same]
      exact ⟨member, same⟩
    · rintro ⟨member, same⟩
      rw [KeyFunctions.index_congr same] at member
      exact ⟨⟨(KeyFunctions.index_congr same _).symm, member⟩, same⟩

/-- A key that none of the chains has adds one to the number of distinct keys. -/
theorem distinct_cons (key value : UInt64) :
    (((Pair.mk key value :: stored).map Pair.key).pwFilter fun a b => ¬ f.equalFunc a b).length =
      ((stored.map Pair.key).pwFilter fun a b => ¬ f.equalFunc a b).length +
        if (stored.find? fun pair => f.equalFunc key pair.key) = none then 1 else 0 := by
  have transitive {x y z : UInt64} (different : ¬ f.equalFunc x z) :
      ¬ f.equalFunc x y ∨ ¬ f.equalFunc y z := by
    by_cases same : f.equalFunc x y
    · exact .inr fun same' => different (f.trans same same')
    · exact .inl same
  have fresh := List.forall_mem_pwFilter (R := fun a b => ¬ f.equalFunc a b) transitive key
    (stored.map Pair.key)
  have missing : (∀ b ∈ stored.map Pair.key, ¬ f.equalFunc key b) ↔
      (stored.find? fun pair => f.equalFunc key pair.key) = none := by
    simp [List.find?_eq_none]
  rw [missing] at fresh
  rw [List.map_cons]
  split
  next none => rw [List.pwFilter_cons_of_pos (fresh.mpr none), List.length_cons]
  next found => rw [List.pwFilter_cons_of_neg (mt fresh.mp found), Nat.add_zero]

theorem KeyFunctions.equal_comm (a b : UInt64) : f.equalFunc a b = f.equalFunc b a := by
  rw [Bool.eq_iff_iff]
  exact ⟨f.symm, f.symm⟩

/-- A pair put into the chain of its key, where it is what is found for its key from now on. -/
theorem Represents.put {chain : List Pair} {entries : Nat} (rep : Represents f t stored)
    (pair : Pair)
    (placed : ∀ p ∈ chain, f.index t.tableSize p.key = f.index t.tableSize pair.key)
    (distinct : chain.Pairwise fun a b => ¬ f.equalFunc a.key b.key)
    (here : ∀ key, (chain.find? fun p => f.equalFunc key p.key) =
      if f.equalFunc key pair.key then some pair
      else (t.table (f.index t.tableSize pair.key)).find? fun p => f.equalFunc key p.key)
    (counted : entries =
      (((pair :: stored).map Pair.key).pwFilter fun a b => ¬ f.equalFunc a b).length) :
    Represents f { t with
      table := Function.update t.table (f.index t.tableSize pair.key) chain
      entries := entries } (pair :: stored) where
  positive := rep.positive
  placed i p member := by
    simp only [Function.update_apply] at member ⊢
    split at member
    next home => rw [placed p member, home]
    next => exact rep.placed i p member
  distinct i := by
    simp only [Function.update_apply]
    split
    · exact distinct
    · exact rep.distinct i
  found key := by
    simp only [Function.update_apply]
    rw [List.find?_cons, ← rep.found]
    split
    next home =>
      rw [here, home]
      cases f.equalFunc key pair.key <;> rfl
    next elsewhere =>
      have different : f.equalFunc key pair.key = false := by
        by_contra same
        exact elsewhere (KeyFunctions.index_congr (by simpa using same) _)
      rw [different]
  entries := counted

/-- A new entry at the front of its chain. -/
theorem Represents.add {key value : UInt64} (rep : Represents f t stored)
    (missing : ((t.table (f.index t.tableSize key)).find? fun pair => f.equalFunc key pair.key) =
      none) :
    Represents f { t with
      table := Function.update t.table (f.index t.tableSize key)
        (⟨key, value⟩ :: t.table (f.index t.tableSize key))
      entries := t.entries + 1 } (⟨key, value⟩ :: stored) := by
  apply rep.put ⟨key, value⟩
  · intro p member
    rcases List.mem_cons.mp member with rfl | old
    · rfl
    · exact rep.placed _ p old
  · refine List.pairwise_cons.mpr ⟨fun pair old => ?_, rep.distinct _⟩
    exact List.find?_eq_none.mp missing pair old
  · intro key'
    rw [List.find?_cons]
    cases f.equalFunc key' key <;> rfl
  · rw [rep.found] at missing
    rw [distinct_cons, if_pos missing, rep.entries]

/-- The entry of an equal key overwritten in its place. -/
theorem Represents.overwrite {key value : UInt64} {xs ys : List Pair} {old : Pair}
    (rep : Represents f t stored) (chain : t.table (f.index t.tableSize key) = xs ++ old :: ys)
    (same : f.equalFunc old.key key) (before : ∀ x ∈ xs, ¬ f.equalFunc x.key key) :
    Represents f { t with
      table := Function.update t.table (f.index t.tableSize key) (xs ++ ⟨key, value⟩ :: ys) }
      (⟨key, value⟩ :: stored) := by
  apply rep.put ⟨key, value⟩
  · intro p member
    have kept (inside : p ∈ xs ++ old :: ys) := rep.placed _ p (chain ▸ inside)
    rcases List.mem_append.mp member with first | rest
    · exact kept (List.mem_append_left _ first)
    · rcases List.mem_cons.mp rest with rfl | later
      · rfl
      · exact kept (List.mem_append_right _ (List.mem_cons_of_mem _ later))
  · have distinct := rep.distinct (f.index t.tableSize key)
    rw [chain, List.pairwise_append, List.pairwise_cons] at distinct
    obtain ⟨first, ⟨later, rest⟩, apart⟩ := distinct
    rw [List.pairwise_append, List.pairwise_cons]
    refine ⟨first, ⟨fun y member equal => ?_, rest⟩, fun x member p inside => ?_⟩
    · exact later y member (f.trans same equal)
    · rcases List.mem_cons.mp inside with rfl | inside
      · exact before x member
      · exact apart x member p (List.mem_cons_of_mem _ inside)
  · intro key'
    rw [chain, List.find?_append, List.find?_append, List.find?_cons, List.find?_cons,
      KeyFunctions.equal_congr same]
    cases equal : f.equalFunc key' key with
    | false => rfl
    | true =>
      have none : (xs.find? fun p => f.equalFunc key' p.key) = none := by
        rw [List.find?_eq_none]
        intro x member also
        exact before x member (f.trans (f.symm also) equal)
      rw [none]
      rfl
  · have used : (stored.find? fun pair => f.equalFunc key pair.key) ≠ none := by
      rw [← rep.found, chain]
      intro missing
      exact List.find?_eq_none.mp missing old (by simp) (f.symm same)
    rw [distinct_cons, if_neg used, Nat.add_zero, rep.entries]

theorem store_represents (call : Call) (rep : Represents f t stored) :
    Represents f (t.store f call).1
      (if (t.store f call).2 then ⟨call.key, call.value⟩ :: stored else stored) := by
  rw [HashTable.store]
  cases replaced : Buckets.replaceFirst (fun pair : Pair => f.equalFunc pair.key call.key)
      ⟨call.key, call.value⟩ (t.table (f.index t.tableSize call.key)) with
  | some chain =>
    obtain ⟨xs, old, ys, whole, rfl, same, before⟩ := Buckets.replaceFirst_some replaced
    exact rep.overwrite whole same before
  | none =>
    cases call.entryMemory with
    | false => exact rep
    | true =>
      apply rep.add
      have missing := Buckets.replaceFirst_none replaced
      simpa only [KeyFunctions.equal_comm call.key] using missing

/-- An insert that returns 0 leaves the pairs found as they are, although it may have enlarged
the table. -/
theorem insert_represents (call : Call) (rep : Represents f t stored) :
    Represents f (t.insert f call).1
      (if (t.insert f call).2 then ⟨call.key, call.value⟩ :: stored else stored) := by
  rw [HashTable.insert]
  split
  next full =>
    have used : 0 < t.entries := by
      by_contra empty
      simp [Nat.eq_zero_of_not_pos empty] at full
    have enlarged := enlarge_represents call.tableMemory used rep
    generalize t.enlarge f call.tableMemory = result at enlarged
    obtain ⟨new, done⟩ := result
    cases done with
    | false => exact enlarged
    | true => exact store_represents call enlarged
  next => exact store_represents call rep

theorem run_represents (calls : List Call) {h : History} (rep : Represents f h.table h.stored) :
    Represents f (calls.foldl (History.call f) h).table (calls.foldl (History.call f) h).stored := by
  induction calls generalizing h with
  | nil => exact rep
  | cons call calls ih => exact ih (insert_represents call rep)

theorem Represents.lookup (rep : Represents f t stored) (key : UInt64) :
    t.lookup f key =
      ((stored.find? fun pair => f.equalFunc key pair.key).map Pair.value).getD hashTableNull := by
  rw [HashTable.lookup, rep.found]
  cases stored.find? fun pair => f.equalFunc key pair.key <;> rfl

/-- A key that was stored is in one entry of its chain and in no entry of another chain. -/
theorem Represents.occurs_once {pair : Pair} (rep : Represents f t stored) (member : pair ∈ stored)
    (i : Nat) :
    ((t.table i).countP fun entry => f.equalFunc pair.key entry.key) =
      if i = f.index t.tableSize pair.key then 1 else 0 := by
  split
  next here =>
    subst here
    cases found : (t.table (f.index t.tableSize pair.key)).find? fun entry =>
        f.equalFunc pair.key entry.key with
    | some entry =>
      obtain ⟨inside, same⟩ :=
        (Buckets.find?_eq_some_iff (unique_of_distinct (rep.distinct _) pair.key)).mp found
      exact Buckets.countP_eq_one (unique_of_distinct (rep.distinct _) pair.key) inside same
    | none =>
      rw [rep.found] at found
      exact (List.find?_eq_none.mp found pair member (f.refl pair.key)).elim
  next elsewhere =>
    rw [List.countP_eq_zero]
    intro entry inside same
    apply elsewhere
    rw [KeyFunctions.index_congr same]
    exact (rep.placed i entry inside).symm

/-- After any calls, whichever of them found no memory, a lookup returns the value stored last
for an equal key, a further insert that returns 0 changes no lookup, `entries` is the number of
different keys, and every key stands once, in its own chain. -/
theorem hash_table_is_map (f : KeyFunctions) (memory tableMemory : Bool) (t₀ : HashTable)
    (calls : List Call) (allocated : hashTableNew memory tableMemory = some t₀) :
    let t := (History.run f t₀ calls).table
    let stored := (History.run f t₀ calls).stored
    (∀ key, t.lookup f key =
      ((stored.find? fun pair => f.equalFunc key pair.key).map Pair.value).getD hashTableNull) ∧
    (∀ call, (t.insert f call).2 = false → ∀ key,
      (t.insert f call).1.lookup f key = t.lookup f key) ∧
    t.entries = ((stored.map Pair.key).pwFilter fun a b => ¬ f.equalFunc a b).length ∧
    ∀ pair ∈ stored, ∀ i < t.tableSize,
      ((t.table i).countP fun entry => f.equalFunc pair.key entry.key) =
        if i = f.index t.tableSize pair.key then 1 else 0 := by
  intro t stored
  have rep : Represents f t stored := run_represents calls (fresh_represents allocated)
  refine ⟨rep.lookup, fun call failed key => ?_, rep.entries,
    fun pair member i _ => rep.occurs_once member i⟩
  have after := insert_represents call rep
  rw [failed, if_neg Bool.false_ne_true] at after
  rw [after.lookup, rep.lookup]

/-- A second value for channel 1, and no memory for an entry of channel 2. -/
theorem hash_table_is_map_channels :
    ∃ t₀, hashTableNew true true = some t₀ ∧
      let t := (History.run websocketChannelKeys t₀ [⟨1, 4096, true, true⟩, ⟨1, 8192, true, true⟩,
        ⟨2, 12288, true, false⟩]).table
      t.lookup websocketChannelKeys 1 = 8192 ∧ t.lookup websocketChannelKeys 2 = hashTableNull := by
  refine ⟨_, rfl, ?_⟩
  obtain ⟨lookup, -⟩ := hash_table_is_map websocketChannelKeys true true _ [⟨1, 4096, true, true⟩,
    ⟨1, 8192, true, true⟩, ⟨2, 12288, true, false⟩] rfl
  exact ⟨(lookup 1).trans (by decide), (lookup 2).trans (by decide)⟩

end Ngx.Hash
