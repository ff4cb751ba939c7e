import Ngx.Palloc

/-! Where the small path of a pool hands out memory. The space check compares sizes as
unsigned words, so it also passes when aligning `d.last` moved past `d.end`. -/
namespace Ngx.Palloc

theorem alignPtr_eq {p : Nat} (fits : p + 7 < 2 ^ 64) : alignPtr p = (p + 7) / 8 * 8 :=
  Alignment.roundUp_eq (w := 64) (k := 3) (by decide) fits

theorem sizeDiff_of_le {a b : Nat} (le : b ≤ a) (small : a < 2 ^ 64) : sizeDiff a b = a - b := by
  rw [sizeDiff]; omega

/-- A pointer just past the end leaves a distance near the top of `size_t`. -/
theorem sizeDiff_of_lt {a b : Nat} (lt : a < b) (near : b < a + 8) : 2 ^ 64 - 8 < sizeDiff a b := by
  rw [sizeDiff, Nat.mod_eq_of_lt (by omega)]; omega

/-- A block of `size` bytes whose first `header` bytes hold its header. -/
structure Sound (size header : Nat) (b : PoolBlock) : Prop where
  start : b.address + header ≤ b.dLast
  stop : b.dLast ≤ b.dEnd
  extent : b.dEnd = b.address + size
  aligned : b.address % 16 = 0
  bound : b.dEnd ≤ 2 ^ 63

/-- The pool's own block starts with an `ngx_pool_t`, a chained one with an `ngx_pool_data_t`. -/
def SoundChain (size : Nat) : List PoolBlock → Prop
  | [] => False
  | first :: chain => Sound size sizeofPool first ∧ ∀ b ∈ chain, Sound size sizeofPoolData b

/-- `[m, m + size)` lies between the header and `d.end` of one of the blocks. -/
def Inside (m size : Nat) : List PoolBlock → Prop
  | [] => False
  | first :: chain =>
    (first.address + sizeofPool ≤ m ∧ m + size ≤ first.dEnd) ∨
      ∃ b ∈ chain, b.address + sizeofPoolData ≤ m ∧ m + size ≤ b.dEnd

theorem Sound.weaken {size : Nat} {b : PoolBlock} (h : Sound size sizeofPool b) :
    Sound size sizeofPoolData b :=
  { h with start := by have := h.start; simp only [sizeofPool, sizeofPoolData] at *; omega }

theorem SoundChain.mem {size : Nat} {blocks : List PoolBlock} (h : SoundChain size blocks)
    {b : PoolBlock} (member : b ∈ blocks) : Sound size sizeofPoolData b := by
  cases blocks with
  | nil => exact h.elim
  | cons first chain =>
    rcases List.mem_cons.mp member with rfl | member
    · exact h.1.weaken
    · exact h.2 b member

/-- Moving `d.last` of one block up to `m + size ≤ d.end` keeps the chain sound, and the
space in between is inside that block. -/
theorem SoundChain.carved {total m size : Nat} {front back : List PoolBlock} {b : PoolBlock}
    (h : SoundChain total (front ++ b :: back)) (after : b.dLast ≤ m)
    (fits : m + size ≤ b.dEnd) :
    SoundChain total (front ++ { b with dLast := m + size } :: back) ∧
      Inside m size (front ++ { b with dLast := m + size } :: back) := by
  have moved (header : Nat) (s : Sound total header b) :
      Sound total header { b with dLast := m + size } ∧ b.address + header ≤ m :=
    ⟨{ s with
        start := by have := s.start; simp only; omega
        stop := fits }, s.start.trans after⟩
  cases front with
  | nil =>
    obtain ⟨first, chain⟩ := h
    have first := moved _ first
    exact ⟨⟨first.1, chain⟩, Or.inl ⟨first.2, fits⟩⟩
  | cons first front =>
    obtain ⟨head, chain⟩ := h
    have here := moved _ (chain b (by simp))
    refine ⟨⟨head, fun x member => ?_⟩,
      Or.inr ⟨{ b with dLast := m + size }, by simp, here.2, fits⟩⟩
    rcases List.mem_append.mp member with member | member
    · exact chain x (by simp [member])
    · rcases List.mem_cons.mp member with rfl | member
      · exact here.1
      · exact chain x (by simp [member])

/-- Standing on a block whose aligned `d.last` is past its end, before one with room. -/
def overshoots (size : Nat) : List PoolBlock → Bool
  | [] => false
  | b :: rest =>
    if b.dEnd < alignPtr b.dLast then true
    else if alignPtr b.dLast + size ≤ b.dEnd then false
    else overshoots size rest

section Carve

variable {total size : Nat} {align : Bool} {blocks : List PoolBlock}

/-- The start of what a sound block would hand out. -/
theorem Sound.aligned_start {header : Nat} {b : PoolBlock} (h : Sound total header b) :
    b.dLast ≤ alignPtr b.dLast ∧ alignPtr b.dLast < b.dLast + 8 := by
  have := h.stop
  have := h.bound
  rw [alignPtr_eq (by omega)]
  omega

/-- Without an overshoot the first block that passes the check really has the room. -/
theorem carve_spec (sound : ∀ b ∈ blocks, Sound total sizeofPoolData b)
    (clean : align = true → overshoots size blocks = false) {m : Nat} {after : List PoolBlock}
    (carved : carve align size blocks = some (m, after)) :
    ∃ front b back, blocks = front ++ b :: back ∧
      after = front ++ { b with dLast := m + size } :: back ∧
      b.dLast ≤ m ∧ m + size ≤ b.dEnd := by
  induction blocks generalizing after with
  | nil => simp [carve] at carved
  | cons b rest ih =>
    have here := sound b List.mem_cons_self
    have start := here.aligned_start
    have stop := here.stop
    have bound := here.bound
    have inside : align = true → alignPtr b.dLast ≤ b.dEnd := by
      intro aligned
      have := clean aligned
      by_contra past
      simp [overshoots, Nat.not_le.mp past] at this
    simp only [carve] at carved
    obtain ⟨at_, eq, le, near⟩ : ∃ at_, (if align = true then alignPtr b.dLast else b.dLast) = at_ ∧
        b.dLast ≤ at_ ∧ at_ ≤ b.dEnd := by
      split
      next aligned => exact ⟨_, rfl, start.1, inside aligned⟩
      next => exact ⟨_, rfl, le_refl _, stop⟩
    rw [eq, sizeDiff_of_le near (by omega)] at carved
    split at carved
    next room =>
      obtain ⟨rfl, rfl⟩ := Prod.mk.inj (Option.some.inj carved)
      exact ⟨[], b, rest, rfl, rfl, le, by omega⟩
    next full =>
      have later : align = true → overshoots size rest = false := by
        intro aligned
        have := clean aligned
        have := inside aligned
        rw [if_pos aligned] at eq
        subst eq
        rw [overshoots, if_neg (by omega), if_neg (by omega)] at clean
        exact clean aligned
      cases found : carve align size rest with
      | none => simp [found] at carved
      | some result =>
        obtain ⟨m', rest'⟩ := result
        rw [found] at carved
        obtain ⟨rfl, rfl⟩ := Prod.mk.inj (Option.some.inj carved)
        obtain ⟨front, x, back, rfl, rfl, spec⟩ :=
          ih (fun x member => sound x (List.mem_cons_of_mem _ member)) later found
        exact ⟨b :: front, x, back, rfl, rfl, spec⟩

/-- An overshoot passes the space check and leaves a block with `d.last` beyond `d.end`. -/
theorem carve_overshoots (sound : ∀ b ∈ blocks, Sound total sizeofPoolData b)
    (small : size ≤ maxAllocFromPool) (past : overshoots size blocks = true) :
    ∃ m after, carve true size blocks = some (m, after) ∧ ∃ b ∈ after, b.dEnd < b.dLast := by
  induction blocks with
  | nil => simp [overshoots] at past
  | cons b rest ih =>
    have here := sound b List.mem_cons_self
    have start := here.aligned_start
    have stop := here.stop
    have bound := here.bound
    simp only [maxAllocFromPool] at small
    rw [overshoots] at past
    simp only [carve, if_true]
    by_cases beyond : b.dEnd < alignPtr b.dLast
    · have far := sizeDiff_of_lt beyond (by omega)
      rw [if_pos (by omega)]
      exact ⟨_, _, rfl, _, List.mem_cons_self, by simp only; omega⟩
    · have near := Nat.le_of_not_lt beyond
      rw [if_neg beyond] at past
      rw [sizeDiff_of_le near (by omega)]
      split at past
      next => contradiction
      next full =>
        rw [if_neg (by omega)]
        obtain ⟨m, after, found, x, member, beyond⟩ :=
          ih (fun x member => sound x (List.mem_cons_of_mem _ member)) past
        rw [found]
        exact ⟨m, b :: after, rfl, x, List.mem_cons_of_mem _ member, beyond⟩

end Carve

def PoolBlock.space (b : PoolBlock) : Nat × Nat × Nat := (b.address, b.dLast, b.dEnd)

theorem bumpFailed_space (i current : Nat) (blocks : List PoolBlock) :
    (bumpFailed i current blocks).1.map PoolBlock.space = blocks.map PoolBlock.space := by
  induction blocks generalizing i current with
  | nil => rfl
  | cons b rest ih =>
    cases rest with
    | nil => rfl
    | cons next rest =>
      rw [bumpFailed, List.map_cons, ih, List.map_cons (a := b)]
      rfl

theorem Sound.of_space {size header : Nat} {a b : PoolBlock} (same : a.space = b.space)
    (h : Sound size header b) : Sound size header a := by
  obtain ⟨address, last, stop⟩ : a.address = b.address ∧ a.dLast = b.dLast ∧ a.dEnd = b.dEnd := by
    simpa [PoolBlock.space] using same
  constructor
  · rw [address, last]; exact h.start
  · rw [last, stop]; exact h.stop
  · rw [address, stop]; exact h.extent
  · rw [address]; exact h.aligned
  · rw [stop]; exact h.bound

theorem SoundChain.of_space {size : Nat} {xs ys : List PoolBlock}
    (same : xs.map PoolBlock.space = ys.map PoolBlock.space) (h : SoundChain size ys) :
    SoundChain size xs := by
  cases xs with
  | nil => simp only [List.map_nil, List.nil_eq, List.map_eq_nil_iff] at same; subst same; exact h
  | cons x xs =>
    cases ys with
    | nil => exact h.elim
    | cons y ys =>
      obtain ⟨head, tail⟩ := List.cons.inj same
      refine ⟨h.1.of_space head, fun b member => ?_⟩
      have space : b.space ∈ ys.map PoolBlock.space := tail ▸ List.mem_map_of_mem member
      obtain ⟨c, member, eq⟩ := List.mem_map.mp space
      exact (h.2 c member).of_space eq.symm

theorem SoundChain.snoc {total m size : Nat} {blocks : List PoolBlock} {b : PoolBlock}
    (h : SoundChain total blocks) (new : Sound total sizeofPoolData b)
    (start : b.address + sizeofPoolData ≤ m) (fits : m + size ≤ b.dEnd) :
    SoundChain total (blocks ++ [b]) ∧ Inside m size (blocks ++ [b]) := by
  cases blocks with
  | nil => exact h.elim
  | cons first chain =>
    refine ⟨⟨h.1, fun x member => ?_⟩, Or.inr ⟨b, by simp, start, fits⟩⟩
    rcases List.mem_append.mp member with member | member
    · exact h.2 x member
    · rw [List.mem_singleton.mp member]; exact new

/-- Every block of the pool is sound, and what counts as small fits a new block. -/
structure Invariant (size : Nat) (p : Pool) : Prop where
  chain : SoundChain size p.blocks
  large : sizeofPool ≤ size
  max : p.max + sizeofPool ≤ size
  limit : p.max ≤ maxAllocFromPool

theorem Invariant.blockSize {size : Nat} {p : Pool} (inv : Invariant size p) :
    p.blockSize = size := by
  have chain := inv.chain
  rw [Pool.blockSize]
  cases h : p.blocks with
  | nil => rw [h] at chain; exact chain.elim
  | cons first rest =>
    rw [h] at chain
    have bound := chain.1.bound
    have extent := chain.1.extent
    simp only
    rw [sizeDiff_of_le (by omega) (by omega)]
    omega

/-- A fresh block is aligned so that the space behind its header begins at a word. -/
theorem alignPtr_header {size : Nat} (r : Region size) :
    alignPtr (r.address + sizeofPoolData) = r.address + sizeofPoolData := by
  have aligned := r.aligned
  have bound := r.bound
  simp only [sizeofPoolData]
  rw [alignPtr_eq (by omega)]
  omega

theorem pallocBlock_spec {total size : Nat} {p : Pool} (inv : Invariant total p)
    (small : size + sizeofPoolData ≤ total) (heap : Heap) :
    Invariant total (pallocBlock size heap p).2 ∧
      ∀ m, (pallocBlock size heap p).1 = some m → Inside m size (pallocBlock size heap p).2.blocks := by
  rw [pallocBlock]
  split
  next => exact ⟨inv, by simp⟩
  next r found =>
    have whole := inv.blockSize
    have aligned := r.aligned
    have bound := r.bound
    have same : (p.blocks.take p.current ++
        (bumpFailed p.current p.current (p.blocks.drop p.current)).1).map PoolBlock.space =
        p.blocks.map PoolBlock.space := by
      rw [List.map_append, bumpFailed_space, ← List.map_append, List.take_append_drop]
    have fits : r.address + sizeofPoolData + size ≤ r.address + p.blockSize := by omega
    have new : Sound total sizeofPoolData
        ⟨r.address, r.address + sizeofPoolData + size, r.address + p.blockSize, 0⟩ :=
      ⟨Nat.le_add_right _ _, fits, by simp only; omega, aligned, bound⟩
    have snoc := (inv.chain.of_space same).snoc new (le_refl (r.address + sizeofPoolData)) fits
    simp only [alignPtr_header r]
    refine ⟨⟨snoc.1, inv.large, inv.max, inv.limit⟩, fun m eq => ?_⟩
    rw [← Option.some.inj eq]
    exact snoc.2

theorem pallocSmall_spec {total size : Nat} {align : Bool} {p : Pool} (inv : Invariant total p)
    (small : size + sizeofPoolData ≤ total) (heap : Heap)
    (clean : align = true → overshoots size (p.blocks.drop p.current) = false) :
    Invariant total (pallocSmall align size heap p).2 ∧
      ∀ m, (pallocSmall align size heap p).1 = some m →
        Inside m size (pallocSmall align size heap p).2.blocks := by
  rw [pallocSmall]
  split
  next m after found =>
    have sound : ∀ b ∈ p.blocks.drop p.current, Sound total sizeofPoolData b :=
      fun b member => inv.chain.mem (List.mem_of_mem_drop member)
    obtain ⟨front, b, back, before, rfl, le, fits⟩ := carve_spec sound clean found
    have chain := inv.chain
    rw [← List.take_append_drop p.current p.blocks, before, ← List.append_assoc] at chain
    have carved := chain.carved le fits
    rw [List.append_assoc] at carved
    exact ⟨{ inv with chain := carved.1 }, fun x eq => Option.some.inj eq ▸ carved.2⟩
  next => exact pallocBlock_spec inv small heap

theorem pallocSmall_overshoots {total size : Nat} {p : Pool} (inv : Invariant total p)
    (small : size ≤ maxAllocFromPool) (heap : Heap)
    (past : overshoots size (p.blocks.drop p.current) = true) :
    ∃ b ∈ (pallocSmall true size heap p).2.blocks, b.dEnd < b.dLast := by
  have sound : ∀ b ∈ p.blocks.drop p.current, Sound total sizeofPoolData b :=
    fun b member => inv.chain.mem (List.mem_of_mem_drop member)
  obtain ⟨m, after, found, b, member, beyond⟩ := carve_overshoots sound small past
  rw [pallocSmall, found]
  exact ⟨b, List.mem_append_right _ member, beyond⟩

/-- The block the small path hands out while a request is served, with its size. -/
def Request.grant (heap : Heap) (p : Pool) (request : Request) : Option (Nat × Nat) :=
  match request.smallCall heap p with
  | none => none
  | some (align, size) => (pallocSmall align size heap p).1.map (·, size)

/-- The request does not align `d.last` of a block it stands on past that block's end. -/
def Request.clean (heap : Heap) (p : Pool) (request : Request) : Bool :=
  match request.smallCall heap p with
  | some (true, size) => !overshoots size (p.blocks.drop p.current)
  | _ => true

/-- What the small path handed out is inside a block, and no block ends beyond its end. -/
def Request.Safe (heap : Heap) (p : Pool) (request : Request) : Prop :=
  (∀ m size, request.grant heap p = some (m, size) →
    Inside m size (request.serve heap p).2.blocks) ∧
  ∀ b ∈ (request.serve heap p).2.blocks, b.dLast ≤ b.dEnd

theorem pallocLarge_pool (size : Nat) (heap : Heap) (p : Pool) :
    (pallocLarge size heap p).2.blocks =
        (if (heap.alloc size).isSome then (pallocSmall true sizeofPoolLarge heap p).2 else p).blocks ∧
      (pallocLarge size heap p).2.max =
        (if (heap.alloc size).isSome then (pallocSmall true sizeofPoolLarge heap p).2 else p).max := by
  rw [pallocLarge_eq]
  cases heap.alloc size with
  | none => exact ⟨rfl, rfl⟩
  | some a =>
    cases h : pallocSmall true sizeofPoolLarge heap p with
    | mk result p' => cases result <;> simp

theorem serve_small {heap : Heap} {p : Pool} {request : Request} {align : Bool} {size : Nat}
    (fits : request.size ≤ p.max) (call : request.smallCall heap p = some (align, size)) :
    request.serve heap p = pallocSmall align size heap p := by
  rw [Request.smallCall, if_pos fits] at call
  obtain ⟨rfl, rfl⟩ := Prod.mk.inj (Option.some.inj call)
  cases request with
  | palloc size | pcalloc size | pnalloc size => exact if_pos fits

theorem serve_large {heap : Heap} {p : Pool} {request : Request} (large : ¬ request.size ≤ p.max) :
    request.serve heap p = pallocLarge request.size heap p := by
  cases request with
  | palloc size | pcalloc size | pnalloc size => exact if_neg large

def Request.smallPool (heap : Heap) (p : Pool) (request : Request) : Pool :=
  match request.smallCall heap p with
  | none => p
  | some (align, size) => (pallocSmall align size heap p).2

/-- A request changes the blocks only through its call of the small path. -/
theorem serve_pool (heap : Heap) (p : Pool) (request : Request) :
    (request.serve heap p).2.blocks = (request.smallPool heap p).blocks ∧
      (request.serve heap p).2.max = (request.smallPool heap p).max := by
  by_cases fits : request.size ≤ p.max
  · obtain ⟨align, size, call⟩ : ∃ align size, request.smallCall heap p = some (align, size) :=
      ⟨_, _, if_pos fits⟩
    rw [serve_small fits call, Request.smallPool, call]
    exact ⟨rfl, rfl⟩
  · have large := pallocLarge_pool request.size heap p
    rw [serve_large fits, Request.smallPool, Request.smallCall, if_neg fits]
    cases given : heap.alloc request.size with
    | none => rw [given] at large; exact large
    | some a => rw [given] at large; exact large

theorem smallCall_bound {total : Nat} {heap : Heap} {p : Pool} (inv : Invariant total p)
    {request : Request} {align : Bool} {size : Nat}
    (call : request.smallCall heap p = some (align, size)) :
    size + sizeofPoolData ≤ total ∧ size ≤ maxAllocFromPool := by
  have max := inv.max
  have limit := inv.limit
  have large := inv.large
  simp only [sizeofPool, sizeofPoolData, maxAllocFromPool] at *
  rw [Request.smallCall] at call
  split at call
  next small =>
    have eq := (Prod.mk.inj (Option.some.inj call)).2
    omega
  next =>
    split at call
    next =>
      have eq := (Prod.mk.inj (Option.some.inj call)).2
      simp only [sizeofPoolLarge] at eq
      omega
    next => contradiction

theorem serve_clean {total : Nat} {heap : Heap} {p : Pool} (inv : Invariant total p)
    {request : Request} (clean : request.clean heap p = true) :
    Invariant total (request.serve heap p).2 ∧ request.Safe heap p := by
  have pool := serve_pool heap p request
  rw [Request.smallPool] at pool
  rw [Request.Safe, Request.grant]
  rw [Request.clean] at clean
  cases call : request.smallCall heap p with
  | none =>
    rw [call] at pool
    rw [pool.1]
    exact ⟨⟨pool.1 ▸ inv.chain, inv.large, pool.2 ▸ inv.max, pool.2 ▸ inv.limit⟩,
      by simp, fun b member => (inv.chain.mem member).stop⟩
  | some found =>
    obtain ⟨align, size⟩ := found
    rw [call] at pool clean
    simp only at pool
    have within : align = true → overshoots size (p.blocks.drop p.current) = false := by
      intro aligned
      simpa [aligned] using clean
    obtain ⟨next, inside⟩ := pallocSmall_spec inv (smallCall_bound inv call).1 heap within
    rw [pool.1]
    refine ⟨⟨pool.1 ▸ next.chain, next.large, pool.2 ▸ next.max, pool.2 ▸ next.limit⟩,
      fun m size' eq => ?_, fun b member => (next.chain.mem member).stop⟩
    obtain ⟨x, given, pair⟩ := Option.map_eq_some_iff.mp eq
    obtain ⟨rfl, rfl⟩ := Prod.mk.inj pair
    exact inside x given

theorem serve_not_clean {total : Nat} {heap : Heap} {p : Pool} (inv : Invariant total p)
    {request : Request} (past : request.clean heap p = false) : ¬ request.Safe heap p := by
  have pool := serve_pool heap p request
  rw [Request.smallPool] at pool
  rw [Request.clean] at past
  split at past
  next size call =>
    rw [call] at pool
    simp only at pool
    obtain ⟨b, member, beyond⟩ := pallocSmall_overshoots inv (smallCall_bound inv call).2 heap
      (by simpa using past)
    intro safe
    rw [← pool.1] at member
    have := safe.2 b member
    omega
  next => contradiction

/-- Every request of the run, served with its own answers of the system, is safe. -/
def SafeRun : List (Heap × Request) → Pool → Prop
  | [], _ => True
  | (heap, request) :: rest, p => request.Safe heap p ∧ SafeRun rest (request.serve heap p).2

def CleanRun : List (Heap × Request) → Pool → Prop
  | [], _ => True
  | (heap, request) :: rest, p =>
    request.clean heap p = true ∧ CleanRun rest (request.serve heap p).2

theorem createPool_eq {size : Nat} {heap : Heap} {p : Pool} (large : sizeofPool ≤ size)
    (created : createPool size heap = some p) :
    ∃ r : Region size, p = ⟨[⟨r.address, r.address + sizeofPool, r.address + size, 0⟩],
      min (size - sizeofPool) maxAllocFromPool, 0, []⟩ := by
  rw [createPool] at created
  split at created
  next => contradiction
  next r _ =>
    have bound := r.bound
    have room : sizeDiff size sizeofPool = size - sizeofPool :=
      sizeDiff_of_le large (by omega)
    have max (n k : Nat) : (if n < k then n else k) = min n k := by
      split <;> omega
    refine ⟨r, ?_⟩
    rw [← Option.some.inj created, room, max]

theorem createPool_invariant {size : Nat} {heap : Heap} {p : Pool} (large : sizeofPool ≤ size)
    (created : createPool size heap = some p) : Invariant size p := by
  obtain ⟨r, rfl⟩ := createPool_eq large created
  have inside : r.address + sizeofPool ≤ r.address + size := by omega
  have max : min (size - sizeofPool) maxAllocFromPool + sizeofPool ≤ size := by omega
  exact ⟨⟨⟨le_refl _, inside, rfl, r.aligned, r.bound⟩, by simp⟩, large, max,
    Nat.min_le_right _ _⟩

theorem run_safe_iff_clean {total : Nat} (steps : List (Heap × Request)) {p : Pool}
    (inv : Invariant total p) : SafeRun steps p ↔ CleanRun steps p := by
  induction steps generalizing p with
  | nil => exact Iff.rfl
  | cons step rest ih =>
    obtain ⟨heap, request⟩ := step
    constructor
    · intro ⟨safe, later⟩
      have clean : request.clean heap p = true := by
        by_contra past
        exact serve_not_clean inv (Bool.eq_false_iff.mpr past) safe
      exact ⟨clean, (ih (serve_clean inv clean).1).mp later⟩
    · intro ⟨clean, later⟩
      obtain ⟨next, safe⟩ := serve_clean inv clean
      exact ⟨safe, (ih next).mpr later⟩

/-- When the block size is a multiple of the word, so is `d.end`, and rounding stops there. -/
theorem Sound.no_overshoot {total header : Nat} {b : PoolBlock} (h : Sound total header b)
    (words : 8 ∣ total) : alignPtr b.dLast ≤ b.dEnd := by
  have stop := h.stop
  have extent := h.extent
  have aligned := h.aligned
  have bound := h.bound
  rw [alignPtr_eq (by omega)]
  omega

theorem overshoots_false {total size : Nat} {blocks : List PoolBlock} (words : 8 ∣ total)
    (sound : ∀ b ∈ blocks, Sound total sizeofPoolData b) : overshoots size blocks = false := by
  induction blocks with
  | nil => rfl
  | cons b rest ih =>
    have near := (sound b List.mem_cons_self).no_overshoot words
    have later := ih (fun x member => sound x (List.mem_cons_of_mem _ member))
    rw [overshoots, if_neg (by omega), later]
    split <;> rfl

theorem serve_words {total : Nat} {p : Pool} (words : 8 ∣ total) (inv : Invariant total p)
    (heap : Heap) (request : Request) : request.clean heap p = true := by
  have sound : ∀ b ∈ p.blocks.drop p.current, Sound total sizeofPoolData b :=
    fun b member => inv.chain.mem (List.mem_of_mem_drop member)
  rw [Request.clean]
  split
  · rw [overshoots_false words sound]
    rfl
  · rfl

theorem run_words {total : Nat} (words : 8 ∣ total) (steps : List (Heap × Request)) {p : Pool}
    (inv : Invariant total p) : CleanRun steps p := by
  induction steps generalizing p with
  | nil => trivial
  | cons step rest ih =>
    have clean := serve_words words inv step.1 step.2
    exact ⟨clean, ih (serve_clean inv clean).1⟩

structure LastBytes (free : Nat) (p : Pool) (b : PoolBlock) : Prop where
  blocks : p.blocks = [b]
  current : p.current = 0
  max : 1 ≤ p.max
  room : b.dLast + free = b.dEnd
  bound : b.dEnd ≤ 2 ^ 63

def fill (heap : Heap) (free : Nat) : List (Heap × Request) :=
  List.replicate free (heap, .pnalloc 1) ++ [(heap, .palloc 1)]

theorem pnalloc_byte {free : Nat} {p : Pool} {b : PoolBlock} (h : LastBytes (free + 1) p b)
    (heap : Heap) : LastBytes free ((Request.pnalloc 1).serve heap p).2
      { b with dLast := b.dLast + 1 } := by
  obtain ⟨blocks, current, max, room, bound⟩ := h
  have distance : sizeDiff b.dEnd b.dLast = free + 1 := by
    rw [sizeDiff_of_le (by omega) (by omega)]
    omega
  have served : ((Request.pnalloc 1).serve heap p).2 =
      { p with blocks := [{ b with dLast := b.dLast + 1 }] } := by
    simp [Request.serve, pnalloc, max, pallocSmall, blocks, current, carve, distance]
  rw [served]
  exact ⟨rfl, current, max, by simp only; omega, bound⟩

theorem fill_not_clean {free : Nat} {p : Pool} {b : PoolBlock} (h : LastBytes free p b)
    (odd : ¬ 8 ∣ b.dEnd) (heap : Heap) : ¬ CleanRun (fill heap free) p := by
  induction free generalizing p b with
  | zero =>
    obtain ⟨blocks, current, max, room, bound⟩ := h
    have past : b.dEnd < alignPtr b.dLast := by
      rw [alignPtr_eq (by omega)]
      omega
    have call : (Request.palloc 1).smallCall heap p = some (true, 1) := if_pos max
    intro clean
    have clean := clean.1
    simp [Request.clean, call, blocks, current, overshoots, past] at clean
  | succ free ih =>
    intro clean
    exact ih (pnalloc_byte h heap) odd clean.2

theorem createPool_lastBytes {size : Nat} {heap : Heap} {p : Pool} (large : sizeofPool < size)
    (created : createPool size heap = some p) :
    ∃ b, LastBytes (size - sizeofPool) p b ∧ (8 ∣ b.dEnd ↔ 8 ∣ size) := by
  obtain ⟨r, rfl⟩ := createPool_eq large.le created
  have aligned := r.aligned
  have some_room : 1 ≤ min (size - sizeofPool) maxAllocFromPool := by
    simp only [maxAllocFromPool]
    omega
  have whole : r.address + sizeofPool + (size - sizeofPool) = r.address + size := by omega
  have words : 8 ∣ r.address + size ↔ 8 ∣ size := by omega
  exact ⟨_, ⟨rfl, rfl, some_room, whole, r.bound⟩, words⟩

/-- The small path stays inside the blocks in exactly the runs whose aligned requests never
round `d.last` past `d.end`; all runs are such exactly when the pool's size is a multiple of
the word. -/
theorem small_path_stays_inside {size : Nat} {heap : Heap} {p : Pool} (large : sizeofPool < size)
    (created : createPool size heap = some p) :
    (∀ steps, SafeRun steps p ↔ CleanRun steps p) ∧ ((∀ steps, SafeRun steps p) ↔ 8 ∣ size) := by
  have inv := createPool_invariant large.le created
  refine ⟨fun steps => run_safe_iff_clean steps inv, ?_, ?_⟩
  · intro safe
    by_contra odd
    obtain ⟨b, last, words⟩ := createPool_lastBytes large created
    apply fill_not_clean last (words.not.mpr odd) heap
    exact (run_safe_iff_clean _ inv).mp (safe _)
  · intro words steps
    exact (run_safe_iff_clean steps inv).mpr (run_words words steps inv)

def fixedHeap : Heap where
  memalign size := if bound : 65536 + size ≤ 2 ^ 63 then some ⟨65536, rfl, bound⟩ else none
  alloc _ := some 131072

def requestPool : Pool := ⟨[⟨65536, 65600, 67554, 0⟩], 1954, 0, []⟩

theorem small_path_stays_inside_request_pool :
    (∀ steps, SafeRun steps requestPool ↔ CleanRun steps requestPool) ∧
      ((∀ steps, SafeRun steps requestPool) ↔ 8 ∣ 2018) :=
  @small_path_stays_inside 2018 fixedHeap requestPool (by decide) (by decide)

/-- Filling the request pool and asking for an aligned byte yields memory beyond its end. -/
theorem request_pool_overruns :
    createPool 2018 fixedHeap = some requestPool ∧
      ((Request.palloc 1).serve fixedHeap
        ((Request.pnalloc 1954).serve fixedHeap requestPool).2).1 = some 67560 ∧
      ¬ SafeRun [(fixedHeap, .pnalloc 1954), (fixedHeap, .palloc 1)] requestPool := by
  refine ⟨by decide, by decide, fun safe => ?_⟩
  have kept := safe.2.1.2 ⟨65536, 67561, 67554, 0⟩ (by decide)
  contradiction

end Ngx.Palloc
