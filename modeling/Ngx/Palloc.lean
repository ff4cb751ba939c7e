import Ngx.Alignment
import Mathlib.Data.List.Basic

/-! Memory pools. Addresses are 64-bit words written as naturals; a pointer difference cast
to `size_t` wraps. A pool is its chain of blocks with `current` an index into it; what the
system allocator answers is an input of every operation. -/
namespace Ngx.Palloc

/-- `sizeof(ngx_pool_data_t)`, `sizeof(ngx_pool_t)`, `sizeof(ngx_pool_large_t)`. -/
def sizeofPoolData : Nat := 32
def sizeofPool : Nat := 64
def sizeofPoolLarge : Nat := 16

def maxAllocFromPool : Nat := 4096

def alignPtr (p : Nat) : Nat := Alignment.roundUp 64 3 p

/-- `(size_t) (a - b)`. -/
def sizeDiff (a b : Nat) : Nat := (a + 2 ^ 64 - b) % 2 ^ 64

structure PoolBlock where
  address : Nat
  dLast : Nat
  dEnd : Nat
  dFailed : Nat
  deriving DecidableEq, Repr

/-- `ngx_pool_large_t` with the address of the record itself. -/
structure PoolLarge where
  address : Nat
  alloc : Option Nat
  deriving DecidableEq, Repr

structure Pool where
  blocks : List PoolBlock
  max : Nat
  current : Nat
  large : List PoolLarge
  deriving DecidableEq, Repr

/-- A region from `memalign(NGX_POOL_ALIGNMENT, size)`: aligned, and in the user half of
the address space. -/
structure Region (size : Nat) where
  address : Nat
  aligned : address % 16 = 0
  bound : address + size ≤ 2 ^ 63

/-- The system allocator's answers to one operation; `none` is a null pointer. -/
structure Heap where
  memalign : (size : Nat) → Option (Region size)
  alloc : (size : Nat) → Option Nat

def createPool (size : Nat) (heap : Heap) : Option Pool :=
  match heap.memalign size with
  | none => none
  | some r =>
    let room := sizeDiff size sizeofPool
    some {
      blocks := [⟨r.address, r.address + sizeofPool, r.address + size, 0⟩]
      max := if room < maxAllocFromPool then room else maxAllocFromPool
      current := 0
      large := [] }

/-- The block loop of `ngx_palloc_small`, from `pool->current` on: the pointer handed out
and the chain after it, or nothing when no block passes the space check. -/
def carve (align : Bool) (size : Nat) : List PoolBlock → Option (Nat × List PoolBlock)
  | [] => none
  | b :: rest =>
    let m := if align then alignPtr b.dLast else b.dLast
    if size ≤ sizeDiff b.dEnd m then some (m, { b with dLast := m + size } :: rest)
    else
      match carve align size rest with
      | none => none
      | some (m, rest) => some (m, b :: rest)

/-- The `failed` loop of `ngx_palloc_block`, standing on the `i`-th block of the chain. -/
def bumpFailed : (i current : Nat) → List PoolBlock → List PoolBlock × Nat
  | i, current, b :: next :: rest =>
    let after := bumpFailed (i + 1) (if 4 < b.dFailed then i + 1 else current) (next :: rest)
    ({ b with dFailed := b.dFailed + 1 } :: after.1, after.2)
  | _, current, blocks => (blocks, current)

/-- `(size_t) (pool->d.end - (u_char *) pool)`; the pool is the first block. -/
def Pool.blockSize (p : Pool) : Nat :=
  match p.blocks with
  | [] => 0
  | b :: _ => sizeDiff b.dEnd b.address

def pallocBlock (size : Nat) (heap : Heap) (p : Pool) : Option Nat × Pool :=
  match heap.memalign p.blockSize with
  | none => (none, p)
  | some r =>
    let m := alignPtr (r.address + sizeofPoolData)
    let bumped := bumpFailed p.current p.current (p.blocks.drop p.current)
    let new := ⟨r.address, m + size, r.address + p.blockSize, 0⟩
    (some m, { p with
      blocks := p.blocks.take p.current ++ bumped.1 ++ [new]
      current := bumped.2 })

def pallocSmall (align : Bool) (size : Nat) (heap : Heap) (p : Pool) : Option Nat × Pool :=
  match carve align size (p.blocks.drop p.current) with
  | some (m, rest) => (some m, { p with blocks := p.blocks.take p.current ++ rest })
  | none => pallocBlock size heap p

/-- The search loop of `ngx_palloc_large` over the rest of the list, which is empty when `large` is
null: the records after one is reused. The source asks about `large`, not about `large->alloc`. -/
def searchLarge (a : Nat) : (n : Nat) → List PoolLarge → Option (List PoolLarge)
  | _, [] => none
  | n, l :: rest =>
    if l :: rest = [] then some ({ l with alloc := some a } :: rest)
    else if 3 < n then none
    else (searchLarge a (n + 1) rest).map (l :: ·)

def pallocLarge (size : Nat) (heap : Heap) (p : Pool) : Option Nat × Pool :=
  match heap.alloc size with
  | none => (none, p)
  | some a =>
    match searchLarge a 0 p.large with
    | some large => (some a, { p with large })
    | none =>
      match pallocSmall true sizeofPoolLarge heap p with
      | (none, p') => (none, p')
      | (some record, p') => (some a, { p' with large := ⟨record, some a⟩ :: p'.large })

theorem searchLarge_none (a : Nat) (large : List PoolLarge) :
    ∀ n, searchLarge a n large = none := by
  induction large with
  | nil => exact fun _ => rfl
  | cons l rest ih =>
    intro n
    rw [searchLarge, if_neg (List.cons_ne_nil l rest), ih, Option.map_none, ite_self]

/-- No record is ever reused; a new one is always taken from the small path. -/
theorem pallocLarge_eq (size : Nat) (heap : Heap) (p : Pool) :
    pallocLarge size heap p = match heap.alloc size with
      | none => (none, p)
      | some a =>
        match pallocSmall true sizeofPoolLarge heap p with
        | (none, p') => (none, p')
        | (some record, p') => (some a, { p' with large := ⟨record, some a⟩ :: p'.large }) := by
  rw [pallocLarge]
  cases heap.alloc size with
  | none => rfl
  | some a => simp only [searchLarge_none]

def palloc (size : Nat) (heap : Heap) (p : Pool) : Option Nat × Pool :=
  if size ≤ p.max then pallocSmall true size heap p else pallocLarge size heap p

def pnalloc (size : Nat) (heap : Heap) (p : Pool) : Option Nat × Pool :=
  if size ≤ p.max then pallocSmall false size heap p else pallocLarge size heap p

/-- The zeroing stays inside the block handed out. -/
def pcalloc (size : Nat) (heap : Heap) (p : Pool) : Option Nat × Pool := palloc size heap p

inductive PfreeResult where
  | ok | declined
  deriving DecidableEq, Repr

/-- The loop of `ngx_pfree`: the records after the first one with this pointer is cleared. A
null pointer compares equal to a cleared record. -/
def pfreeLarge (p : Option Nat) : List PoolLarge → Option (List PoolLarge)
  | [] => none
  | l :: rest =>
    if p = l.alloc then some ({ l with alloc := none } :: rest)
    else (pfreeLarge p rest).map (l :: ·)

def pfree (p : Option Nat) (pool : Pool) : PfreeResult × Pool :=
  match pfreeLarge p pool.large with
  | some large => (.ok, { pool with large })
  | none => (.declined, pool)

/-- Every block is rewound behind an `ngx_pool_t`, also the chained ones. -/
def resetPool (pool : Pool) : Pool :=
  { pool with
    blocks := pool.blocks.map fun p => { p with dLast := p.address + sizeofPool, dFailed := 0 }
    current := 0
    large := [] }

inductive Request where
  | palloc (size : Nat)
  | pcalloc (size : Nat)
  | pnalloc (size : Nat)
  deriving DecidableEq, Repr

def Request.size : Request → Nat
  | .palloc size | .pcalloc size | .pnalloc size => size

def Request.align : Request → Bool
  | .palloc _ | .pcalloc _ => true
  | .pnalloc _ => false

def Request.serve (heap : Heap) : Request → Pool → Option Nat × Pool
  | .palloc size => Palloc.palloc size heap
  | .pcalloc size => Palloc.pcalloc size heap
  | .pnalloc size => Palloc.pnalloc size heap

/-- The call of the small path a request makes, as its `align` and `size` arguments. -/
def Request.smallCall (heap : Heap) (p : Pool) (request : Request) : Option (Bool × Nat) :=
  if request.size ≤ p.max then
    some (request.align, request.size)
  else if (heap.alloc request.size).isSome then some (true, sizeofPoolLarge)
  else none

end Ngx.Palloc
