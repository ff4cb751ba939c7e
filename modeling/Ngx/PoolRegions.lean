import Ngx.PallocBounds
import Ngx.Spans

/-! What a pool has handed out, in any order of its calls. The blocks and the large regions
come from the system, which never returns memory that is still in use. -/
namespace Ngx.Palloc

open Spans

structure Grant where
  request : Request
  address : Nat
  deriving DecidableEq, Repr

def Grant.span (g : Grant) : Span Nat := ⟨g.address, g.address + g.request.size⟩

/-- A pool with the requests since its last reset that it served from its blocks, and those
that it served from the system and has not freed. -/
structure Usage where
  pool : Pool
  small : List Grant
  large : List Grant

def Usage.grants (u : Usage) : List Grant := u.small ++ u.large

inductive Call where
  | request (request : Request)
  | pfree (p : Option Nat)
  | reset
  deriving DecidableEq, Repr

def Usage.serve (heap : Heap) (request : Request) (u : Usage) : Usage :=
  match request.serve heap u.pool with
  | (none, pool) => { u with pool }
  | (some m, pool) =>
    if request.size ≤ u.pool.max then { u with pool, small := ⟨request, m⟩ :: u.small }
    else { u with pool, large := ⟨request, m⟩ :: u.large }

def Usage.pfree (p : Option Nat) (u : Usage) : Usage :=
  match Palloc.pfree p u.pool with
  | (.ok, pool) => { u with pool, large := u.large.filter fun g => p ≠ some g.address }
  | (.declined, pool) => { u with pool }

def Usage.step (heap : Heap) : Call → Usage → Usage
  | .request request, u => u.serve heap request
  | .pfree p, u => u.pfree p
  | .reset, u => ⟨resetPool u.pool, [], []⟩

def Usage.run : List (Heap × Call) → Usage → Usage
  | [], u => u
  | (heap, call) :: rest, u => (u.step heap call).run rest

def PoolBlock.bump (b : PoolBlock) : Bump Nat := ⟨b.address, b.dLast, b.dEnd⟩

def Pool.bumps (p : Pool) : List (Bump Nat) := p.blocks.map PoolBlock.bump

def Pool.extents (p : Pool) : List (Span Nat) := p.bumps.map Bump.extent

def Usage.inUse (u : Usage) : List (Span Nat) := u.pool.extents ++ u.large.map Grant.span

def smallTakes (align : Bool) (size : Nat) (heap : Heap) (p : Pool) : List (Span Nat) :=
  match carve align size (p.blocks.drop p.current) with
  | some _ => []
  | none => (heap.memalign p.blockSize).toList.map fun r => ⟨r.address, r.address + p.blockSize⟩

def Request.takes (heap : Heap) (p : Pool) (request : Request) : List (Span Nat) :=
  if request.size ≤ p.max then smallTakes request.align request.size heap p
  else
    match heap.alloc request.size with
    | none => []
    | some a => ⟨a, a + request.size⟩ :: smallTakes true sizeofPoolLarge heap p

/-- What the system returns during a call is apart from all that is in use, and what it returns
for a large request is aligned as any allocation is. -/
def Call.Orderly (heap : Heap) (u : Usage) : Call → Prop
  | .request r =>
    (r.takes heap u.pool ++ u.inUse).Pairwise Span.Apart ∧
      (u.pool.max < r.size → ∀ a, heap.alloc r.size = some a → a % 8 = 0)
  | .pfree _ | .reset => True

def OrderlyRun : List (Heap × Call) → Usage → Prop
  | [], _ => True
  | (heap, call) :: rest, u => call.Orderly heap u ∧ OrderlyRun rest (u.step heap call)

/-- The headers: an `ngx_pool_t` in the pool's own block, an `ngx_pool_data_t` in the others. -/
def headers : List PoolBlock → List (Span Nat)
  | [] => []
  | first :: chain =>
    ⟨first.address, first.address + sizeofPool⟩ ::
      chain.map fun b => ⟨b.address, b.address + sizeofPoolData⟩

def Pool.records (p : Pool) : List (Span Nat) :=
  p.large.map fun l => ⟨l.address, l.address + sizeofPoolLarge⟩

/-- The headers, the `ngx_pool_large_t` records and the regions handed out are pairwise apart;
each region handed out has its whole size inside memory of the system that is in use, and is
aligned if it was asked for with alignment. -/
structure Usage.Separate (u : Usage) : Prop where
  apart : (headers u.pool.blocks ++ u.pool.records ++ u.grants.map Grant.span).Pairwise Span.Apart
  room : ∀ g ∈ u.grants, ∃ s ∈ u.inUse, g.span.Within s
  aligned : ∀ g ∈ u.grants, g.request.align = true → g.address % 8 = 0

inductive SmallPath (total size : Nat) (align : Bool) (p : Pool) :
    Option Nat × Pool → List (Span Nat) → Prop where
  | carved {front back : List PoolBlock} {b : PoolBlock} {m : Nat}
      (blocks : p.blocks = front ++ b :: back) (after : b.dLast ≤ m) (fits : m + size ≤ b.dEnd)
      (aligned : align = true → m % 8 = 0) :
      SmallPath total size align p
        (some m, { p with blocks := front ++ { b with dLast := m + size } :: back }) []
  | refused : SmallPath total size align p (none, p) []
  | added {base : Nat} {pool : Pool} (blocks : pool.blocks.map PoolBlock.space =
        p.blocks.map PoolBlock.space ++ [(base, base + sizeofPoolData + size, base + total)])
      (large : pool.large = p.large) (aligned : base % 16 = 0) :
      SmallPath total size align p (some (base + sizeofPoolData), pool) [⟨base, base + total⟩]

theorem carve_aligned {total size m : Nat} {blocks after : List PoolBlock}
    (sound : ∀ b ∈ blocks, Sound total sizeofPoolData b)
    (carved : carve true size blocks = some (m, after)) : m % 8 = 0 := by
  induction blocks generalizing after with
  | nil => simp [carve] at carved
  | cons b rest ih =>
    have here := sound b List.mem_cons_self
    have stop := here.stop
    have bound := here.bound
    rw [carve] at carved
    simp only [if_true] at carved
    split at carved
    next =>
      obtain ⟨rfl, -⟩ := Prod.mk.inj (Option.some.inj carved)
      rw [alignPtr_eq (by omega)]
      omega
    next =>
      cases found : carve true size rest with
      | none => simp [found] at carved
      | some result =>
        obtain ⟨m', after'⟩ := result
        rw [found] at carved
        obtain ⟨rfl, -⟩ := Prod.mk.inj (Option.some.inj carved)
        exact ih (fun x member => sound x (List.mem_cons_of_mem _ member)) found

theorem pallocSmall_path {total : Nat} {p : Pool} (words : 8 ∣ total)
    (inv : Invariant total p) (align : Bool) (size : Nat) (heap : Heap) :
    SmallPath total size align p (pallocSmall align size heap p) (smallTakes align size heap p) := by
  have sound : ∀ b ∈ p.blocks.drop p.current, Sound total sizeofPoolData b :=
    fun b member => inv.chain.mem (List.mem_of_mem_drop member)
  rw [pallocSmall, smallTakes]
  cases found : carve align size (p.blocks.drop p.current) with
  | some result =>
    obtain ⟨m, rest⟩ := result
    obtain ⟨front, b, back, before, rfl, after, fits⟩ :=
      carve_spec sound (fun _ => overshoots_false words sound) found
    have blocks : p.blocks = (p.blocks.take p.current ++ front) ++ b :: back := by
      rw [List.append_assoc, ← before, List.take_append_drop]
    have aligned : align = true → m % 8 = 0 := by
      rintro rfl
      exact carve_aligned sound found
    have path : SmallPath total size align p _ _ := .carved blocks after fits aligned
    rw [List.append_assoc] at path
    exact path
  | none =>
    simp only
    rw [pallocBlock]
    cases heap.memalign p.blockSize with
    | none => exact .refused
    | some r =>
      have whole := inv.blockSize
      simp only [alignPtr_header r, whole, Option.toList_some, List.map_cons, List.map_nil]
      refine .added ?_ rfl r.aligned
      rw [List.map_append, List.map_append, bumpFailed_space, ← List.map_append,
        List.take_append_drop]
      rfl

theorem bumps_of_space {xs ys : List PoolBlock} {base last stop : Nat}
    (space : xs.map PoolBlock.space = ys.map PoolBlock.space ++ [(base, last, stop)]) :
    xs.map PoolBlock.bump = ys.map PoolBlock.bump ++ [⟨base, last, stop⟩] := by
  have read (blocks : List PoolBlock) : blocks.map PoolBlock.bump =
      (blocks.map PoolBlock.space).map fun s => ⟨s.1, s.2.1, s.2.2⟩ := by
    rw [List.map_map]
    rfl
  rw [read, space, List.map_append, ← read]
  rfl

theorem headers_of_space {xs ys : List PoolBlock} {base last stop : Nat} (some_block : ys ≠ [])
    (space : xs.map PoolBlock.space = ys.map PoolBlock.space ++ [(base, last, stop)]) :
    headers xs = headers ys ++ [⟨base, base + sizeofPoolData⟩] := by
  cases ys with
  | nil => exact absurd rfl some_block
  | cons y ys =>
    cases xs with
    | nil => cases space
    | cons x xs =>
      have read (blocks : List PoolBlock) :
          (blocks.map fun b => (⟨b.address, b.address + sizeofPoolData⟩ : Span Nat)) =
            (blocks.map PoolBlock.space).map fun s => ⟨s.1, s.1 + sizeofPoolData⟩ := by
        rw [List.map_map]
        rfl
      obtain ⟨first, chain⟩ := List.cons.inj space
      have address : x.address = y.address := congrArg Prod.fst first
      have chain : xs.map PoolBlock.space = ys.map PoolBlock.space ++ [(base, last, stop)] := chain
      rw [headers, headers, address, read, chain, List.map_append, ← read]
      rfl

theorem headers_carved (front back : List PoolBlock) (b : PoolBlock) (last : Nat) :
    headers (front ++ { b with dLast := last } :: back) = headers (front ++ b :: back) := by
  cases front with
  | nil => rfl
  | cons first front => simp [headers]

section SmallPath

variable {total size : Nat} {align : Bool} {p : Pool} {result : Option Nat × Pool}
  {takes kept others : List (Span Nat)}

theorem SmallPath.of_none (path : SmallPath total size align p result takes)
    (refused : result.1 = none) : result.2 = p := by
  cases path with
  | carved => cases refused
  | refused => rfl
  | added => cases refused

theorem SmallPath.takes_nil (path : SmallPath total size align p result takes)
    (refused : result.1 = none) : takes = [] := by
  cases path with
  | carved => rfl
  | refused => rfl
  | added => cases refused

theorem SmallPath.large (path : SmallPath total size align p result takes) :
    result.2.large = p.large := by
  cases path with
  | carved => rfl
  | refused => rfl
  | added _ large _ => exact large

theorem SmallPath.records (path : SmallPath total size align p result takes) :
    result.2.records = p.records := by
  rw [Pool.records, Pool.records, path.large]

theorem SmallPath.extents (path : SmallPath total size align p result takes) :
    result.2.extents = p.extents ++ takes := by
  cases path with
  | carved blocks =>
    rw [List.append_nil, Pool.extents, Pool.extents, Pool.bumps, Pool.bumps, blocks]
    simp [PoolBlock.bump, Bump.extent]
  | refused => rw [List.append_nil]
  | added blocks =>
    rw [Pool.extents, Pool.extents, Pool.bumps, Pool.bumps, bumps_of_space blocks,
      List.map_append]
    rfl

theorem SmallPath.inUse (path : SmallPath total size align p result takes) :
    (result.2.extents ++ others).Perm (takes ++ (p.extents ++ others)) := by
  rw [path.extents, ← List.append_assoc]
  exact List.perm_append_comm.append_right _

/-- What the small path hands out, and the header of a block it adds, become pieces of the
blocks beside those that were there. -/
theorem SmallPath.packed (path : SmallPath total size align p result takes)
    (inv : Invariant total p) (small : size + sizeofPoolData ≤ total)
    (packed : Packed p.bumps (headers p.blocks ++ kept))
    (fresh : (takes ++ (p.extents ++ others)).Pairwise Span.Apart) {m : Nat}
    (given : result.1 = some m) :
    Packed result.2.bumps (headers result.2.blocks ++ ⟨m, m + size⟩ :: kept) := by
  cases path with
  | refused => cases given
  | @carved front back b _ blocks after fits _ =>
    cases given
    rw [Pool.bumps, blocks, List.map_append, List.map_cons] at packed
    have carved := packed.carve (x := ⟨m, m + size⟩) after (Nat.le_add_right _ _) fits
    have piece := carved.perm List.perm_middle
    rw [← blocks] at piece
    simpa [Pool.bumps, headers_carved, ← blocks, PoolBlock.bump] using piece
  | @added base pool blocks _ _ =>
    cases given
    have some_block : p.blocks ≠ [] := by
      intro none
      have chain := inv.chain
      rw [none] at chain
      exact chain
    have apart (s : Span Nat) (member : s ∈ p.extents) : s.Apart ⟨base, base + total⟩ :=
      ((List.pairwise_append.mp fresh).2.2 _ List.mem_cons_self s
        (List.mem_append_left _ member)).symm
    have block := packed.snoc (b := ⟨base, base, base + total⟩)
      ⟨le_refl _, Nat.le_add_right _ _⟩ apart
    have header := block.carve (x := ⟨base, base + sizeofPoolData⟩) (le_refl _)
      (Nat.le_add_right _ _) (by simp only; omega)
    have piece := header.carve
      (x := ⟨base + sizeofPoolData, base + sizeofPoolData + size⟩) (le_refl _)
      (Nat.le_add_right _ _) (by simp only; omega)
    rw [Pool.bumps, bumps_of_space blocks, headers_of_space some_block blocks]
    refine piece.perm ?_
    rw [List.append_assoc]
    exact (List.perm_middle.trans (List.perm_middle.cons _)).trans (List.Perm.swap _ _ _)

theorem SmallPath.aligned (path : SmallPath total size align p result takes)
    (asked : align = true) {m : Nat} (given : result.1 = some m) : m % 8 = 0 := by
  cases path with
  | carved _ _ _ aligned =>
    cases given
    exact aligned asked
  | refused => cases given
  | added _ _ aligned =>
    cases given
    simp only [sizeofPoolData]
    omega

end SmallPath

/-- The blocks pack the headers, the records and what they handed out, and all the system's
memory in use is apart. -/
structure Usage.Kept (total : Nat) (u : Usage) : Prop where
  pool : Invariant total u.pool
  packed : Packed u.pool.bumps
    (headers u.pool.blocks ++ (u.pool.records ++ u.small.map Grant.span))
  inUse : u.inUse.Pairwise Span.Apart
  aligned : ∀ g ∈ u.grants, g.request.align = true → g.address % 8 = 0

theorem Usage.Kept.separate {total : Nat} {u : Usage} (h : u.Kept total) : u.Separate := by
  constructor
  · have pieces := h.packed.append h.inUse
    rw [Usage.grants, List.map_append]
    simpa only [List.append_assoc] using pieces
  · intro g member
    rcases List.mem_append.mp member with small | large
    · have piece : g.span ∈ headers u.pool.blocks ++ (u.pool.records ++ u.small.map Grant.span) :=
        List.mem_append_right _ (List.mem_append_right _ (List.mem_map_of_mem small))
      obtain ⟨s, extent, inside⟩ := h.packed.within_extent piece
      exact ⟨s, List.mem_append_left _ extent, inside⟩
    · exact ⟨g.span, List.mem_append_right _ (List.mem_map_of_mem large), le_refl _, le_refl _⟩
  · exact h.aligned

theorem Usage.Kept.serve_small {total : Nat} {u : Usage} (h : u.Kept total) (words : 8 ∣ total)
    {heap : Heap} {request : Request} (fits : request.size ≤ u.pool.max)
    (orderly : (Call.request request).Orderly heap u) : (u.serve heap request).Kept total := by
  have call : request.smallCall heap u.pool = some (request.align, request.size) := if_pos fits
  have served := Palloc.serve_small fits call
  have pool := (serve_clean h.pool (serve_words words h.pool heap request)).1
  have path := pallocSmall_path words h.pool request.align request.size heap
  have fresh := orderly.1
  rw [Request.takes, if_pos fits] at fresh
  rw [Usage.serve, served]
  rw [served] at pool
  generalize pallocSmall request.align request.size heap u.pool = result at *
  generalize smallTakes request.align request.size heap u.pool = takes at *
  obtain ⟨answer, next⟩ := result
  cases answer with
  | none =>
    obtain rfl : next = u.pool := path.of_none rfl
    exact h
  | some m =>
    simp only [if_pos fits]
    have records : next.records = u.pool.records := path.records
    have packed := path.packed h.pool (smallCall_bound h.pool call).1 h.packed fresh rfl
    refine ⟨pool, packed.perm ?_, ?_, ?_⟩
    · simp only [records]
      exact List.Perm.append_left _ List.perm_middle
    · exact (path.inUse.pairwise_iff Span.Apart.symm).mpr fresh
    · intro g member asked
      rcases List.mem_cons.mp member with rfl | member
      · exact path.aligned asked rfl
      · exact h.aligned g member asked

theorem Usage.Kept.serve_large {total : Nat} {u : Usage} (h : u.Kept total) (words : 8 ∣ total)
    {heap : Heap} {request : Request} (large : ¬ request.size ≤ u.pool.max)
    (orderly : (Call.request request).Orderly heap u) : (u.serve heap request).Kept total := by
  have served : request.serve heap u.pool = pallocLarge request.size heap u.pool :=
    Palloc.serve_large large
  have pool := (serve_clean h.pool (serve_words words h.pool heap request)).1
  have path := pallocSmall_path words h.pool true sizeofPoolLarge heap
  have bound := h.pool.large
  obtain ⟨fresh, aligned⟩ := orderly
  rw [Request.takes, if_neg large] at fresh
  rw [Usage.serve, served]
  rw [served] at pool
  rw [pallocLarge_eq] at *
  cases given : heap.alloc request.size with
  | none => exact h
  | some a =>
    rw [given] at pool fresh
    simp only [List.cons_append] at pool fresh
    simp only
    generalize pallocSmall true sizeofPoolLarge heap u.pool = result at *
    generalize smallTakes true sizeofPoolLarge heap u.pool = takes at *
    obtain ⟨answer, next⟩ := result
    cases answer with
    | none =>
      obtain rfl : next = u.pool := path.of_none rfl
      exact h
    | some record =>
      -- the record is one more piece of the blocks, the region one more in use beside them
      simp only [if_neg large]
      have records : next.records = u.pool.records := path.records
      have small : sizeofPoolLarge + sizeofPoolData ≤ total := by
        simp only [sizeofPool, sizeofPoolLarge, sizeofPoolData] at *
        omega
      have packed := path.packed h.pool small h.packed (List.pairwise_cons.mp fresh).2 rfl
      refine ⟨pool, ?_, ?_, ?_⟩
      · simp only at packed
        rw [← records] at packed
        exact packed
      · have use : (next.extents ++ u.large.map Grant.span).Perm (takes ++ u.inUse) := path.inUse
        exact ((List.perm_middle.trans (use.cons _)).pairwise_iff Span.Apart.symm).mpr fresh
      · intro g member asked
        rcases List.mem_append.mp member with small | member
        · exact h.aligned g (List.mem_append_left _ small) asked
        rcases List.mem_cons.mp member with rfl | member
        · exact aligned (Nat.lt_of_not_le large) a given
        · exact h.aligned g (List.mem_append_right _ member) asked

theorem pfreeLarge_records {p : Option Nat} {large after : List PoolLarge}
    (found : pfreeLarge p large = some after) :
    (after.map fun l => (⟨l.address, l.address + sizeofPoolLarge⟩ : Span Nat)) =
      large.map fun l => ⟨l.address, l.address + sizeofPoolLarge⟩ := by
  induction large generalizing after with
  | nil => cases found
  | cons l rest ih =>
    rw [pfreeLarge] at found
    split at found
    next =>
      cases found
      rfl
    next =>
      obtain ⟨later, behind, rfl⟩ := Option.map_eq_some_iff.mp found
      rw [List.map_cons, List.map_cons, ih behind]

theorem Usage.Kept.pfree {total : Nat} {u : Usage} (h : u.Kept total) (p : Option Nat) :
    (u.pfree p).Kept total := by
  rw [Usage.pfree, Palloc.pfree]
  cases found : pfreeLarge p u.pool.large with
  | none => exact h
  | some large =>
    have records : ({ u.pool with large } : Pool).records = u.pool.records :=
      pfreeLarge_records found
    refine ⟨⟨h.pool.chain, h.pool.large, h.pool.max, h.pool.limit⟩, ?_, ?_, ?_⟩
    · simp only [records]
      exact h.packed
    · exact h.inUse.sublist (List.Sublist.append_left (List.filter_sublist.map _) _)
    · intro g member asked
      rcases List.mem_append.mp member with small | large
      · exact h.aligned g (List.mem_append_left _ small) asked
      · exact h.aligned g (List.mem_append_right _ (List.mem_of_mem_filter large)) asked

theorem resetPool_invariant {total : Nat} {p : Pool} (inv : Invariant total p) :
    Invariant total (resetPool p) := by
  have large := inv.large
  have rewound (header : Nat) (le : header ≤ sizeofPool) (b : PoolBlock) (h : Sound total header b) :
      Sound total header { b with dLast := b.address + sizeofPool, dFailed := 0 } :=
    ⟨Nat.add_le_add_left le _, by have := h.extent; simp only; omega, h.extent, h.aligned, h.bound⟩
  refine ⟨?_, inv.large, inv.max, inv.limit⟩
  have chain := inv.chain
  rw [resetPool]
  cases h : p.blocks with
  | nil =>
    rw [h] at chain
    exact chain.elim
  | cons first rest =>
    rw [h] at chain
    refine ⟨rewound _ (le_refl _) first chain.1, fun b member => ?_⟩
    obtain ⟨c, listed, rfl⟩ := List.mem_map.mp member
    exact rewound _ (by decide) c (chain.2 c listed)

theorem headers_reset (p : Pool) :
    List.Forall₂ Span.Within (headers (resetPool p).blocks)
      ((resetPool p).bumps.map Bump.used) := by
  have chained (chain : List PoolBlock) : List.Forall₂ Span.Within
      (chain.map fun b => ⟨b.address, b.address + sizeofPoolData⟩)
      (chain.map fun b => (⟨b.address, b.address + sizeofPool⟩ : Span Nat)) := by
    rw [List.forall₂_map_left_iff, List.forall₂_map_right_iff, List.forall₂_same]
    intro b _
    exact ⟨le_refl _, Nat.add_le_add_left (by decide) _⟩
  rw [Pool.bumps, resetPool]
  cases p.blocks with
  | nil => exact .nil
  | cons first chain =>
    simp only [headers, List.map_cons, List.map_map]
    exact .cons ⟨le_refl _, le_refl _⟩ (chained chain)

theorem Usage.Kept.reset {total : Nat} {u : Usage} (h : u.Kept total) :
    Usage.Kept total ⟨resetPool u.pool, [], []⟩ := by
  have pool := resetPool_invariant h.pool
  have extents : (resetPool u.pool).extents = u.pool.extents := by
    simp [Pool.extents, Pool.bumps, resetPool, PoolBlock.bump, Bump.extent]
  refine ⟨pool, ?_, ?_, by simp [Usage.grants]⟩
  · refine h.packed.rewind extents ?_ ?_
    · intro b member
      obtain ⟨c, listed, rfl⟩ := List.mem_map.mp member
      have sound := pool.chain.mem listed
      exact ⟨(Nat.le_add_right _ _).trans sound.start, sound.stop⟩
    · rw [Pool.records, resetPool, List.map_nil, List.map_nil, List.append_nil, List.append_nil]
      exact headers_reset u.pool
  · rw [Usage.inUse, extents]
    exact h.inUse.sublist (List.Sublist.append_left (List.nil_sublist _) _)

theorem Usage.Kept.step {total : Nat} {u : Usage} (h : u.Kept total) (words : 8 ∣ total)
    {heap : Heap} {call : Call} (orderly : call.Orderly heap u) : (u.step heap call).Kept total := by
  cases call with
  | request request =>
    by_cases fits : request.size ≤ u.pool.max
    · exact h.serve_small words fits orderly
    · exact h.serve_large words fits orderly
  | pfree p => exact h.pfree p
  | reset => exact h.reset

theorem Usage.Kept.run {total : Nat} (words : 8 ∣ total) (steps : List (Heap × Call)) {u : Usage}
    (h : u.Kept total) (orderly : OrderlyRun steps u) : (Usage.run steps u).Kept total := by
  induction steps generalizing u with
  | nil => exact h
  | cons step rest ih =>
    obtain ⟨heap, call⟩ := step
    exact ih (h.step words orderly.1) orderly.2

theorem createPool_kept {size : Nat} {heap : Heap} {p : Pool} (large : sizeofPool ≤ size)
    (created : createPool size heap = some p) : Usage.Kept size ⟨p, [], []⟩ := by
  have inv := createPool_invariant large created
  obtain ⟨r, rfl⟩ := createPool_eq large created
  refine ⟨inv, ⟨?_, ?_, ?_, ?_⟩, ?_, by simp [Usage.grants]⟩
  · intro b member
    rw [List.mem_singleton.mp member]
    exact ⟨Nat.le_add_right _ _, by simp only [PoolBlock.bump]; omega⟩
  · exact List.pairwise_singleton _ _
  · intro x member
    rw [List.mem_singleton.mp member]
    exact ⟨_, List.mem_cons_self, le_refl _, le_refl _⟩
  · exact List.pairwise_singleton _ _
  · exact List.pairwise_singleton _ _

/-- The records of the pool are those of the large regions in use, and of cleared ones. -/
structure Usage.Listed (u : Usage) : Prop where
  records : u.pool.large.filterMap PoolLarge.alloc = u.large.map Grant.address
  proper : ∀ g ∈ u.large, 0 < g.request.size

theorem pfreeLarge_some (a : Nat) (large : List PoolLarge) :
    (pfreeLarge (some a) large).isSome ↔ a ∈ large.filterMap PoolLarge.alloc := by
  induction large with
  | nil => simp [pfreeLarge]
  | cons l rest ih =>
    rw [pfreeLarge, List.filterMap_cons]
    by_cases here : some a = l.alloc
    · simp [← here]
    · rw [if_neg here, Option.isSome_map, ih]
      cases alloc : l.alloc with
      | none => rfl
      | some x =>
        have other : a ≠ x := fun eq => here (by rw [eq, alloc])
        simp [other]

theorem pfreeLarge_erase {p : Option Nat} {large after : List PoolLarge}
    (distinct : (large.filterMap PoolLarge.alloc).Nodup) (found : pfreeLarge p large = some after) :
    after.filterMap PoolLarge.alloc =
      (large.filterMap PoolLarge.alloc).filter fun a => p ≠ some a := by
  induction large generalizing after with
  | nil => cases found
  | cons l rest ih =>
    rw [pfreeLarge] at found
    rw [List.filterMap_cons] at distinct ⊢
    by_cases here : p = l.alloc
    · rw [if_pos here] at found
      cases found
      rw [here, List.filterMap_cons]
      cases alloc : l.alloc with
      | none => simp
      | some x =>
        rw [alloc] at distinct
        obtain ⟨absent, _⟩ := List.nodup_cons.mp distinct
        have kept : ∀ y ∈ rest.filterMap PoolLarge.alloc, x ≠ y := by
          rintro y member rfl
          exact absent member
        simp only [Option.some.injEq, ne_eq, List.filter_cons, not_true_eq_false, decide_false]
        exact (List.filter_eq_self.mpr fun y member => decide_eq_true (kept y member)).symm
    · rw [if_neg here] at found
      obtain ⟨later, behind, rfl⟩ := Option.map_eq_some_iff.mp found
      rw [List.filterMap_cons]
      cases alloc : l.alloc with
      | none =>
        rw [alloc] at distinct
        exact ih distinct behind
      | some x =>
        rw [alloc] at distinct here
        simp only [ne_eq, List.filter_cons, here, not_false_eq_true, decide_true, if_true]
        rw [ih (List.nodup_cons.mp distinct).2 behind]

/-- Regions that are apart and not empty start at different addresses. -/
theorem Usage.Kept.distinct {total : Nat} {u : Usage} (h : u.Kept total) (listed : u.Listed) :
    (u.large.map Grant.address).Nodup := by
  have apart := (List.pairwise_append.mp h.inUse).2.1
  rw [List.Nodup, List.pairwise_map]
  rw [List.pairwise_map] at apart
  refine apart.imp_of_mem fun {a b} one other disjoint same => ?_
  have first := listed.proper a one
  have second := listed.proper b other
  simp only [Span.Apart, Grant.span] at disjoint
  omega

theorem Usage.Listed.of_large {u : Usage} {pool : Pool} (h : u.Listed)
    (same : pool.large = u.pool.large) (small : List Grant) :
    Usage.Listed ⟨pool, small, u.large⟩ := by
  refine ⟨?_, h.proper⟩
  simp only [same]
  exact h.records

theorem serve_listed {total : Nat} {u : Usage} (inv : Invariant total u.pool) (words : 8 ∣ total)
    (h : u.Listed) (heap : Heap) (request : Request) : (u.serve heap request).Listed := by
  rw [Usage.serve]
  by_cases fits : request.size ≤ u.pool.max
  · have call : request.smallCall heap u.pool = some (request.align, request.size) := if_pos fits
    have path := pallocSmall_path words inv request.align request.size heap
    rw [Palloc.serve_small fits call]
    generalize pallocSmall request.align request.size heap u.pool = result at *
    obtain ⟨answer, next⟩ := result
    have large : next.large = u.pool.large := path.large
    cases answer with
    | none => exact h.of_large large _
    | some m =>
      simp only [if_pos fits]
      exact h.of_large large _
  · have path := pallocSmall_path words inv true sizeofPoolLarge heap
    rw [Palloc.serve_large fits, pallocLarge_eq]
    cases heap.alloc request.size with
    | none => exact h
    | some a =>
      simp only
      generalize pallocSmall true sizeofPoolLarge heap u.pool = result at *
      obtain ⟨answer, next⟩ := result
      have large : next.large = u.pool.large := path.large
      cases answer with
      | none => exact h.of_large large _
      | some record =>
        simp only [if_neg fits]
        constructor
        · simp only [large, List.filterMap_cons, h.records]
          rfl
        · intro g member
          rcases List.mem_cons.mp member with rfl | member
          · exact Nat.zero_lt_of_lt (Nat.lt_of_not_le fits)
          · exact h.proper g member

theorem Usage.Kept.pfree_listed {total : Nat} {u : Usage} (h : u.Kept total) (listed : u.Listed)
    (p : Option Nat) : (u.pfree p).Listed := by
  rw [Usage.pfree, Palloc.pfree]
  cases found : pfreeLarge p u.pool.large with
  | none => exact listed
  | some after =>
    have distinct := h.distinct listed
    rw [← listed.records] at distinct
    constructor
    · simp only [pfreeLarge_erase distinct found, listed.records, List.filter_map]
      rfl
    · exact fun g member => listed.proper g (List.mem_of_mem_filter member)

theorem Usage.Kept.step_listed {total : Nat} {u : Usage} (h : u.Kept total) (listed : u.Listed)
    (words : 8 ∣ total) (heap : Heap) (call : Call) : (u.step heap call).Listed := by
  cases call with
  | request request => exact serve_listed h.pool words listed heap request
  | pfree p => exact h.pfree_listed listed p
  | reset => exact ⟨rfl, by simp [Usage.step]⟩

theorem Usage.Kept.run_listed {total : Nat} (words : 8 ∣ total) (steps : List (Heap × Call))
    {u : Usage} (h : u.Kept total) (listed : u.Listed) (orderly : OrderlyRun steps u) :
    (Usage.run steps u).Listed := by
  induction steps generalizing u with
  | nil => exact listed
  | cons step rest ih =>
    obtain ⟨heap, call⟩ := step
    exact ih (h.step words orderly.1) (h.step_listed listed words heap call) orderly.2

/-- Nothing is listed before the first call. -/
theorem createPool_listed {size : Nat} {heap : Heap} {p : Pool} (large : sizeofPool ≤ size)
    (created : createPool size heap = some p) : Usage.Listed ⟨p, [], []⟩ := by
  obtain ⟨r, rfl⟩ := createPool_eq large created
  exact ⟨rfl, by simp⟩

/-- `ngx_pfree` gives back exactly the large regions in use, and a reset gives back them all;
nothing is given back twice. -/
theorem pool_frees_in_use {size : Nat} {heap : Heap} {p : Pool} (words : 8 ∣ size)
    (large : sizeofPool < size) (created : createPool size heap = some p)
    {steps : List (Heap × Call)} (orderly : OrderlyRun steps ⟨p, [], []⟩) {u : Usage}
    (reached : Usage.run steps ⟨p, [], []⟩ = u) :
    (∀ a, (Palloc.pfree (some a) u.pool).1 = .ok ↔ ∃ g ∈ u.large, g.address = a) ∧
      u.pool.large.filterMap PoolLarge.alloc = u.large.map Grant.address ∧
      (u.large.map Grant.address).Nodup := by
  have start := createPool_kept large.le created
  have listed := createPool_listed large.le created
  have kept := start.run words steps orderly
  have listed := start.run_listed words steps listed orderly
  rw [reached] at kept listed
  refine ⟨fun a => ?_, listed.records, kept.distinct listed⟩
  have found := pfreeLarge_some a u.pool.large
  rw [listed.records, List.mem_map] at found
  rw [← found, Palloc.pfree]
  cases pfreeLarge (some a) u.pool.large <;> simp

/-- What a pool hands out never overlaps what it handed out before and still owes, nor its
own headers and records, in any run of its calls. -/
theorem pool_regions_separate {size : Nat} {heap : Heap} {p : Pool} (words : 8 ∣ size)
    (large : sizeofPool < size) (created : createPool size heap = some p)
    (steps : List (Heap × Call)) (orderly : OrderlyRun steps ⟨p, [], []⟩) :
    (Usage.run steps ⟨p, [], []⟩).Separate :=
  ((createPool_kept large.le created).run words steps orderly).separate

def answers (block large : Nat) : Heap where
  memalign size :=
    if h : block % 16 = 0 ∧ block + size ≤ 2 ^ 63 then some ⟨block, h.1, h.2⟩ else none
  alloc _ := some large

def smallPool : Pool := ⟨[⟨65536, 65600, 65792, 0⟩], 192, 0, []⟩

/-- A large region freed by a reset and one by `ngx_pfree`, its memory returned again each
time, and a second block. -/
def smallPoolSteps : List (Heap × Call) :=
  [(answers 0 131072, .request (.palloc 500)), (answers 0 0, .reset),
    (answers 0 0, .request (.pnalloc 3)), (answers 0 131072, .request (.palloc 500)),
    (answers 66048 0, .request (.pcalloc 180)), (answers 0 0, .pfree (some 131072)),
    (answers 0 131072, .request (.pnalloc 193)), (answers 0 0, .request (.palloc 20))]

theorem pool_regions_separate_small :
    (Usage.run smallPoolSteps ⟨smallPool, [], []⟩).Separate :=
  @pool_regions_separate 256 (answers 65536 0) smallPool (by decide) (by decide) (by decide)
    smallPoolSteps (by
      refine ⟨⟨by decide, ?_⟩, trivial, ⟨by decide, ?_⟩, ⟨by decide, ?_⟩, ⟨by decide, ?_⟩, trivial,
        ⟨by decide, ?_⟩, ⟨by decide, ?_⟩, trivial⟩ <;> (intro _ a eq; cases eq; decide))

example : (Usage.run smallPoolSteps ⟨smallPool, [], []⟩).grants =
    [⟨.palloc 20, 65640⟩, ⟨.pcalloc 180, 66080⟩, ⟨.pnalloc 3, 65600⟩, ⟨.pnalloc 193, 131072⟩] := by
  decide

end Ngx.Palloc
