import Ngx.PoolRegions
import Ngx.Lifetimes

/-! What a pool takes from the system, gives back and reads, from its creation to its end. The
records of the large regions are read in memory that the pool gives back itself. -/
namespace Ngx.Palloc

open Spans Lifetimes

def Pool.readHead (p : Pool) : List (Event Nat) :=
  (p.blocks.take 1).map fun b => .read ⟨b.address, b.address + sizeofPool⟩

def PoolBlock.readData (b : PoolBlock) : Event Nat := .read ⟨b.address, b.address + sizeofPoolData⟩

def PoolLarge.read (l : PoolLarge) : Event Nat := .read ⟨l.address, l.address + sizeofPoolLarge⟩

def createPoolTrace (size : Nat) (heap : Heap) : List (Event Nat) :=
  (heap.memalign size).toList.map fun r => .obtained ⟨r.address, r.address + size⟩

def carveTrace (align : Bool) (size : Nat) : List PoolBlock → List (Event Nat)
  | [] => []
  | b :: rest =>
    let m := if align then alignPtr b.dLast else b.dLast
    b.readData :: if size ≤ sizeDiff b.dEnd m then [] else carveTrace align size rest

def pallocBlockTrace (heap : Heap) (p : Pool) : List (Event Nat) :=
  p.readHead ++ match heap.memalign p.blockSize with
    | none => []
    | some r =>
      .obtained ⟨r.address, r.address + p.blockSize⟩ ::
        (p.blocks.drop p.current).map PoolBlock.readData

def pallocSmallTrace (align : Bool) (size : Nat) (heap : Heap) (p : Pool) : List (Event Nat) :=
  p.readHead ++ carveTrace align size (p.blocks.drop p.current) ++
    match carve align size (p.blocks.drop p.current) with
    | some _ => []
    | none => pallocBlockTrace heap p

/-- The search loop follows `next` of four records at most. -/
def pallocLargeTrace (size : Nat) (heap : Heap) (p : Pool) : List (Event Nat) :=
  match heap.alloc size with
  | none => []
  | some a =>
    .obtained ⟨a, a + size⟩ :: (p.readHead ++ (p.large.take 4).map PoolLarge.read ++
      (pallocSmallTrace true sizeofPoolLarge heap p ++
        match (pallocSmall true sizeofPoolLarge heap p).1 with
        | none => [.freed (some a)]
        | some _ => p.readHead))

def Request.trace (heap : Heap) (p : Pool) (request : Request) : List (Event Nat) :=
  p.readHead ++
    if request.size ≤ p.max then pallocSmallTrace request.align request.size heap p
    else pallocLargeTrace request.size heap p

def pfreeTrace (p : Option Nat) : List PoolLarge → List (Event Nat)
  | [] => []
  | l :: rest => l.read :: if p = l.alloc then [.freed l.alloc] else pfreeTrace p rest

/-- The loop over the records in `ngx_reset_pool` and `ngx_destroy_pool`; `l->next` is read when
the region has been freed. -/
def freeLargeTrace : List PoolLarge → List (Event Nat)
  | [] => []
  | l :: rest =>
    (match l.alloc with
      | some a => [l.read, .freed (some a), l.read]
      | none => [l.read, l.read]) ++ freeLargeTrace rest

def resetPoolTrace (p : Pool) : List (Event Nat) :=
  p.readHead ++ freeLargeTrace p.large ++ p.blocks.map PoolBlock.readData

/-- The block loop of `ngx_destroy_pool`, which reads `d.next` of a block before it frees it. -/
def freeBlocksTrace : List PoolBlock → List (Event Nat)
  | [] => []
  | b :: rest => b.readData :: .freed (some b.address) :: freeBlocksTrace rest

def destroyPoolTrace (p : Pool) : List (Event Nat) :=
  p.readHead ++ freeLargeTrace p.large ++ freeBlocksTrace p.blocks

def Call.trace (heap : Heap) (p : Pool) : Call → List (Event Nat)
  | .request r => r.trace heap p
  | .pfree a => p.readHead ++ pfreeTrace a p.large
  | .reset => resetPoolTrace p

def Usage.trace : List (Heap × Call) → Usage → List (Event Nat)
  | [], _ => []
  | (heap, call) :: rest, u => call.trace heap u.pool ++ Usage.trace rest (u.step heap call)

def poolTrace (size : Nat) (heap : Heap) (p : Pool) (steps : List (Heap × Call)) :
    List (Event Nat) :=
  createPoolTrace size heap ++ Usage.trace steps ⟨p, [], []⟩ ++
    destroyPoolTrace (Usage.run steps ⟨p, [], []⟩).pool

def ReadsIn (live : List (Span Nat)) (e : Event Nat) : Prop :=
  ∃ s, e = .read s ∧ ∃ r ∈ live, s.Within r

theorem ReadsIn.mono {live live' : List (Span Nat)} {e : Event Nat} (h : ReadsIn live e)
    (sub : live ⊆ live') : ReadsIn live' e := by
  obtain ⟨s, eq, r, member, inside⟩ := h
  exact ⟨s, eq, r, sub member, inside⟩

theorem reads_use {live : List (Span Nat)} {trace : List (Event Nat)}
    (each : ∀ e ∈ trace, ReadsIn live e) : Uses live trace live := Uses.reads each

section Reads

variable {total : Nat} {p : Pool} {u : Usage} {e : Event Nat}

theorem Invariant.readData (inv : Invariant total p) :
    ∀ b ∈ p.blocks, ReadsIn p.extents b.readData := by
  intro b member
  have sound := inv.chain.mem member
  refine ⟨_, rfl, ⟨b.address, b.dEnd⟩, ?_, le_refl _, sound.start.trans sound.stop⟩
  rw [Pool.extents, Pool.bumps, List.map_map]
  exact List.mem_map_of_mem member

theorem Invariant.readHead (inv : Invariant total p) : ∀ e ∈ p.readHead, ReadsIn p.extents e := by
  intro e member
  obtain ⟨b, first, rfl⟩ := List.mem_map.mp member
  have chain := inv.chain
  cases blocks : p.blocks with
  | nil => simp [blocks] at first
  | cons head rest =>
    rw [blocks] at chain first
    obtain rfl : b = head := by simpa using first
    refine ⟨_, rfl, ⟨b.address, b.dEnd⟩, ?_, le_refl _, chain.1.start.trans chain.1.stop⟩
    rw [Pool.extents, Pool.bumps, List.map_map, blocks]
    exact List.mem_cons_self

theorem Usage.Kept.readRecord (h : u.Kept total) :
    ∀ l ∈ u.pool.large, ReadsIn u.pool.extents l.read := by
  intro l member
  have piece : (⟨l.address, l.address + sizeofPoolLarge⟩ : Span Nat) ∈
      headers u.pool.blocks ++ (u.pool.records ++ u.small.map Grant.span) :=
    List.mem_append_right _ (List.mem_append_left _ (List.mem_map_of_mem member))
  obtain ⟨s, extent, inside⟩ := h.packed.within_extent piece
  exact ⟨_, rfl, s, extent, inside⟩

theorem carveTrace_reads {live : List (Span Nat)} {align : Bool} {size : Nat}
    {blocks : List PoolBlock} (each : ∀ b ∈ blocks, ReadsIn live b.readData) :
    ∀ e ∈ carveTrace align size blocks, ReadsIn live e := by
  induction blocks with
  | nil => exact List.forall_mem_nil _
  | cons b rest ih =>
    obtain ⟨here, later⟩ := List.forall_mem_cons.mp each
    rw [carveTrace]
    refine List.forall_mem_cons.mpr ⟨here, ?_⟩
    generalize (if align then alignPtr b.dLast else b.dLast) = m
    split
    · exact List.forall_mem_nil _
    · exact ih later

end Reads

section Small

variable {total : Nat} {p : Pool} {live : List (Span Nat)}

/-- The small path obtains the regions that it takes, and reads the blocks. -/
theorem pallocSmall_uses (inv : Invariant total p) (sub : p.extents ⊆ live) (align : Bool)
    (size : Nat) (heap : Heap)
    (fresh : ∀ s ∈ smallTakes align size heap p, ∀ r ∈ live, s.Apart r) :
    Uses live (pallocSmallTrace align size heap p) (smallTakes align size heap p ++ live) := by
  have head : ∀ e ∈ p.readHead, ReadsIn live e := fun e member => (inv.readHead e member).mono sub
  have data : ∀ b ∈ p.blocks.drop p.current, ReadsIn live b.readData :=
    fun b member => (inv.readData b (List.mem_of_mem_drop member)).mono sub
  have searched : Uses live (p.readHead ++ carveTrace align size (p.blocks.drop p.current)) live :=
    (reads_use head).append (reads_use (carveTrace_reads data))
  rw [pallocSmallTrace]
  refine searched.append ?_
  unfold smallTakes at fresh ⊢
  cases found : carve align size (p.blocks.drop p.current) with
  | some result => exact .nil (List.Perm.refl live)
  | none =>
    rw [found] at fresh
    simp only at fresh ⊢
    rw [pallocBlockTrace]
    refine (reads_use head).append ?_
    cases given : heap.memalign p.blockSize with
    | none => exact .nil (List.Perm.refl live)
    | some r =>
      rw [given] at fresh
      refine .obtained (fresh _ List.mem_cons_self) ?_
      refine reads_use fun e member => ?_
      obtain ⟨b, listed, rfl⟩ := List.mem_map.mp member
      exact (data b listed).mono (List.subset_cons_self _ _)

end Small

section Calls

variable {total : Nat} {u : Usage} {heap : Heap}

theorem Usage.Kept.proper (h : u.Kept total) (listed : u.Listed) :
    ∀ s ∈ u.inUse, s.start < s.stop := by
  intro s member
  rcases List.mem_append.mp member with block | large
  · rw [Pool.extents, Pool.bumps, List.map_map] at block
    obtain ⟨b, inside, rfl⟩ := List.mem_map.mp block
    have extent := (h.pool.chain.mem inside).extent
    have size := h.pool.large
    change b.address < b.dEnd
    simp only [sizeofPool] at size
    omega
  · obtain ⟨g, served, rfl⟩ := List.mem_map.mp large
    exact Nat.lt_add_of_pos_right (listed.proper g served)

theorem Usage.extents_subset (u : Usage) : u.pool.extents ⊆ u.inUse :=
  List.subset_append_left _ _

theorem Usage.Kept.head_use (h : u.Kept total) {live : List (Span Nat)} (sub : u.inUse ⊆ live) :
    Uses live u.pool.readHead live :=
  reads_use fun e member =>
    (h.pool.readHead e member).mono fun _ used => sub (u.extents_subset used)

/-- Some of the records are looked at. -/
theorem Usage.Kept.records_use (h : u.Kept total) {live : List (Span Nat)} (sub : u.inUse ⊆ live)
    {large : List PoolLarge} (listed : large ⊆ u.pool.large) :
    Uses live (large.map PoolLarge.read) live := by
  refine reads_use fun e member => ?_
  obtain ⟨l, inside, rfl⟩ := List.mem_map.mp member
  exact (h.readRecord l (listed inside)).mono fun s used => sub (u.extents_subset used)

theorem small_request_uses (h : u.Kept total) (words : 8 ∣ total) {request : Request}
    (fits : request.size ≤ u.pool.max)
    (fresh : (request.takes heap u.pool ++ u.inUse).Pairwise Span.Apart) :
    Uses u.inUse (pallocSmallTrace request.align request.size heap u.pool)
      (u.serve heap request).inUse := by
  have call : request.smallCall heap u.pool = some (request.align, request.size) := if_pos fits
  have path := pallocSmall_path words h.pool request.align request.size heap
  rw [Request.takes, if_pos fits] at fresh
  rw [Usage.serve, Palloc.serve_small fits call]
  have small := pallocSmall_uses h.pool u.extents_subset request.align request.size heap
    fun s taken r used => (List.pairwise_append.mp fresh).2.2 s taken r used
  refine small.left_perm ?_
  generalize pallocSmall request.align request.size heap u.pool = result at *
  obtain ⟨answer, next⟩ := result
  have use : (next.extents ++ u.large.map Grant.span).Perm
      (smallTakes request.align request.size heap u.pool ++ u.inUse) := path.inUse
  cases answer with
  | none => exact use.symm
  | some m =>
    simp only [if_pos fits]
    exact use.symm

/-- The region is given back at once when there is no room for its record. -/
theorem large_request_uses (h : u.Kept total) (listed : u.Listed) (words : 8 ∣ total)
    {request : Request} (fits : ¬ request.size ≤ u.pool.max)
    (fresh : (request.takes heap u.pool ++ u.inUse).Pairwise Span.Apart) :
    Uses u.inUse (pallocLargeTrace request.size heap u.pool) (u.serve heap request).inUse := by
  have path := pallocSmall_path words h.pool true sizeofPoolLarge heap
  rw [Request.takes, if_neg fits] at fresh
  rw [Usage.serve, Palloc.serve_large fits, pallocLargeTrace, pallocLarge_eq]
  cases given : heap.alloc request.size with
  | none => exact .nil (List.Perm.refl _)
  | some a =>
    rw [given] at fresh
    obtain ⟨apart, rest⟩ := List.pairwise_cons.mp fresh
    have here : ∀ r ∈ u.inUse, (⟨a, a + request.size⟩ : Span Nat).Apart r :=
      fun r used => apart r (List.mem_append_right _ used)
    refine .obtained here ?_
    have sub : u.inUse ⊆ ⟨a, a + request.size⟩ :: u.inUse := List.subset_cons_self _ _
    have searched : Uses (⟨a, a + request.size⟩ :: u.inUse)
        (u.pool.readHead ++ (u.pool.large.take 4).map PoolLarge.read)
        (⟨a, a + request.size⟩ :: u.inUse) :=
      (h.head_use sub).append (h.records_use sub (List.take_subset _ _))
    refine searched.append ?_
    have small := pallocSmall_uses h.pool (fun s used => sub (u.extents_subset used)) true
      sizeofPoolLarge heap
      fun s taken r used => by
        rcases List.mem_cons.mp used with rfl | used
        · exact (apart s (List.mem_append_left _ taken)).symm
        · exact (List.pairwise_append.mp rest).2.2 s taken r used
    refine small.append ?_
    simp only
    generalize smallTakes true sizeofPoolLarge heap u.pool = takes at *
    generalize pallocSmall true sizeofPoolLarge heap u.pool = result at *
    obtain ⟨answer, next⟩ := result
    cases answer with
    | none =>
      obtain rfl : takes = [] := path.takes_nil rfl
      obtain rfl : next = u.pool := path.of_none rfl
      have proper : 0 < request.size := Nat.zero_lt_of_lt (Nat.lt_of_not_le fits)
      exact Uses.free (List.Perm.refl _) (List.pairwise_cons.mpr ⟨here, h.inUse⟩)
        (List.forall_mem_cons.mpr ⟨Nat.lt_add_of_pos_right proper, h.proper listed⟩)
    | some record =>
      have use : (next.extents ++ u.large.map Grant.span).Perm (takes ++ u.inUse) := path.inUse
      have inside : u.inUse ⊆ takes ++ ⟨a, a + request.size⟩ :: u.inUse :=
        fun s used => List.mem_append_right _ (sub used)
      refine (h.head_use inside).left_perm ?_
      simp only [if_neg fits]
      refine List.perm_middle.trans ?_
      refine ((use.symm.cons _).trans ?_)
      exact List.perm_middle.symm

theorem request_uses (h : u.Kept total) (listed : u.Listed) (words : 8 ∣ total) {request : Request}
    (orderly : (Call.request request).Orderly heap u) :
    Uses u.inUse (request.trace heap u.pool) (u.serve heap request).inUse := by
  rw [Request.trace]
  refine (h.head_use (List.Subset.refl _)).append ?_
  split
  next fits => exact small_request_uses h words fits orderly.1
  next fits => exact large_request_uses h listed words fits orderly.1

theorem filter_other {l : List Grant} {g : Grant} {a : Nat} (distinct : (l.map Grant.address).Nodup)
    (member : g ∈ l) (at_a : g.address = a) :
    l.Perm (g :: l.filter fun x => some a ≠ some x.address) := by
  obtain ⟨front, back, rfl⟩ := List.append_of_mem member
  have others : ∀ x ∈ front ++ back, x.address ≠ a := by
    intro x listed same
    have moved := (List.perm_middle.map Grant.address).nodup_iff.mp distinct
    apply (List.nodup_cons.mp moved).1
    rw [at_a, ← same]
    exact List.mem_map_of_mem listed
  have kept : (front ++ g :: back).filter (fun x => some a ≠ some x.address) = front ++ back := by
    rw [List.filter_append, List.filter_cons_of_neg (by simp [at_a]), ← List.filter_append]
    exact List.filter_eq_self.mpr fun x listed => by simpa using (others x listed).symm
  rw [kept]
  exact List.perm_middle

theorem pfreeTrace_found {p : Option Nat} {large after : List PoolLarge}
    (found : pfreeLarge p large = some after) :
    ∃ n, pfreeTrace p large = (large.take n).map PoolLarge.read ++ [.freed p] := by
  induction large generalizing after with
  | nil => cases found
  | cons l rest ih =>
    rw [pfreeLarge] at found
    rw [pfreeTrace]
    split at found
    next here =>
      refine ⟨1, ?_⟩
      rw [if_pos here, here]
      rfl
    next other =>
      obtain ⟨later, behind, -⟩ := Option.map_eq_some_iff.mp found
      obtain ⟨n, eq⟩ := ih behind
      refine ⟨n + 1, ?_⟩
      rw [if_neg other, eq]
      rfl

theorem pfreeTrace_declined {p : Option Nat} {large : List PoolLarge}
    (declined : pfreeLarge p large = none) : pfreeTrace p large = large.map PoolLarge.read := by
  induction large with
  | nil => rfl
  | cons l rest ih =>
    rw [pfreeLarge] at declined
    rw [pfreeTrace]
    split at declined
    next => cases declined
    next other =>
      rw [if_neg other, ih (Option.map_eq_none_iff.mp declined)]
      rfl

theorem pfree_uses (h : u.Kept total) (listed : u.Listed) (p : Option Nat) :
    Uses u.inUse (u.pool.readHead ++ pfreeTrace p u.pool.large) (u.pfree p).inUse := by
  have same := List.Subset.refl u.inUse
  refine (h.head_use same).append ?_
  rw [Usage.pfree, Palloc.pfree]
  cases found : pfreeLarge p u.pool.large with
  | none =>
    rw [pfreeTrace_declined found]
    exact h.records_use same (List.Subset.refl _)
  | some after =>
    obtain ⟨n, eq⟩ := pfreeTrace_found found
    rw [eq]
    refine (h.records_use same (List.take_subset n _)).append ?_
    cases p with
    | none =>
      refine .null (.nil ?_)
      simp only [Usage.inUse]
      rw [List.filter_eq_self.mpr fun g _ => by simp]
      exact List.Perm.refl _
    | some a =>
      have some_found : (pfreeLarge (some a) u.pool.large).isSome := by rw [found]; rfl
      rw [pfreeLarge_some, listed.records] at some_found
      obtain ⟨g, member, at_a⟩ := List.mem_map.mp some_found
      have split := filter_other (h.distinct listed) member at_a
      have whole : u.inUse.Perm (g.span :: (u.pool.extents ++
          (u.large.filter fun x => some a ≠ some x.address).map Grant.span)) :=
        ((split.map Grant.span).append_left _).trans List.perm_middle
      subst at_a
      exact Uses.free whole h.inUse (h.proper listed)

/-- The records are those of the regions, in their order. -/
theorem freeLarge_uses {extents : List (Span Nat)} {large : List PoolLarge} {grants : List Grant}
    (records : large.filterMap PoolLarge.alloc = grants.map Grant.address)
    (reads : ∀ l ∈ large, ReadsIn extents l.read)
    (apart : (extents ++ grants.map Grant.span).Pairwise Span.Apart)
    (proper : ∀ s ∈ extents ++ grants.map Grant.span, s.start < s.stop) :
    Uses (extents ++ grants.map Grant.span) (freeLargeTrace large) extents := by
  induction large generalizing grants with
  | nil =>
    rw [List.filterMap_nil, List.nil_eq, List.map_eq_nil_iff] at records
    subst records
    rw [List.map_nil, List.append_nil]
    exact .nil (List.Perm.refl _)
  | cons l rest ih =>
    obtain ⟨here, later⟩ := List.forall_mem_cons.mp reads
    have read (others : List (Span Nat)) : Uses (extents ++ others) [l.read] (extents ++ others) :=
      reads_use fun e member => by
        rw [List.mem_singleton.mp member]
        exact here.mono (List.subset_append_left _ _)
    rw [freeLargeTrace]
    rw [List.filterMap_cons] at records
    cases alloc : l.alloc with
    | none =>
      rw [alloc] at records
      exact ((read _).append (read _)).append (ih records later apart proper)
    | some a =>
      rw [alloc] at records
      cases grants with
      | nil => cases records
      | cons g grants =>
        obtain ⟨same, others⟩ := List.cons.inj records
        subst same
        have whole : (extents ++ (g :: grants).map Grant.span).Perm
            (g.span :: (extents ++ grants.map Grant.span)) := List.perm_middle
        have freed : Uses (extents ++ (g :: grants).map Grant.span) [.freed (some g.span.start)]
            (extents ++ grants.map Grant.span) := Uses.free whole apart proper
        refine (((read _).append freed).append (read _)).append ?_
        have rest_apart := (List.pairwise_cons.mp ((whole.pairwise_iff Span.Apart.symm).mp apart)).2
        exact ih others later rest_apart fun s used =>
          proper s (whole.symm.subset (List.mem_cons_of_mem _ used))

theorem freeBlocks_uses {blocks : List PoolBlock}
    (sound : ∀ b ∈ blocks, b.address + sizeofPoolData ≤ b.dEnd)
    (apart : (blocks.map fun b => b.bump.extent).Pairwise Span.Apart) :
    Uses (blocks.map fun b => b.bump.extent) (freeBlocksTrace blocks) [] := by
  induction blocks with
  | nil => exact .nil (List.Perm.refl _)
  | cons b rest ih =>
    obtain ⟨here, later⟩ := List.forall_mem_cons.mp sound
    have proper : ∀ s ∈ (b :: rest).map fun b => b.bump.extent, s.start < s.stop := by
      intro s used
      obtain ⟨c, member, rfl⟩ := List.mem_map.mp used
      have inside := sound c member
      change c.address < c.dEnd
      simp only [sizeofPoolData] at inside
      omega
    have freed : Uses ((b :: rest).map fun b => b.bump.extent) [.freed (some b.bump.extent.start)]
        (rest.map fun b => b.bump.extent) := Uses.free (List.Perm.refl _) apart proper
    refine .read (r := b.bump.extent) List.mem_cons_self ⟨le_refl _, here⟩ ?_
    exact freed.append (ih later (List.pairwise_cons.mp apart).2)

theorem Usage.Kept.step_uses (h : u.Kept total) (listed : u.Listed) (words : 8 ∣ total)
    {call : Call} (orderly : call.Orderly heap u) :
    Uses u.inUse (call.trace heap u.pool) (u.step heap call).inUse := by
  cases call with
  | request request => exact request_uses h listed words orderly
  | pfree p => exact pfree_uses h listed p
  | reset =>
    have head := h.head_use (List.Subset.refl u.inUse)
    have freed := freeLarge_uses listed.records h.readRecord h.inUse (h.proper listed)
    have blocks : ∀ e ∈ u.pool.blocks.map PoolBlock.readData, ReadsIn u.pool.extents e := by
      intro e member
      obtain ⟨b, inside, rfl⟩ := List.mem_map.mp member
      exact h.pool.readData b inside
    have extents : (u.step heap .reset).inUse = u.pool.extents := by
      simp [Usage.step, Usage.inUse, Pool.extents, Pool.bumps, resetPool, PoolBlock.bump,
        Bump.extent]
    rw [extents]
    exact (head.append freed).append (reads_use blocks)

theorem Usage.Kept.destroy_uses (h : u.Kept total) (listed : u.Listed) :
    Uses u.inUse (destroyPoolTrace u.pool) [] := by
  have head := h.head_use (List.Subset.refl u.inUse)
  have freed := freeLarge_uses listed.records h.readRecord h.inUse (h.proper listed)
  have extents : u.pool.extents = u.pool.blocks.map fun b => b.bump.extent := by
    rw [Pool.extents, Pool.bumps, List.map_map]
    rfl
  have apart := (List.pairwise_append.mp h.inUse).1
  have blocks := @freeBlocks_uses u.pool.blocks (fun b member => by
    have sound := h.pool.chain.mem member
    exact sound.start.trans sound.stop) (extents ▸ apart)
  rw [← extents] at blocks
  exact (head.append freed).append blocks

theorem Usage.Kept.run_uses (words : 8 ∣ total) (steps : List (Heap × Call)) (h : u.Kept total)
    (listed : u.Listed) (orderly : OrderlyRun steps u) :
    Uses u.inUse (Usage.trace steps u) (Usage.run steps u).inUse := by
  induction steps generalizing u with
  | nil => exact .nil (List.Perm.refl _)
  | cons step rest ih =>
    obtain ⟨heap, call⟩ := step
    refine (h.step_uses listed words orderly.1).append ?_
    exact ih (h.step words orderly.1) (h.step_listed listed words heap call) orderly.2

end Calls

/-- A pool gives back all that it took from the system, each region once, and reads none of it
afterwards. -/
theorem destroyed_pool_returns_all {size : Nat} {heap : Heap} {p : Pool} (words : 8 ∣ size)
    (large : sizeofPool ≤ size) (created : createPool size heap = some p)
    (steps : List (Heap × Call)) (orderly : OrderlyRun steps ⟨p, [], []⟩) :
    Settled (poolTrace size heap p steps) := by
  have kept := createPool_kept large created
  have listed := createPool_listed large created
  have obtained : Uses [] (createPoolTrace size heap) (Usage.inUse ⟨p, [], []⟩) := by
    rw [createPool] at created
    rw [createPoolTrace]
    cases given : heap.memalign size with
    | none => simp [given] at created
    | some r =>
      rw [given] at created
      cases created
      exact .obtained (List.forall_mem_nil _) (.nil (List.Perm.refl _))
  have calls := kept.run_uses words steps listed orderly
  have ended :=
    (kept.run words steps orderly).destroy_uses (kept.run_listed words steps listed orderly)
  exact ((obtained.append calls).append ended).settled

theorem destroyed_pool_returns_all_small :
    Settled (poolTrace 256 (answers 65536 0) smallPool smallPoolSteps) :=
  @destroyed_pool_returns_all 256 (answers 65536 0) smallPool (by decide) (by decide) (by decide)
    smallPoolSteps (by
      refine ⟨⟨by decide, ?_⟩, trivial, ⟨by decide, ?_⟩, ⟨by decide, ?_⟩, ⟨by decide, ?_⟩, trivial,
        ⟨by decide, ?_⟩, ⟨by decide, ?_⟩, trivial⟩ <;> (intro _ a eq; cases eq; decide))

def tinyPool : Pool := ⟨[⟨65536, 65600, 65552, 0⟩], 4096, 0, []⟩

/-- A large region that begins where the pool, past its own memory, puts the record of it. -/
def tinyPoolSteps : List (Heap × Call) :=
  [(answers 0 65600, .request (.palloc 5000)), (answers 0 0, .pfree (some 65600))]

/-- The record is read when the region around it has been freed. -/
theorem tiny_pool_reads_freed :
    createPool 16 (answers 65536 0) = some tinyPool ∧ 8 ∣ 16 ∧
      OrderlyRun tinyPoolSteps ⟨tinyPool, [], []⟩ ∧
      ¬ Settled (poolTrace 16 (answers 65536 0) tinyPool tinyPoolSteps) := by
  have orderly : OrderlyRun tinyPoolSteps ⟨tinyPool, [], []⟩ := by
    refine ⟨⟨by decide, ?_⟩, trivial, trivial⟩
    intro _ a eq
    cases eq
    decide
  refine ⟨by decide, by decide, orderly, fun settled => ?_⟩
  let trace := poolTrace 16 (answers 65536 0) tinyPool tinyPoolSteps
  have dead : Dead (trace.take 11) ⟨65600, 70600⟩ :=
    ⟨trace.take 9, [.read ⟨65536, 65600⟩], [⟨65600, 70600⟩, ⟨65536, 65552⟩], by decide, by decide,
      by decide, by simp⟩
  have apart := settled.unread (trace.take 11) ⟨65600, 65616⟩ (trace.drop 12) (by decide) _ dead
  exact absurd apart (by decide)

end Ngx.Palloc
