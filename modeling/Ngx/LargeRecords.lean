import Ngx.PoolRegions

/-! The records of large regions over many rounds of a large request and its release, which is
what a connection does each time it wakes up and finds nothing to read. -/
namespace Ngx.Palloc

def Pool.round (heap : Heap) (size : Nat) (p : Pool) : Pool :=
  match palloc size heap p with
  | (m, p') => (pfree m p').2

/-- The pool after `k` rounds; each has its own size and its own answers of the system. -/
def Pool.rounds (heaps : Nat → Heap) (sizes : Nat → Nat) (p : Pool) : Nat → Pool
  | 0 => p
  | k + 1 => (p.rounds heaps sizes k).round (heaps k) (sizes k)

/-- The system refuses the region, or a new block for the record of it. -/
def Refuses (heap : Heap) (size blockSize : Nat) : Prop :=
  heap.alloc size = none ∨ heap.memalign blockSize = none

def PoolBlock.room (b : PoolBlock) : Nat := sizeDiff b.dEnd (alignPtr b.dLast)

def Pool.room (p : Pool) : Nat := (p.blocks.map PoolBlock.room).sum

theorem alignPtr_mod (p : Nat) : alignPtr p = (p + 7) % 2 ^ 64 / 8 * 8 :=
  Alignment.land_mask (w := 64) (k := 3) (by decide) (Nat.mod_lt _ (by decide))

/-- A record takes its size from the room of its block. -/
theorem room_carved {b : PoolBlock} (fits : sizeofPoolLarge ≤ b.room) :
    PoolBlock.room { b with dLast := alignPtr b.dLast + sizeofPoolLarge } + sizeofPoolLarge =
      b.room := by
  simp only [PoolBlock.room, sizeDiff, alignPtr_mod, sizeofPoolLarge] at *
  omega

theorem carve_room {blocks after : List PoolBlock} {m : Nat}
    (carved : carve true sizeofPoolLarge blocks = some (m, after)) :
    (after.map PoolBlock.room).sum + sizeofPoolLarge = (blocks.map PoolBlock.room).sum := by
  induction blocks generalizing after with
  | nil => cases carved
  | cons b rest ih =>
    simp only [carve, if_true] at carved
    split at carved
    next fits =>
      cases carved
      have here := room_carved (b := b) fits
      simp only [List.map_cons, List.sum_cons]
      omega
    next =>
      cases found : carve true sizeofPoolLarge rest with
      | none => simp [found] at carved
      | some result =>
        rw [found] at carved
        cases carved
        have behind := ih found
        simp only [List.map_cons, List.sum_cons]
        omega

def PoolBlock.frame (b : PoolBlock) : Nat × Nat := (b.address, b.dEnd)

theorem carve_frames {blocks after : List PoolBlock} {align : Bool} {size m : Nat}
    (carved : carve align size blocks = some (m, after)) :
    after.map PoolBlock.frame = blocks.map PoolBlock.frame := by
  induction blocks generalizing after with
  | nil => cases carved
  | cons b rest ih =>
    simp only [carve] at carved
    generalize (if align = true then alignPtr b.dLast else b.dLast) = at_ at carved
    split at carved
    next =>
      cases carved
      rfl
    next =>
      cases found : carve align size rest with
      | none => simp [found] at carved
      | some result =>
        rw [found] at carved
        cases carved
        rw [List.map_cons, ih found, List.map_cons]

theorem blockSize_congr {p q : Pool}
    (same : q.blocks.map PoolBlock.frame = p.blocks.map PoolBlock.frame) :
    q.blockSize = p.blockSize := by
  rw [Pool.blockSize, Pool.blockSize]
  cases here : p.blocks with
  | nil =>
    rw [here, List.map_nil, List.map_eq_nil_iff] at same
    rw [same]
  | cons b rest =>
    cases there : q.blocks with
    | nil => simp [here, there] at same
    | cons c others =>
      rw [here, there] at same
      obtain ⟨address, stop⟩ := Prod.mk.inj (List.cons.inj same).1
      simp only [address, stop]

theorem bumpFailed_frames (i current : Nat) (blocks : List PoolBlock) :
    (bumpFailed i current blocks).1.map PoolBlock.frame = blocks.map PoolBlock.frame := by
  have read (bs : List PoolBlock) :
      bs.map PoolBlock.frame = (bs.map PoolBlock.space).map fun s => (s.1, s.2.2) := by
    rw [List.map_map]
    rfl
  rw [read, read, bumpFailed_space]

/-- A new block at the end of the chain leaves the size that the next one will have. -/
theorem blockSize_added {p q : Pool} {address : Nat}
    (new : q.blocks.map PoolBlock.frame =
      p.blocks.map PoolBlock.frame ++ [(address, address + p.blockSize)]) :
    q.blockSize = p.blockSize := by
  cases here : p.blocks with
  | nil =>
    have size : p.blockSize = 0 := by rw [Pool.blockSize, here]
    rw [here, size] at new
    cases there : q.blocks with
    | nil => simp [there] at new
    | cons c others =>
      rw [there] at new
      obtain ⟨start, stop⟩ := Prod.mk.inj (List.cons.inj new).1
      rw [size, Pool.blockSize, there]
      simp only [start, stop, sizeDiff]
      omega
  | cons b rest =>
    cases there : q.blocks with
    | nil => simp [there] at new
    | cons c others =>
      rw [here, there] at new
      obtain ⟨start, stop⟩ := Prod.mk.inj (List.cons.inj new).1
      rw [Pool.blockSize, Pool.blockSize, here, there]
      simp only [start, stop]

inductive RecordPath (heap : Heap) (p : Pool) : Option Nat × Pool → Prop where
  | refused (block : heap.memalign p.blockSize = none) : RecordPath heap p (none, p)
  | carved {m : Nat} {next : Pool} (large : next.large = p.large) (max : next.max = p.max)
      (size : next.blockSize = p.blockSize) (room : next.room + sizeofPoolLarge = p.room) :
      RecordPath heap p (some m, next)
  | added {m : Nat} {next : Pool} (large : next.large = p.large) (max : next.max = p.max)
      (size : next.blockSize = p.blockSize) (block : heap.memalign p.blockSize ≠ none) :
      RecordPath heap p (some m, next)

theorem pallocSmall_record (heap : Heap) (p : Pool) :
    RecordPath heap p (pallocSmall true sizeofPoolLarge heap p) := by
  rw [pallocSmall]
  cases found : carve true sizeofPoolLarge (p.blocks.drop p.current) with
  | some result =>
    refine .carved rfl rfl (blockSize_congr ?_) ?_
    · rw [List.map_append, carve_frames found, ← List.map_append, List.take_append_drop]
    · have room := carve_room found
      have split : p.room = ((p.blocks.take p.current).map PoolBlock.room).sum +
          ((p.blocks.drop p.current).map PoolBlock.room).sum := by
        rw [← List.sum_append, ← List.map_append, List.take_append_drop, Pool.room]
      simp only [Pool.room, List.map_append, List.sum_append] at *
      omega
  | none =>
    simp only
    rw [pallocBlock]
    cases block : heap.memalign p.blockSize with
    | none => exact .refused block
    | some r =>
      refine .added rfl rfl ?_ (by rw [block]; exact Option.some_ne_none r)
      refine @blockSize_added p _ r.address ?_
      rw [List.map_append, List.map_append, bumpFailed_frames, ← List.map_append,
        List.take_append_drop]
      rfl

inductive Pool.Round (heap : Heap) (size : Nat) (p : Pool) : Pool → Prop where
  | refused {next : Pool} (refuses : Refuses heap size p.blockSize)
      (records : next.large.length = p.large.length) (room : next.room = p.room) :
      Round heap size p next
  | carved {next : Pool} (records : next.large.length = p.large.length + 1)
      (room : next.room + sizeofPoolLarge = p.room) : Round heap size p next
  | added {next : Pool} (given : ¬ Refuses heap size p.blockSize)
      (records : next.large.length = p.large.length + 1) : Round heap size p next

theorem pfree_frame (a : Option Nat) (p : Pool) :
    (pfree a p).2.blocks = p.blocks ∧ (pfree a p).2.max = p.max ∧
      (pfree a p).2.large.length = p.large.length := by
  rw [pfree]
  cases found : pfreeLarge a p.large with
  | none => exact ⟨rfl, rfl, rfl⟩
  | some large =>
    have records := congrArg List.length (pfreeLarge_records found)
    simp only [List.length_map] at records
    exact ⟨rfl, rfl, records⟩

/-- A round adds a record, unless the system refuses; it never reuses one. -/
theorem round_cases (heap : Heap) {size : Nat} {p : Pool} (large : p.max < size) :
    p.Round heap size (p.round heap size) ∧ (p.round heap size).blockSize = p.blockSize ∧
      (p.round heap size).max = p.max := by
  rw [Pool.round, palloc, if_neg (Nat.not_le.mpr large), pallocLarge_eq]
  cases region : heap.alloc size with
  | none =>
    obtain ⟨blocks, max, records⟩ := pfree_frame none p
    refine ⟨.refused (.inl region) records ?_, ?_, max⟩
    · rw [Pool.room, blocks, Pool.room]
    · rw [Pool.blockSize, blocks, Pool.blockSize]
  | some a =>
    have path := pallocSmall_record heap p
    generalize pallocSmall true sizeofPoolLarge heap p = result at path
    cases path with
    | refused block =>
      obtain ⟨blocks, max, records⟩ := pfree_frame none p
      refine ⟨.refused (.inr block) records ?_, ?_, max⟩
      · rw [Pool.room, blocks, Pool.room]
      · rw [Pool.blockSize, blocks, Pool.blockSize]
    | @carved m next same max size room =>
      obtain ⟨blocks, max', records⟩ :=
        pfree_frame (some a) { next with large := ⟨m, some a⟩ :: next.large }
      refine ⟨.carved ?_ ?_, ?_, max'.trans max⟩
      · rw [records, List.length_cons, same]
      · rw [Pool.room, blocks, ← room, Pool.room]
      · rw [Pool.blockSize, blocks, ← size, Pool.blockSize]
    | @added m next same max size block =>
      obtain ⟨blocks, max', records⟩ :=
        pfree_frame (some a) { next with large := ⟨m, some a⟩ :: next.large }
      refine ⟨.added ?_ ?_, ?_, max'.trans max⟩
      · rintro (none | none)
        · cases region.symm.trans none
        · exact block none
      · rw [records, List.length_cons, same]
      · rw [Pool.blockSize, blocks, ← size, Pool.blockSize]

section Rounds

variable (heaps : Nat → Heap) {sizes : Nat → Nat} {p : Pool}

theorem rounds_kept (large : ∀ k, p.max < sizes k) (k : Nat) :
    (p.rounds heaps sizes k).blockSize = p.blockSize ∧ (p.rounds heaps sizes k).max = p.max := by
  induction k with
  | zero => exact ⟨rfl, rfl⟩
  | succ k ih =>
    have above : (p.rounds heaps sizes k).max < sizes k := by
      rw [ih.2]
      exact large k
    obtain ⟨-, size, max⟩ := round_cases (heaps k) above
    exact ⟨size.trans ih.1, max.trans ih.2⟩

theorem rounds_round (large : ∀ k, p.max < sizes k) (k : Nat) :
    (p.rounds heaps sizes k).Round (heaps k) (sizes k) (p.rounds heaps sizes (k + 1)) := by
  have above : (p.rounds heaps sizes k).max < sizes k := by
    rw [(rounds_kept heaps large k).2]
    exact large k
  exact (round_cases (heaps k) above).1

/-- The records never get fewer, and a round adds one at most. -/
theorem rounds_grow (large : ∀ k, p.max < sizes k) (k : Nat) :
    (p.rounds heaps sizes k).large.length ≤ (p.rounds heaps sizes (k + 1)).large.length ∧
      (p.rounds heaps sizes (k + 1)).large.length ≤ (p.rounds heaps sizes k).large.length + 1 := by
  cases rounds_round heaps large k with
  | refused _ records => omega
  | carved records => omega
  | added _ records => omega

/-- A round whose answers refuse nothing adds a record. -/
theorem rounds_given (large : ∀ k, p.max < sizes k) {k : Nat}
    (given : ¬ Refuses (heaps k) (sizes k) p.blockSize) :
    (p.rounds heaps sizes (k + 1)).large.length = (p.rounds heaps sizes k).large.length + 1 := by
  cases rounds_round heaps large k with
  | refused refuses =>
    rw [(rounds_kept heaps large k).1] at refuses
    exact absurd refuses given
  | carved records => exact records
  | added _ records => exact records

/-- While the system refuses, records are only taken from the room that there is. -/
theorem rounds_refused (large : ∀ k, p.max < sizes k) {n : Nat}
    (refused : ∀ k, n ≤ k → Refuses (heaps k) (sizes k) p.blockSize) (k : Nat) :
    (p.rounds heaps sizes (n + k)).large.length * sizeofPoolLarge +
        (p.rounds heaps sizes (n + k)).room ≤
      (p.rounds heaps sizes n).large.length * sizeofPoolLarge + (p.rounds heaps sizes n).room := by
  induction k with
  | zero => exact le_refl _
  | succ k ih =>
    have round := rounds_round heaps large (n + k)
    rw [← Nat.add_assoc]
    simp only [sizeofPoolLarge] at *
    cases round with
    | refused _ records room => omega
    | carved records room =>
      simp only [sizeofPoolLarge] at room
      omega
    | added given =>
      rw [(rounds_kept heaps large (n + k)).1] at given
      exact absurd (refused (n + k) (Nat.le_add_right n k)) given

theorem rounds_length_le (large : ∀ k, p.max < sizes k) (k : Nat) :
    (p.rounds heaps sizes k).large.length ≤ p.large.length + k := by
  induction k with
  | zero => exact le_refl _
  | succ k ih =>
    have step := (rounds_grow heaps large k).2
    omega

theorem rounds_mono (large : ∀ k, p.max < sizes k) {i j : Nat} (le : i ≤ j) :
    (p.rounds heaps sizes i).large.length ≤ (p.rounds heaps sizes j).large.length :=
  monotone_nat_of_le_succ (fun k => (rounds_grow heaps large k).1) le

/-- Rounds that are given all they ask for keep coming, and so do the records. -/
theorem rounds_exceed (large : ∀ k, p.max < sizes k)
    (often : ∀ n, ∃ k, n ≤ k ∧ ¬ Refuses (heaps k) (sizes k) p.blockSize) (bound : Nat) :
    ∃ k, bound < (p.rounds heaps sizes k).large.length := by
  induction bound with
  | zero =>
    obtain ⟨k, -, given⟩ := often 0
    have grown := rounds_given heaps large given
    exact ⟨k + 1, by omega⟩
  | succ bound ih =>
    obtain ⟨n, above⟩ := ih
    obtain ⟨k, later, given⟩ := often n
    have grown := rounds_given heaps large given
    have kept := rounds_mono heaps large later
    exact ⟨k + 1, by omega⟩

/-- The records of the large regions stay bounded over all rounds exactly when, from some round
on, the system refuses every time. -/
theorem large_records_bounded_iff (large : ∀ k, p.max < sizes k) :
    (∃ bound, ∀ k, (p.rounds heaps sizes k).large.length ≤ bound) ↔
      ∃ n, ∀ k, n ≤ k → Refuses (heaps k) (sizes k) p.blockSize := by
  constructor
  · rintro ⟨bound, bounded⟩
    by_contra never
    have often : ∀ n, ∃ k, n ≤ k ∧ ¬ Refuses (heaps k) (sizes k) p.blockSize := by
      simpa only [not_exists, not_forall, exists_prop] using never
    obtain ⟨k, above⟩ := rounds_exceed heaps large often bound
    exact absurd (bounded k) (Nat.not_le.mpr above)
  · rintro ⟨n, refused⟩
    refine ⟨p.large.length + n + (p.rounds heaps sizes n).room, fun k => ?_⟩
    have first := rounds_length_le heaps large n
    rcases Nat.le_total k n with early | late
    · have kept := rounds_mono heaps large early
      omega
    · obtain ⟨i, rfl⟩ := Nat.exists_eq_add_of_le late
      have taken := rounds_refused heaps large refused i
      simp only [sizeofPoolLarge] at taken
      omega

end Rounds

def connectionPool : Pool := ⟨[⟨65536, 65600, 66560, 0⟩], 960, 0, []⟩

/-- The region is given back in each round and returned again in the next; blocks are returned at
addresses of their own. -/
def idleHeaps (k : Nat) : Heap := answers (2 ^ 20 + 1024 * (k % 2 ^ 40)) 131072

theorem large_records_bounded_iff_idle :
    (∃ bound, ∀ k, (connectionPool.rounds idleHeaps (fun _ => 2048) k).large.length ≤ bound) ↔
      ∃ n, ∀ k, n ≤ k → Refuses (idleHeaps k) 2048 connectionPool.blockSize :=
  @large_records_bounded_iff idleHeaps (fun _ => 2048) connectionPool fun _ => by decide

theorem idle_given (k : Nat) : ¬ Refuses (idleHeaps k) 2048 connectionPool.blockSize := by
  have block : (2 ^ 20 + 1024 * (k % 2 ^ 40)) % 16 = 0 ∧
      2 ^ 20 + 1024 * (k % 2 ^ 40) + connectionPool.blockSize ≤ 2 ^ 63 := by
    rw [show connectionPool.blockSize = 1024 by decide]
    omega
  rintro (none | none)
  · cases none
  · rw [idleHeaps, answers] at none
    simp only [dif_pos block] at none
    cases none

/-- Each time a client's buffer of 2048 bytes is taken from the pool of its connection and given
back, there is one record more. -/
theorem idle_wake_ups_grow_pool :
    createPool 1024 (answers 65536 0) = some connectionPool ∧
      (∀ k, (connectionPool.rounds idleHeaps (fun _ => 2048) k).large.length = k) ∧
      ¬ ∃ bound, ∀ k, (connectionPool.rounds idleHeaps (fun _ => 2048) k).large.length ≤ bound := by
  have grows (k : Nat) : (connectionPool.rounds idleHeaps (fun _ => 2048) k).large.length = k := by
    induction k with
    | zero => rfl
    | succ k ih => rw [rounds_given idleHeaps (fun _ => by decide) (idle_given k), ih]
  refine ⟨by decide, grows, ?_⟩
  rintro ⟨bound, bounded⟩
  have above := bounded (bound + 1)
  rw [grows] at above
  omega

end Ngx.Palloc
