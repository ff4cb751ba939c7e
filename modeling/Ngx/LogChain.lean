import Ngx.LinkedStack
import Mathlib.Data.List.Sort

/-! The chain of logs. It is ordered by level, so a message stops at the first log whose level is
too low for it. -/
namespace Ngx.Logging

open LinkedStack

/-- The contents of a `ngx_log_t` but for `next`; `rest` are the fields that are only carried
along, and a log has a writer or a file. -/
structure Entry (δ : Type) where
  logLevel : UInt64
  writer : Option Nat
  fd : Nat
  diskFullTime : Int
  rest : δ

structure Log (ν δ : Type) extends Entry δ where
  next : Option ν

section Order

variable {δ : Type}

def Before (a b : Entry δ) : Prop := b.logLevel < a.logLevel

instance : DecidableRel (Before (δ := δ)) := fun a b =>
  inferInstanceAs (Decidable (b.logLevel < a.logLevel))

def insertions (es cs : List (Entry δ)) : List (Entry δ) :=
  es.foldl (fun cs e => cs.orderedInsert Before e) cs

theorem insertions_perm (es cs : List (Entry δ)) : (insertions es cs).Perm (es ++ cs) := by
  induction es generalizing cs with
  | nil => exact List.Perm.refl _
  | cons e es ih =>
    have inserted := (List.perm_orderedInsert Before e cs).append_left es
    exact (ih _).trans (inserted.trans List.perm_middle)

def Ordered (cs : List (Entry δ)) : Prop := cs.Pairwise fun a b => b.logLevel ≤ a.logLevel

theorem Ordered.orderedInsert {cs : List (Entry δ)} (ordered : Ordered cs) (c : Entry δ) :
    Ordered (cs.orderedInsert Before c) := by
  induction cs with
  | nil => exact List.pairwise_singleton _ c
  | cons b cs ih =>
    obtain ⟨below, rest⟩ := List.pairwise_cons.mp ordered
    by_cases higher : Before c b
    · rw [List.orderedInsert_cons_of_le _ _ higher]
      refine List.pairwise_cons.mpr ⟨fun d member => ?_, ordered⟩
      rcases List.mem_cons.mp member with rfl | member
      · exact UInt64.le_of_lt higher
      · exact UInt64.le_trans (below d member) (UInt64.le_of_lt higher)
    · rw [List.orderedInsert_of_not_le _ _ higher]
      refine List.pairwise_cons.mpr ⟨fun d member => ?_, ih rest⟩
      rcases (List.mem_orderedInsert _).mp member with rfl | member
      · exact UInt64.not_lt.mp higher
      · exact below d member

theorem Ordered.insertions {cs : List (Entry δ)} (ordered : Ordered cs) (es : List (Entry δ)) :
    Ordered (insertions es cs) := by
  induction es generalizing cs with
  | nil => exact ordered
  | cons e es ih => exact ih (ordered.orderedInsert e)

end Order

variable {ν δ : Type}

abbrev Memory (ν δ : Type) := ν → Log ν δ

/-- The chain that starts at `head` is `head :: logs`. -/
def Linked (m : Memory ν δ) (head : ν) (logs : List ν) : Prop :=
  Chain (fun x => (m x).next) (some head) (head :: logs)

def contents (m : Memory ν δ) (logs : List ν) : List (Entry δ) := logs.map fun x => (m x).toEntry

instance (m : Memory ν δ) : DecidableRel fun a b => Before (m a).toEntry (m b).toEntry :=
  fun _ _ => inferInstance

variable {m m' : Memory ν δ} {log newLog head x : ν} {xs ys : List ν} {c : Log ν δ}

theorem Linked.congr (linked : Linked m head xs) (same : ∀ x ∈ head :: xs, m' x = m x) :
    Linked m' head xs :=
  Chain.congr linked fun x member => congrArg Log.next (same x member)

theorem Linked.next (linked : Linked m head xs) : (m head).next = xs.head? := by
  cases linked with
  | cons rest =>
    cases xs with
    | nil =>
      generalize (m head).next = start at rest
      cases rest
      rfl
    | cons y ys => exact rest.top

theorem Linked.cons (next : (m log).next = some x) (linked : Linked m x xs) :
    Linked m log (x :: xs) := by
  apply Chain.cons
  show Chain _ (m log).next _
  rw [next]
  exact linked

theorem Linked.single (next : (m log).next = none) : Linked m log [] := by
  apply Chain.cons
  show Chain _ (m log).next _
  rw [next]
  exact .nil

theorem Linked.tail (linked : Linked m log (x :: xs)) : Linked m x xs := by
  have next : (m log).next = some x := linked.next
  cases linked with
  | cons rest =>
    change Chain _ (m log).next (x :: xs) at rest
    rw [next] at rest
    exact rest

theorem contents_congr {vs : List ν} (same : ∀ x ∈ vs, m' x = m x) :
    contents m' vs = contents m vs :=
  List.map_congr_left fun x member => congrArg Log.toEntry (same x member)

variable [DecidableEq ν]

def store (log : ν) (contents : Log ν δ) (m : Memory ν δ) : Memory ν δ :=
  Function.update m log contents

def insertBehind (newLog : ν) : Nat → ν → Memory ν δ → Option (Memory ν δ)
  | 0, _, _ => none
  | fuel + 1, log, m =>
    match (m log).next with
    | some next =>
      if (m newLog).logLevel > (m next).logLevel then
        let m := store newLog { m newLog with next := (m log).next } m
        some (store log { m log with next := some newLog } m)
      else insertBehind newLog fuel next m
    | none => some (store log { m log with next := some newLog } m)

def logInsert (fuel : Nat) (log newLog : ν) (m : Memory ν δ) : Option (Memory ν δ) :=
  if (m newLog).logLevel > (m log).logLevel then
    let tmp := m log
    let m := store log (m newLog) m
    let m := store newLog tmp m
    some (store log { m log with next := some newLog } m)
  else insertBehind newLog fuel log m

def insertAll (fuel : Nat) (head : ν) : List (ν × Entry δ) → Memory ν δ → Option (Memory ν δ)
  | [], m => some m
  | (newLog, contents) :: logs, m =>
    (logInsert fuel head newLog (store newLog { contents with next := none } m)).bind
      (insertAll fuel head logs)

def logDebugConnection : UInt64 := 0x80000000

/-- What is done with the message: a log's writer is called, or it is written to a file. -/
inductive Written (ν : Type) where
  | writer (log : ν) (level : UInt64) (msg : List UInt8)
  | file (log : ν) (fd : Nat) (msg : List UInt8)
  deriving DecidableEq

/-- The loop of `ngx_log_error_core` at `ngx_time() == now`; `full` are the logs whose file system
has no space left. -/
def errorCoreLoop (level : UInt64) (msg : List UInt8) (now : Int) (full : ν → Bool)
    (debugConnection : Bool) :
    Nat → Option ν → Memory ν δ → Option (Memory ν δ × List (Written ν))
  | 0, _, _ => none
  | _ + 1, none, m => some (m, [])
  | fuel + 1, some log, m =>
    let next := errorCoreLoop level msg now full debugConnection fuel (m log).next
    if (m log).logLevel < level ∧ ¬ debugConnection then some (m, [])
    else
      match (m log).writer with
      | some _ => (next m).map fun (m, written) => (m, .writer log level msg :: written)
      | none =>
        if now = (m log).diskFullTime then next m
        else
          let m := if full log then store log { m log with diskFullTime := now } m else m
          (next m).map fun (m', written) => (m', .file log (m log).fd msg :: written)

def errorCore (level : UInt64) (msg : List UInt8) (now : Int) (full : ν → Bool) (fuel : Nat)
    (log : ν) (m : Memory ν δ) : Option (Memory ν δ × List (Written ν)) :=
  errorCoreLoop level msg now full ((m log).logLevel &&& logDebugConnection ≠ 0) fuel (some log) m

@[simp] theorem store_same : store x c m x = c := Function.update_self _ _ _

theorem store_other {y : ν} (other : y ≠ x) : store x c m y = m y := Function.update_of_ne other _ _

/-- A store to the link of a log leaves all contents. -/
theorem store_next_toEntry (m : Memory ν δ) (x : ν) (next : Option ν) (y : ν) :
    (store x { m x with next := next } m y).toEntry = (m y).toEntry := by
  by_cases same : y = x
  · rw [same, store_same]
  · rw [store_other same]

/-- A chain gets a log in front of it. -/
theorem Linked.lead (linked : Linked m x xs) (fresh : log ∉ x :: xs) :
    Linked (store log { m log with next := some x } m) log (x :: xs) :=
  Linked.cons (by rw [store_same]) (linked.congr fun _ member =>
    store_other fun same => fresh (same ▸ member))

/-- Behind `log` the new log is put before the first that has a lower level. -/
theorem insertBehind_linked {fuel : Nat} (linked : Linked m log xs) (distinct : (log :: xs).Nodup)
    (fresh : newLog ∉ log :: xs) (alone : (m newLog).next = none) (enough : xs.length < fuel) :
    ∃ m', insertBehind newLog fuel log m = some m' ∧
      Linked m' log
        (xs.orderedInsert (fun a b => Before (m a).toEntry (m b).toEntry) newLog) ∧
      (∀ y, (m' y).toEntry = (m y).toEntry) ∧ ∀ y ∉ newLog :: log :: xs, m' y = m y := by
  induction xs generalizing log fuel with
  | nil =>
    obtain ⟨fuel, rfl⟩ := Nat.exists_eq_add_one.mpr enough
    have next : (m log).next = none := linked.next
    have other : newLog ≠ log := fun same => fresh (same ▸ List.mem_cons_self)
    refine ⟨_, by rw [insertBehind, next], ?_, store_next_toEntry m log _, fun y outside => ?_⟩
    · exact (Linked.single alone).lead (by simpa using other.symm)
    · exact store_other fun same => outside (by simp [same])
  | cons x xs ih =>
    obtain ⟨fuel, rfl⟩ := Nat.exists_eq_add_one.mpr (Nat.zero_lt_of_lt enough)
    have next : (m log).next = some x := linked.next
    obtain ⟨log_fresh, rest_distinct⟩ := List.nodup_cons.mp distinct
    have other : newLog ≠ log := fun same => fresh (same ▸ List.mem_cons_self)
    have rest_fresh : newLog ∉ x :: xs := fun member => fresh (List.mem_cons_of_mem log member)
    by_cases higher : (m newLog).logLevel > (m x).logLevel
    · have stands : ((x :: xs).orderedInsert
          (fun a b => Before (m a).toEntry (m b).toEntry) newLog) = newLog :: x :: xs :=
        List.orderedInsert_cons_of_le _ _ higher
      rw [stands]
      refine ⟨_, by rw [insertBehind, next]; exact if_pos higher, ?_, fun y => ?_,
        fun y outside => ?_⟩
      · refine (linked.tail.lead rest_fresh).lead fun member => ?_
        rcases List.mem_cons.mp member with same | member
        · exact other same.symm
        · exact log_fresh member
      · exact (store_next_toEntry _ log _ y).trans (store_next_toEntry m newLog _ y)
      · rw [store_other fun same => outside (by simp [same]),
          store_other fun same => outside (by simp [same])]
    · have stands : ((x :: xs).orderedInsert
          (fun a b => Before (m a).toEntry (m b).toEntry) newLog) =
          x :: xs.orderedInsert (fun a b => Before (m a).toEntry (m b).toEntry) newLog :=
        List.orderedInsert_of_not_le _ _ higher
      rw [stands]
      obtain ⟨m', inserts, linked', entries, frame⟩ :=
        ih linked.tail rest_distinct rest_fresh (Nat.lt_of_succ_lt_succ enough)
      refine ⟨m', ?_, Linked.cons ?_ linked', entries, fun y outside => frame y fun member => ?_⟩
      · rw [insertBehind, next]
        exact (if_neg higher).trans inserts
      · rw [frame log fun member => ?_]
        · exact next
        · rcases List.mem_cons.mp member with same | member
          · exact other same.symm
          · exact log_fresh member
      · apply outside
        simp only [List.mem_cons] at member ⊢
        tauto

/-- An insertion keeps the address of the head and inserts the new contents by level. -/
theorem logInsert_linked {fuel : Nat} (linked : Linked m head xs) (distinct : (head :: xs).Nodup)
    (fresh : newLog ∉ head :: xs) (alone : (m newLog).next = none) (enough : xs.length < fuel) :
    ∃ m' ys, logInsert fuel head newLog m = some m' ∧ Linked m' head ys ∧
      (head :: ys).Perm (newLog :: head :: xs) ∧
      contents m' (head :: ys) =
        (contents m (head :: xs)).orderedInsert Before (m newLog).toEntry := by
  by_cases higher : (m newLog).logLevel > (m head).logLevel
  · have other : newLog ≠ head := fun same => fresh (same ▸ List.mem_cons_self)
    have head_fresh := (List.nodup_cons.mp distinct).1
    have kept : ∀ y ∈ xs, ∀ c c' c'' : Log ν δ,
        store head c (store newLog c' (store head c'' m)) y = m y := by
      intro y member c c' c''
      have not_head : y ≠ head := fun same => head_fresh (same ▸ member)
      have not_new : y ≠ newLog := fun same => fresh (same ▸ List.mem_cons_of_mem head member)
      rw [store_other not_head, store_other not_new, store_other not_head]
    refine ⟨_, newLog :: xs, by rw [logInsert, if_pos higher], ?_, List.Perm.swap _ _ _, ?_⟩
    · refine Linked.cons (by rw [store_same]) (Chain.cons ?_)
      cases linked with
      | cons rest =>
        simp only [store_other other, store_same]
        exact rest.congr fun y member => congrArg Log.next (kept y member _ _ _)
    · have stands : (contents m (head :: xs)).orderedInsert Before (m newLog).toEntry =
          (m newLog).toEntry :: contents m (head :: xs) := List.orderedInsert_cons_of_le _ _ higher
      rw [stands]
      simp only [contents, List.map_cons, store_same, store_other other, store_other other.symm]
      congr 2
      exact List.map_congr_left fun y member => congrArg Log.toEntry (kept y member _ _ _)
  · obtain ⟨m', inserts, linked', entries, -⟩ :=
      insertBehind_linked linked distinct fresh alone enough
    refine ⟨m', _, by rw [logInsert, if_neg higher]; exact inserts, linked', ?_, ?_⟩
    · exact ((List.perm_orderedInsert _ _ _).cons head).trans (List.Perm.swap _ _ _)
    · have same : ∀ zs, contents m' zs = contents m zs :=
        fun zs => List.map_congr_left fun y _ => entries y
      have stands : (contents m (head :: xs)).orderedInsert Before (m newLog).toEntry =
          (m head).toEntry :: (contents m xs).orderedInsert Before (m newLog).toEntry :=
        List.orderedInsert_of_not_le _ _ higher
      rw [same, stands, contents, List.map_cons, contents,
        List.map_orderedInsert _ Before (fun x => (m x).toEntry) xs newLog (fun _ _ => Iff.rfl)
          fun _ _ => Iff.rfl]

theorem insertAll_linked {fuel : Nat} {logs : List (ν × Entry δ)} (linked : Linked m head xs)
    (distinct : (logs.map Prod.fst ++ head :: xs).Nodup)
    (enough : xs.length + logs.length < fuel + 1) :
    ∃ m' ys, insertAll fuel head logs m = some m' ∧ Linked m' head ys ∧
      (head :: ys).Perm (logs.map Prod.fst ++ head :: xs) ∧
      contents m' (head :: ys) = insertions (logs.map Prod.snd) (contents m (head :: xs)) := by
  induction logs generalizing m xs with
  | nil => exact ⟨m, xs, rfl, linked, List.Perm.refl _, rfl⟩
  | cons log logs ih =>
    obtain ⟨newLog, entry⟩ := log
    rw [List.map_cons, List.cons_append, List.nodup_cons, List.mem_append, not_or] at distinct
    obtain ⟨⟨unused, fresh⟩, rest_distinct⟩ := distinct
    rw [List.length_cons] at enough
    have kept : ∀ x ∈ head :: xs, store newLog { entry with next := none } m x = m x := by
      intro x member
      exact store_other fun same => fresh (same ▸ member)
    have short : xs.length < fuel := by omega
    obtain ⟨m', ys, inserts, linked', perm, contents_eq⟩ := logInsert_linked (linked.congr kept)
      (List.nodup_append.mp rest_distinct).2.1 fresh (by rw [store_same]) short
    rw [contents_congr kept, store_same] at contents_eq
    have moved : (logs.map Prod.fst ++ head :: ys).Perm
        (newLog :: (logs.map Prod.fst ++ head :: xs)) :=
      (perm.append_left _).trans List.perm_middle
    have length : ys.length = xs.length + 1 := Nat.succ.inj perm.length_eq
    obtain ⟨m'', zs, inserts', linked'', perm', contents_eq'⟩ := ih linked'
      (moved.nodup_iff.mpr (List.nodup_cons.mpr
        ⟨fun member => (List.mem_append.mp member).elim unused fresh, rest_distinct⟩))
      (by omega)
    refine ⟨m'', zs, ?_, linked'', perm'.trans moved, ?_⟩
    · rw [insertAll, inserts]
      exact inserts'
    · rw [contents_eq', contents_eq]
      rfl

/-- In an ordered chain the loop ends behind the last log whose level is high enough. -/
theorem errorCoreLoop_eq (level : UInt64) (msg : List UInt8) (now : Int) (full : ν → Bool)
    {fuel : Nat} {start : Option ν} (chain : Chain (fun x => (m x).next) start xs)
    (ordered : Ordered (contents m xs)) (writers : ∀ x ∈ xs, (m x).writer ≠ none)
    (enough : xs.length < fuel) :
    errorCoreLoop level msg now full false fuel start m =
      some (m, (xs.filter fun x => level ≤ (m x).logLevel).map (.writer · level msg)) := by
  induction chain generalizing fuel with
  | nil =>
    obtain ⟨fuel, rfl⟩ := Nat.exists_eq_add_one.mpr enough
    rfl
  | @cons x xs chain ih =>
    obtain ⟨fuel, rfl⟩ := Nat.exists_eq_add_one.mpr (Nat.zero_lt_of_lt enough)
    obtain ⟨below, rest⟩ := List.pairwise_cons.mp ordered
    by_cases low : (m x).logLevel < level
    · have none_left : ((x :: xs).filter fun y => level ≤ (m y).logLevel) = [] := by
        rw [List.filter_eq_nil_iff]
        intro y member
        have le : (m y).logLevel ≤ (m x).logLevel := by
          rcases List.mem_cons.mp member with rfl | member
          · exact UInt64.le_refl _
          · exact below _ (List.mem_map_of_mem member)
        simpa using UInt64.lt_of_le_of_lt le low
      rw [errorCoreLoop, if_pos ⟨low, by simp⟩, none_left]
      rfl
    · obtain ⟨w, writer⟩ := Option.ne_none_iff_exists'.mp (writers x List.mem_cons_self)
      have later := ih rest (fun y member => writers y (List.mem_cons_of_mem x member))
        (Nat.lt_of_succ_lt_succ enough)
      have high : level ≤ (m x).logLevel := UInt64.not_lt.mp low
      rw [errorCoreLoop, if_neg fun both => low both.1, writer]
      simp [later, high]

/-- The chain built by insertions, and what a message is written to. -/
theorem logs_ordered (m : Memory ν δ) (head : ν) (logs : List (ν × Entry δ))
    (single : (m head).next = none) (distinct : (logs.map Prod.fst ++ [head]).Nodup) {fuel : Nat}
    (enough : logs.length + 1 < fuel) :
    ∃ m' ys, insertAll fuel head logs m = some m' ∧ Linked m' head ys ∧
      (head :: ys).Perm (logs.map Prod.fst ++ [head]) ∧
      (contents m' (head :: ys)).Perm (logs.map Prod.snd ++ [(m head).toEntry]) ∧
      Ordered (contents m' (head :: ys)) ∧
      ((∀ e ∈ logs.map Prod.snd ++ [(m head).toEntry],
          e.logLevel &&& logDebugConnection = 0 ∧ e.writer ≠ none) →
        ∀ level msg now full, errorCore level msg now full fuel head m' = some (m',
          ((head :: ys).filter fun x => level ≤ (m' x).logLevel).map (.writer · level msg))) := by
  obtain ⟨m', ys, inserts, linked, perm, contents_eq⟩ :=
    insertAll_linked (Linked.single single) distinct
      (show [].length + logs.length < fuel + 1 by rw [List.length_nil]; omega)
  have same : (contents m' (head :: ys)).Perm (logs.map Prod.snd ++ [(m head).toEntry]) := by
    rw [contents_eq]
    exact insertions_perm _ _
  have ordered : Ordered (contents m' (head :: ys)) := by
    rw [contents_eq]
    exact Ordered.insertions (List.pairwise_singleton _ _) _
  refine ⟨m', ys, inserts, linked, perm, same, ordered, fun plain level msg now full => ?_⟩
  have plain : ∀ x ∈ head :: ys,
      (m' x).logLevel &&& logDebugConnection = 0 ∧ (m' x).writer ≠ none :=
    fun x member => plain _ (same.mem_iff.mp (List.mem_map_of_mem member))
  have no_debug : decide ((m' head).logLevel &&& logDebugConnection ≠ 0) = false := by
    simpa using (plain head List.mem_cons_self).1
  have length := perm.length_eq
  rw [errorCore, no_debug]
  refine errorCoreLoop_eq level msg now full linked ordered
    (fun x member => (plain x member).2) ?_
  simp only [List.length_cons, List.length_append, List.length_map, List.length_nil] at length ⊢
  omega

def writing (logLevel : UInt64) : Entry Unit := ⟨logLevel, some 0, 2, 0, ()⟩

def twoLogs : List (Nat × Entry Unit) := [(1, writing 8), (2, writing 2)]

theorem logs_ordered_three :
    ∃ m' ys, insertAll 4 0 twoLogs (fun _ => ⟨writing 4, none⟩) = some m' ∧ Linked m' 0 ys ∧
      (0 :: ys).Perm (twoLogs.map Prod.fst ++ [0]) ∧
      (contents m' (0 :: ys)).Perm (twoLogs.map Prod.snd ++ [writing 4]) ∧
      Ordered (contents m' (0 :: ys)) ∧
      ((∀ e ∈ twoLogs.map Prod.snd ++ [writing 4],
          e.logLevel &&& logDebugConnection = 0 ∧ e.writer ≠ none) →
        ∀ level msg now full, errorCore level msg now full 4 0 m' = some (m',
          ((0 :: ys).filter fun x => level ≤ (m' x).logLevel).map (.writer · level msg))) :=
  logs_ordered _ 0 twoLogs rfl (by decide) (by decide)

end Ngx.Logging
