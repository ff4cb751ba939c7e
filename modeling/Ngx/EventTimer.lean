import Ngx.RbtreeDelete

/-! The timers of the events, kept in a red-black tree by the time they run out. -/
namespace Ngx.Timer

open Ngx.Core Ngx.Core.Rbtree RedBlack

variable {ν σ : Type*}

/-- The timers of a process. An event and the node in it go by one name, and `rest` is what else
the handlers read and write. -/
structure Timers (ν σ : Type*) where
  rbtree : Rbtree ν
  currentMsec : UInt64
  timerSet : ν → Bool
  timedout : ν → Bool
  cancelable : ν → Bool
  rest : σ

section Model

variable [DecidableEq ν]

def timerInit (sentinel : ν) (t : Timers ν σ) : Timers ν σ :=
  { t with rbtree := rbtreeInit sentinel t.rbtree }

def delTimer (fuel : Nat) (ev : ν) (t : Timers ν σ) : Option (Timers ν σ) :=
  (rbtreeDelete fuel ev t.rbtree).map fun rbtree =>
    { t with rbtree := rbtree, timerSet := Function.update t.timerSet ev false }

/-- The part of `ngx_event_add_timer` that enters the event. -/
def enterTimer (fuel : Nat) (ev : ν) (key : UInt64) (t : Timers ν σ) : Option (Timers ν σ) :=
  (rbtreeInsert fuel rbtreeInsertTimerValue ev (t.rbtree.setKey ev key)).map fun rbtree =>
    { t with rbtree := rbtree, timerSet := Function.update t.timerSet ev true }

def msecAbs (diff : Int64) : Int64 := if diff ≥ 0 then diff else -diff

def lazyDelay : Int64 := 300

def addTimer (fuel : Nat) (ev : ν) (timer : UInt64) (t : Timers ν σ) : Option (Timers ν σ) :=
  let key := t.currentMsec + timer
  if t.timerSet ev then
    let diff := (key - t.rbtree.key ev).toInt64
    if msecAbs diff < lazyDelay then some t
    else (delTimer fuel ev t).bind (enterTimer fuel ev key)
  else enterTimer fuel ev key t

def timerInfinite : UInt64 := -1

def findTimer (fuel : Nat) (t : Timers ν σ) : Option UInt64 :=
  if t.rbtree.root = t.rbtree.sentinel then some timerInfinite
  else
    (rbtreeMin t.rbtree t.rbtree.sentinel fuel t.rbtree.root).map fun node =>
      let timer := (t.rbtree.key node - t.currentMsec).toInt64
      if timer > 0 then timer.toUInt64 else 0

/-- The loop of `ngx_event_no_timers_left`: whether every timer from `node` on is cancelable. -/
def cancelableFrom (t : Timers ν σ) (fuel : Nat) : Nat → ν → Option Bool
  | 0, _ => none
  | rounds + 1, node =>
    if node = t.rbtree.null then some true
    else if !t.cancelable node then some false
    else (rbtreeNext fuel node t.rbtree).bind (cancelableFrom t fuel rounds)

/-- `ngx_event_no_timers_left`, true for `NGX_OK` and false for `NGX_AGAIN`. -/
def noTimersLeft (fuel rounds : Nat) (t : Timers ν σ) : Option Bool :=
  if t.rbtree.root = t.rbtree.sentinel then some true
  else (rbtreeMin t.rbtree t.rbtree.sentinel fuel t.rbtree.root).bind (cancelableFrom t fuel rounds)

end Model

/-- The timers that are set, in the order in which they run out, all within half the range of the
clock from `base`. -/
structure Scheduled (base : UInt64) (t : Timers ν σ) (xs : List ν) : Prop where
  tree : t.rbtree.Represents xs
  sorted : Sorted (offset base) t.rbtree xs
  set : ∀ e, t.timerSet e = true ↔ e ∈ xs
  near : ∀ e ∈ xs, offset base (t.rbtree.key e) < 2 ^ 63

variable {base key timer : UInt64} {t : Timers ν σ} {xs ys : List ν} {e : ν} {fuel : Nat}

def Timers.expiry (base : UInt64) (t : Timers ν σ) (e : ν) : Nat := offset base (t.rbtree.key e)

def Timers.now (base : UInt64) (t : Timers ν σ) : Nat := offset base t.currentMsec

theorem Scheduled.nodup (scheduled : Scheduled base t xs) : xs.Nodup := by
  obtain ⟨tree, view, _, nodes⟩ := scheduled.tree
  rw [← nodes]
  exact view.distinct.of_append_left

theorem Scheduled.real (scheduled : Scheduled base t xs) (member : e ∈ xs) :
    e ≠ t.rbtree.sentinel := by
  obtain ⟨tree, view, _, nodes⟩ := scheduled.tree
  rintro rfl
  exact view.sentinel_notMem (List.mem_append_left _ (nodes ▸ member))

theorem Scheduled.empty_iff (scheduled : Scheduled base t xs) :
    t.rbtree.root = t.rbtree.sentinel ↔ xs = [] := by
  obtain ⟨tree, view, _, nodes⟩ := scheduled.tree
  rw [view.eq_leaf_iff, ← nodes]
  cases tree with
  | leaf => simp
  | node c l x r => simp

structure Elsewhere (e : ν) (t t' : Timers ν σ) : Prop where
  key : ∀ f, f ≠ e → t'.rbtree.key f = t.rbtree.key f
  set : ∀ f, f ≠ e → t'.timerSet f = t.timerSet f
  sentinel : t'.rbtree.sentinel = t.rbtree.sentinel
  null : t'.rbtree.null = t.rbtree.null
  clock : t'.currentMsec = t.currentMsec
  timedout : t'.timedout = t.timedout
  cancelable : t'.cancelable = t.cancelable
  rest : t'.rest = t.rest

theorem Elsewhere.refl (e : ν) (t : Timers ν σ) : Elsewhere e t t :=
  ⟨fun _ _ => rfl, fun _ _ => rfl, rfl, rfl, rfl, rfl, rfl, rfl⟩

theorem Elsewhere.trans {t' t'' : Timers ν σ} (first : Elsewhere e t t')
    (second : Elsewhere e t' t'') : Elsewhere e t t'' where
  key f distinct := (second.key f distinct).trans (first.key f distinct)
  set f distinct := (second.set f distinct).trans (first.set f distinct)
  sentinel := second.sentinel.trans first.sentinel
  null := second.null.trans first.null
  clock := second.clock.trans first.clock
  timedout := second.timedout.trans first.timedout
  cancelable := second.cancelable.trans first.cancelable
  rest := second.rest.trans first.rest

theorem Scheduled.first (scheduled : Scheduled base t (e :: xs)) :
    ∀ f ∈ e :: xs, t.expiry base e ≤ t.expiry base f := by
  intro f member
  obtain rfl | later := List.mem_cons.mp member
  · exact Nat.le_refl _
  · exact (List.pairwise_cons.mp scheduled.sorted).1 f later

variable [DecidableEq ν]

theorem Scheduled.del (scheduled : Scheduled base t xs) (member : e ∈ xs)
    (enough : 2 * Nat.log 2 (xs.length + 1) + 2 ≤ fuel) :
    ∃ t', delTimer fuel e t = some t' ∧ Scheduled base t' (xs.erase e) ∧ Elsewhere e t t' := by
  obtain ⟨before, after, rfl⟩ := List.append_of_mem member
  obtain ⟨m, deleted, tree, removed⟩ := scheduled.tree.delete enough
  have absent : e ∉ before ∧ e ∉ after := by
    have distinct := List.nodup_middle.mp scheduled.nodup
    simpa using (List.nodup_cons.mp distinct).1
  have erased : (before ++ e :: after).erase e = before ++ after := by
    rw [List.erase_append_right _ absent.1, List.erase_cons_head]
  have inside : before ++ after ⊆ before ++ e :: after := by
    intro f member
    simp only [List.mem_append, List.mem_cons] at *
    tauto
  have other : ∀ f ∈ before ++ after, f ≠ e := by
    rintro f stays rfl
    exact (List.mem_append.mp stays).elim absent.1 absent.2
  have key : ∀ f, f ≠ e → m.key f = t.rbtree.key f := by
    intro f distinct
    rw [removed.within.key]
    exact Function.update_of_ne distinct _ _
  have sorted := scheduled.sorted.sublist (List.Sublist.refl before |>.append (List.sublist_cons_self e after))
  refine ⟨_, congrArg _ deleted, erased.symm ▸ ⟨tree, ?_, ?_, ?_⟩, ?_⟩
  · refine sorted.imp_of_mem fun {a b} memberA memberB le => ?_
    rw [key a (other a memberA), key b (other b memberB)]
    exact le
  · intro f
    by_cases same : f = e
    · subst same
      simp [absent]
    · have before := scheduled.set f
      simp only [Function.update_of_ne same, List.mem_append, List.mem_cons] at before ⊢
      tauto
  · intro f member
    have near := scheduled.near f (inside member)
    rw [← key f (other f member)] at near
    exact near
  · exact ⟨key, fun f distinct => Function.update_of_ne distinct _ _, removed.within.sentinel,
      removed.within.null, rfl, rfl, rfl, rfl⟩

theorem Scheduled.enter (scheduled : Scheduled base t xs) (fresh : e ∉ xs)
    (real : e ≠ t.rbtree.sentinel) (near : offset base key < 2 ^ 63)
    (enough : 2 * Nat.log 2 (xs.length + 1) + 2 ≤ fuel) :
    ∃ t', enterTimer fuel e key t = some t' ∧
      Scheduled base t' (placed (offset base) t'.rbtree e xs) ∧ Elsewhere e t t' ∧
      t'.rbtree.key e = key := by
  have other : ∀ f ∈ xs, f ≠ e := fun f member => ne_of_mem_of_not_mem member fresh
  have kept : ∀ f, f ≠ e → (t.rbtree.setKey e key).key f = t.rbtree.key f :=
    fun f distinct => Function.update_of_ne distinct _ _
  have own : (t.rbtree.setKey e key).key e = key := Function.update_self _ _ _
  have sorted : Sorted (offset base) (t.rbtree.setKey e key) xs := by
    refine scheduled.sorted.imp_of_mem fun {a b} memberA memberB le => ?_
    rw [kept a (other a memberA), kept b (other b memberB)]
    exact le
  have keyed : (t.rbtree.setKey e key).Represents xs := scheduled.tree.setKey
  obtain ⟨m, inserted, tree, ordered, within⟩ := keyed.insert_sorted timerLess (offset base) sorted
    (fun y member => by
      rw [own, kept y (other y member)]
      exact timerLess_eq near (scheduled.near y member))
    real fresh enough
  have same : placed (offset base) m e xs = placed (offset base) (t.rbtree.setKey e key) e xs := by
    rw [placed, placed, within.key]
  have mem : ∀ f, f ∈ placed (offset base) m e xs ↔ f = e ∨ f ∈ xs := fun f => List.mem_orderedInsert _
  refine ⟨_, congrArg _ inserted, ⟨same ▸ tree, same ▸ ordered, ?_, ?_⟩, ?_, ?_⟩
  · intro f
    rw [mem]
    by_cases same : f = e
    · simp [same]
    · simp only [Function.update_of_ne same, same, false_or]
      exact scheduled.set f
  · intro f member
    change offset base (m.key f) < 2 ^ 63
    rw [within.key]
    obtain rfl | inside := (mem f).mp member
    · rw [own]
      exact near
    · rw [kept f (other f inside)]
      exact scheduled.near f inside
  · refine ⟨fun f distinct => ?_, fun f distinct => Function.update_of_ne distinct _ _, within.sentinel,
      within.null, rfl, rfl, rfl, rfl⟩
    rw [← kept f distinct]
    exact congrFun within.key f
  · exact (congrFun within.key e).trans own

theorem offset_add (near : offset base key + timer.toNat < 2 ^ 63) :
    offset base (key + timer) = offset base key + timer.toNat := by
  have boundA := key.toNat_lt
  have boundB := base.toNat_lt
  simp only [offset, UInt64.toNat_sub, UInt64.toNat_add] at *
  omega

theorem msecAbs_lt {diff : Int64} (proper : diff.toInt ≠ -2 ^ 63) :
    msecAbs diff < lazyDelay ↔ diff.toInt < 300 ∧ -300 < diff.toInt := by
  have low := diff.le_toInt
  have high := diff.toInt_lt
  have delay : lazyDelay.toInt = 300 := rfl
  have zero : (0 : Int64).toInt = 0 := rfl
  rw [Int64.lt_iff_toInt_lt, delay, msecAbs]
  split
  case isTrue nonneg =>
    rw [ge_iff_le, Int64.le_iff_toInt_le, zero] at nonneg
    omega
  case isFalse negative =>
    rw [ge_iff_le, Int64.le_iff_toInt_le, zero] at negative
    rw [Int64.toInt_neg, Int.bmod_eq_of_le (by omega) (by omega)]
    omega

/-- What `ngx_event_add_timer` does to the schedule: a timer that already runs out within less than
the lazy delay of the new time is kept, any other is entered anew. -/
theorem Scheduled.add (scheduled : Scheduled base t xs) (real : e ≠ t.rbtree.sentinel)
    (near : t.now base + timer.toNat < 2 ^ 63)
    (enough : 2 * Nat.log 2 (xs.length + 1) + 2 ≤ fuel) :
    ∃ t' ys, addTimer fuel e timer t = some t' ∧ Scheduled base t' ys ∧ Elsewhere e t t' ∧
      (t'.expiry base e = t.now base + timer.toNat ∧
          ys = placed (offset base) t'.rbtree e (xs.erase e) ∨
        t' = t ∧ ys = xs ∧ e ∈ xs ∧ t.expiry base e < t.now base + timer.toNat + 300 ∧
          t.now base + timer.toNat < t.expiry base e + 300) := by
  have target : offset base (t.currentMsec + timer) = t.now base + timer.toNat := offset_add near
  have near' : offset base (t.currentMsec + timer) < 2 ^ 63 := target ▸ near
  by_cases member : e ∈ xs
  · have set : t.timerSet e = true := (scheduled.set e).mpr member
    have old := scheduled.near e member
    have value := toInt_diff near' old
    have lazily : msecAbs (t.currentMsec + timer - t.rbtree.key e).toInt64 < lazyDelay ↔
        t.expiry base e < t.now base + timer.toNat + 300 ∧
          t.now base + timer.toNat < t.expiry base e + 300 := by
      rw [msecAbs_lt (by omega), value, target, Timers.expiry]
      omega
    by_cases lazy : msecAbs (t.currentMsec + timer - t.rbtree.key e).toInt64 < lazyDelay
    · refine ⟨t, xs, ?_, scheduled, .refl e t, .inr ⟨rfl, rfl, member, lazily.mp lazy⟩⟩
      simp only [addTimer, set, if_true, if_pos lazy]
    · obtain ⟨t₁, deleted, without, first⟩ := scheduled.del member enough
      have distinct := scheduled.nodup
      have fewer : (xs.erase e).length + 1 ≤ xs.length + 1 := by
        rw [List.length_erase_of_mem member]
        omega
      obtain ⟨t₂, entered, again, second, key⟩ := without.enter distinct.not_mem_erase
        (first.sentinel ▸ real) near'
        ((Nat.add_le_add_right (Nat.mul_le_mul_left 2 (Nat.log_mono_right fewer)) 2).trans enough)
      refine ⟨t₂, _, ?_, again, first.trans second, .inl ⟨?_, rfl⟩⟩
      · simp only [addTimer, set, if_true, if_neg lazy, deleted]
        exact entered
      · rw [Timers.expiry, key, target]
  · have unset : t.timerSet e = false := by
      rw [← Bool.not_eq_true, scheduled.set]
      exact member
    obtain ⟨t', entered, again, elsewhere, key⟩ := scheduled.enter member real near' enough
    refine ⟨t', _, ?_, again, elsewhere, .inl ⟨?_, ?_⟩⟩
    · simp only [addTimer, unset]
      exact entered
    · rw [Timers.expiry, key, target]
    · rw [List.erase_of_not_mem member]

/-- What `ngx_event_find_timer` gives is the time that is left to the earliest timer. -/
theorem Scheduled.find (scheduled : Scheduled base t xs) (near : t.now base < 2 ^ 63)
    (enough : 2 * Nat.log 2 (xs.length + 1) ≤ fuel) :
    ∃ wait, findTimer fuel t = some wait ∧ (xs = [] → wait = timerInfinite) ∧
      ∀ e ∈ xs, (∀ f ∈ xs, t.expiry base e ≤ t.expiry base f) →
        wait.toNat = t.expiry base e - t.now base := by
  cases xs with
  | nil =>
    refine ⟨timerInfinite, ?_, fun _ => rfl, fun e member => by cases member⟩
    rw [findTimer, if_pos (scheduled.empty_iff.mpr rfl)]
  | cons e xs =>
    have inner : t.rbtree.root ≠ t.rbtree.sentinel := fun same => by
      cases scheduled.empty_iff.mp same
    have value := toInt_diff (scheduled.near e List.mem_cons_self) near
    have zero : (0 : Int64).toInt = 0 := rfl
    let diff := (t.rbtree.key e - t.currentMsec).toInt64
    refine ⟨if diff > 0 then diff.toUInt64 else 0, ?_, ?_, ?_⟩
    · rw [findTimer, if_neg inner, scheduled.tree.min enough]
      rfl
    · intro empty
      cases empty
    · intro f member least
      have same : t.expiry base f = t.expiry base e :=
        Nat.le_antisymm (least e List.mem_cons_self) (scheduled.first f member)
      rw [same, Timers.expiry, Timers.now]
      rw [← Timers.now] at value
      split
      case isTrue later =>
        rw [gt_iff_lt, Int64.lt_iff_toInt_lt, zero, value] at later
        exact toNat_diff (by rw [← Timers.now]; omega)
      case isFalse due =>
        rw [gt_iff_lt, Int64.lt_iff_toInt_lt, zero, value] at due
        have none : (0 : UInt64).toNat = 0 := rfl
        rw [none, ← Timers.now]
        omega

theorem Scheduled.cancelableFrom (scheduled : Scheduled base t xs) (real : t.rbtree.null ∉ xs)
    (enough : 2 * Nat.log 2 (xs.length + 1) ≤ fuel) :
    ∀ (ys zs : List ν) (rounds : Nat), xs = ys ++ zs → zs.length < rounds →
      Timer.cancelableFrom t fuel rounds (zs.headD t.rbtree.null) = some (zs.all t.cancelable)
  | _, _, 0, _, short => absurd short (by omega)
  | ys, [], rounds + 1, _, _ => by simp [Timer.cancelableFrom]
  | ys, e :: zs, rounds + 1, split, short => by
    have inside : e ≠ t.rbtree.null := by
      rintro rfl
      exact real (by simp [split])
    rw [List.headD_cons, Timer.cancelableFrom, if_neg inside]
    cases cancelable : t.cancelable e with
    | false => simp [cancelable]
    | true =>
      have whole : t.rbtree.Represents (ys ++ e :: zs) := split ▸ scheduled.tree
      have walk : rbtreeNext fuel e t.rbtree = some (zs.headD t.rbtree.null) :=
        whole.next (split ▸ enough)
      have rest := scheduled.cancelableFrom real enough (ys ++ [e]) zs rounds (by simp [split])
        (by simpa using short)
      simp only [Bool.not_true, Bool.false_eq_true, if_false, walk, Option.bind_some, rest]
      simp [cancelable]

/-- `ngx_event_no_timers_left` says that none is left exactly when every timer is cancelable. -/
theorem Scheduled.none_left (scheduled : Scheduled base t xs) (real : t.rbtree.null ∉ xs)
    (enough : 2 * Nat.log 2 (xs.length + 1) ≤ fuel) {rounds : Nat} (long : xs.length < rounds) :
    noTimersLeft fuel rounds t = some (xs.all t.cancelable) := by
  cases xs with
  | nil => rw [noTimersLeft, if_pos (scheduled.empty_iff.mpr rfl)]; rfl
  | cons e xs =>
    have inner : t.rbtree.root ≠ t.rbtree.sentinel := fun same => by
      cases scheduled.empty_iff.mp same
    rw [noTimersLeft, if_neg inner, scheduled.tree.min enough, Option.bind_some]
    exact scheduled.cancelableFrom real enough [] (e :: xs) rounds rfl long

end Ngx.Timer
