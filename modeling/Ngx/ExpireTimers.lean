import Ngx.EventTimer

/-! The loop that calls the handlers of the timers that have run out, and the runs of a process. -/
namespace Ngx.Timer

open Ngx.Core Ngx.Core.Rbtree RedBlack

variable {ν σ : Type*}

/-- What a handler may do to a timer. Every caller of `ngx_del_timer` first looks at `timer_set`. -/
inductive TimerOp (ν : Type*)
  | add (ev : ν) (timer : UInt64)
  | del (ev : ν)

def TimerOp.event : TimerOp ν → ν
  | .add ev _ => ev
  | .del ev => ev

/-- A handler, which is called with its event: the timers it adds and deletes, one after the other,
and what else it leaves behind. -/
abbrev Handler (ν σ : Type*) := ν → Timers ν σ → List (TimerOp ν) × σ

section Model

variable [DecidableEq ν]

def runOp (fuel : Nat) (t : Timers ν σ) : TimerOp ν → Option (Timers ν σ)
  | .add ev timer => addTimer fuel ev timer t
  | .del ev => if t.timerSet ev then delTimer fuel ev t else some t

def runOps (fuel : Nat) : List (TimerOp ν) → Timers ν σ → Option (Timers ν σ)
  | [], t => some t
  | op :: ops, t => (runOp fuel t op).bind (runOps fuel ops)

/-- `ngx_event_expire_timers`, with the events whose handlers it calls and what these do. -/
def expireTimers (fuel : Nat) (handler : Handler ν σ) :
    Nat → Timers ν σ → Option (Timers ν σ × List (ν × List (TimerOp ν)))
  | 0, _ => none
  | rounds + 1, t =>
    if t.rbtree.root = t.rbtree.sentinel then some (t, [])
    else
      (rbtreeMin t.rbtree t.rbtree.sentinel fuel t.rbtree.root).bind fun node =>
        if (t.rbtree.key node - t.currentMsec).toInt64 > 0 then some (t, [])
        else
          (delTimer fuel node t).bind fun t =>
            let t := { t with timedout := Function.update t.timedout node true }
            let (ops, rest) := handler node t
            (runOps fuel ops { t with rest := rest }).bind fun t =>
              (expireTimers fuel handler rounds t).map fun (t, calls) => (t, (node, ops) :: calls)

end Model

variable {base : UInt64} {t t' : Timers ν σ} {xs ys : List ν} {e f : ν} {fuel : Nat}
  {handler : Handler ν σ}

/-- A timer may be added for an event of the process and for a time that is no farther away than a
quarter of the range of the clock. -/
def Allowed (sentinel null : ν) : TimerOp ν → Prop
  | .add ev timer => ev ≠ sentinel ∧ ev ≠ null ∧ timer.toNat < 2 ^ 62
  | .del _ => True

def Legal (sentinel null : ν) (handler : Handler ν σ) : Prop :=
  ∀ e t, ∀ op ∈ (handler e t).1, Allowed sentinel null op

def TimerOp.Later : TimerOp ν → Prop
  | .add _ timer => 0 < timer.toNat
  | .del _ => True

def Delays (handler : Handler ν σ) : Prop := ∀ e t, ∀ op ∈ (handler e t).1, op.Later

def due (base : UInt64) (t : Timers ν σ) (xs : List ν) : List ν :=
  xs.filter fun e => decide (t.expiry base e ≤ t.now base)

theorem due_congr (clock : t'.currentMsec = t.currentMsec)
    (key : ∀ e ∈ xs, t'.rbtree.key e = t.rbtree.key e) : due base t' xs = due base t xs := by
  refine List.filter_congr fun e member => ?_
  rw [Timers.expiry, Timers.now, clock, key e member]
  rfl

theorem Scheduled.due_eq_nil (scheduled : Scheduled base t (e :: xs))
    (later : t.now base < t.expiry base e) : due base t (e :: xs) = [] := by
  refine List.filter_eq_nil_iff.mpr fun f member => ?_
  have first := scheduled.first f member
  simp only [decide_eq_true_eq]
  omega

theorem Scheduled.first_due (scheduled : Scheduled base t (e :: xs))
    (some_due : due base t (e :: xs) ≠ []) : t.expiry base e ≤ t.now base := by
  by_contra future
  exact some_due (scheduled.due_eq_nil (Nat.not_le.mp future))

theorem filter_orderedInsert {α : Type*} {r : α → α → Prop} [DecidableRel r] {p : α → Bool} {a : α}
    (l : List α) (out : p a = false) : (l.orderedInsert r a).filter p = l.filter p := by
  rw [List.orderedInsert_eq_take_drop, List.filter_append, List.filter_cons_of_neg (by simp [out]),
    ← List.filter_append, List.takeWhile_append_dropWhile]

/-- What the operations of a handler may do to the schedule: the clock stands still, only timers
that the operations name are touched, and none runs out that had not, unless it is added for the
present time. -/
structure Touched (base : UInt64) (ops : List (TimerOp ν)) (t t' : Timers ν σ) (xs ys : List ν) :
    Prop where
  clock : t'.currentMsec = t.currentMsec
  sentinel : t'.rbtree.sentinel = t.rbtree.sentinel
  null : t'.rbtree.null = t.rbtree.null
  members : t.rbtree.null ∉ xs → t.rbtree.null ∉ ys
  timedout : t'.timedout = t.timedout
  due : (∀ op ∈ ops, op.Later) → (due base t' ys).Sublist (due base t xs)
  kept : ∀ e ∈ xs, (∀ op ∈ ops, op.event ≠ e) → e ∈ ys ∧ t'.rbtree.key e = t.rbtree.key e

theorem Touched.refl (t : Timers ν σ) (xs : List ν) : Touched base [] t t xs xs :=
  ⟨rfl, rfl, rfl, id, rfl, fun _ => .refl _, fun _ member _ => ⟨member, rfl⟩⟩

theorem Touched.append {t'' : Timers ν σ} {zs : List ν} {ops ops' : List (TimerOp ν)}
    (first : Touched base ops t t' xs ys) (second : Touched base ops' t' t'' ys zs) :
    Touched base (ops ++ ops') t t'' xs zs where
  clock := second.clock.trans first.clock
  sentinel := second.sentinel.trans first.sentinel
  null := second.null.trans first.null
  members outside := first.null ▸ second.members (first.null ▸ first.members outside)
  timedout := second.timedout.trans first.timedout
  due later := (second.due fun op listed => later op (by simp [listed])).trans
    (first.due fun op listed => later op (by simp [listed]))
  kept e member apart := by
    obtain ⟨inside, key⟩ := first.kept e member fun op listed => apart op (by simp [listed])
    obtain ⟨inside', key'⟩ := second.kept e inside fun op listed => apart op (by simp [listed])
    exact ⟨inside', key'.trans key⟩

theorem timerInit_scheduled [DecidableEq ν] {t : Timers ν σ} (blank : ∀ e, t.timerSet e = false) (sentinel : ν) :
    Scheduled base (timerInit sentinel t) [] where
  tree := rbtreeInit_represents sentinel t.rbtree
  sorted := .nil
  set e := by simp [timerInit, blank]
  near e member := by cases member

def Enough (ν : Type*) [Fintype ν] (fuel : Nat) : Prop := 2 * Nat.log 2 (Fintype.card ν + 1) + 2 ≤ fuel

theorem Scheduled.enough [Fintype ν] (scheduled : Scheduled base t xs) (enough : Enough ν fuel) :
    2 * Nat.log 2 (xs.length + 1) + 2 ≤ fuel := by
  have short : xs.length + 1 ≤ Fintype.card ν + 1 :=
    Nat.succ_le_succ scheduled.nodup.length_le_card
  exact (Nat.add_le_add_right (Nat.mul_le_mul_left 2 (Nat.log_mono_right short)) 2).trans enough

theorem Scheduled.later_iff (scheduled : Scheduled base t (e :: xs)) (near : t.now base < 2 ^ 62) :
    (t.rbtree.key e - t.currentMsec).toInt64 > 0 ↔ t.now base < t.expiry base e := by
  have value := toInt_diff (scheduled.near e List.mem_cons_self)
    (show offset base t.currentMsec < 2 ^ 63 from Nat.lt_trans near (by decide))
  have zero : (0 : Int64).toInt = 0 := rfl
  rw [gt_iff_lt, Int64.lt_iff_toInt_lt, zero, value, Timers.expiry, Timers.now]
  omega

section Steps

variable [DecidableEq ν]

/-- What one call of a handler does to the schedule, where `e` stood first in it. -/
structure Handled (base : UInt64) (e : ν) (ops : List (TimerOp ν)) (t t' : Timers ν σ)
    (xs ys : List ν) : Prop where
  clock : t'.currentMsec = t.currentMsec
  sentinel : t'.rbtree.sentinel = t.rbtree.sentinel
  null : t'.rbtree.null = t.rbtree.null
  members : t.rbtree.null ∉ e :: xs → t.rbtree.null ∉ ys
  timedout : t'.timedout = Function.update t.timedout e true
  due : (∀ op ∈ ops, op.Later) → (due base t' ys).Sublist (due base t xs)
  kept : ∀ f ∈ xs, (∀ op ∈ ops, op.event ≠ f) → f ∈ ys ∧ t'.rbtree.key f = t.rbtree.key f

theorem Handled.near {ops : List (TimerOp ν)} (handled : Handled base e ops t t' xs ys)
    (near : t.now base < 2 ^ 62) : t'.now base < 2 ^ 62 := by
  rw [Timers.now, handled.clock]
  exact near

theorem Handled.legal {ops : List (TimerOp ν)} (handled : Handled base e ops t t' xs ys)
    (legal : Legal t.rbtree.sentinel t.rbtree.null handler) :
    Legal t'.rbtree.sentinel t'.rbtree.null handler := by
  rw [handled.sentinel, handled.null]
  exact legal

variable [Fintype ν]

theorem Scheduled.runOp (scheduled : Scheduled base t xs) (enough : Enough ν fuel)
    (near : t.now base < 2 ^ 62) (op : TimerOp ν)
    (allowed : Allowed t.rbtree.sentinel t.rbtree.null op) :
    ∃ t' ys, runOp fuel t op = some t' ∧ Scheduled base t' ys ∧ Touched base [op] t t' xs ys := by
  cases op with
  | add ev timer =>
    obtain ⟨real, inside, short⟩ := allowed
    have within : t.now base + timer.toNat < 2 ^ 63 := by omega
    obtain ⟨t', ys, added, scheduled', elsewhere, entered | ⟨rfl, rfl, _⟩⟩ :=
      scheduled.add real within (scheduled.enough enough)
    · obtain ⟨expiry, shape⟩ := entered
      refine ⟨t', ys, added, scheduled', elsewhere.clock, elsewhere.sentinel, elsewhere.null, ?_,
        elsewhere.timedout, ?_, ?_⟩
      · rw [shape, placed, List.mem_orderedInsert]
        rintro outside (same | member)
        · exact inside same.symm
        · exact outside (List.mem_of_mem_erase member)
      · intro later
        have positive : 0 < timer.toNat := later _ List.mem_cons_self
        have out : ¬t'.expiry base ev ≤ t'.now base := by
          have still : t'.now base = t.now base := congrArg (offset base) elsewhere.clock
          omega
        have same : due base t' (xs.erase ev) = due base t (xs.erase ev) :=
          due_congr elsewhere.clock fun e member =>
            elsewhere.key e (ne_of_mem_of_not_mem member scheduled.nodup.not_mem_erase)
        have skipped : due base t' ys = due base t' (xs.erase ev) := by
          rw [shape, due, placed, filter_orderedInsert _ (by simpa using out)]
          rfl
        rw [skipped, same]
        exact List.erase_sublist.filter _
      · intro e member apart
        have distinct : e ≠ ev := fun same => apart _ List.mem_cons_self same.symm
        rw [shape, placed, List.mem_orderedInsert]
        exact ⟨.inr ((List.mem_erase_of_ne distinct).mpr member), elsewhere.key e distinct⟩
    · exact ⟨t', ys, added, scheduled', rfl, rfl, rfl, id, rfl, fun _ => .refl _,
        fun _ member _ => ⟨member, rfl⟩⟩
  | del ev =>
    cases set : t.timerSet ev with
    | false =>
      refine ⟨t, xs, by rw [Timer.runOp, set]; rfl, scheduled, rfl, rfl, rfl, id, rfl,
        fun _ => .refl _, ?_⟩
      exact fun _ member _ => ⟨member, rfl⟩
    | true =>
      obtain ⟨t', deleted, scheduled', elsewhere⟩ :=
        scheduled.del ((scheduled.set ev).mp set) (scheduled.enough enough)
      refine ⟨t', _, by rw [Timer.runOp, set]; exact deleted, scheduled', elsewhere.clock,
        elsewhere.sentinel, elsewhere.null, fun outside member => outside (List.mem_of_mem_erase member),
        elsewhere.timedout, fun _ => ?_, ?_⟩
      · rw [due_congr elsewhere.clock fun e member =>
          elsewhere.key e (ne_of_mem_of_not_mem member scheduled.nodup.not_mem_erase)]
        exact List.erase_sublist.filter _
      · intro e member apart
        have distinct : e ≠ ev := fun same => apart _ List.mem_cons_self same.symm
        exact ⟨(List.mem_erase_of_ne distinct).mpr member, elsewhere.key e distinct⟩

theorem Scheduled.runOps (enough : Enough ν fuel) : ∀ (ops : List (TimerOp ν)) {t : Timers ν σ}
    {xs : List ν}, Scheduled base t xs → t.now base < 2 ^ 62 →
    (∀ op ∈ ops, Allowed t.rbtree.sentinel t.rbtree.null op) → ∃ t' ys, runOps fuel ops t = some t' ∧
      Scheduled base t' ys ∧ Touched base ops t t' xs ys
  | [], t, xs, scheduled, _, _ => ⟨t, xs, rfl, scheduled, .refl t xs⟩
  | op :: ops, t, xs, scheduled, near, allowed => by
    obtain ⟨t₁, ys, ran, scheduled₁, first⟩ :=
      scheduled.runOp enough near op (allowed op List.mem_cons_self)
    obtain ⟨t₂, zs, rest, scheduled₂, second⟩ := Scheduled.runOps enough ops scheduled₁
      (by rw [Timers.now, first.clock]; exact near)
      (by
        rw [first.sentinel, first.null]
        exact fun op' member => allowed op' (List.mem_cons_of_mem op member))
    refine ⟨t₂, zs, ?_, scheduled₂, first.append second⟩
    rw [Timer.runOps, ran]
    exact rest

def Unnamed (calls : List (ν × List (TimerOp ν))) (e : ν) : Prop :=
  ∀ call ∈ calls, ∀ op ∈ call.2, op.event ≠ e

/-- What the loop does to the schedule. The handlers called are those of timers that have run out,
each at most once and in the order in which they did. A timer no handler names is called if it has
run out, and else is as before. No timer that has run out is left. -/
structure Expired (base : UInt64) (t t' : Timers ν σ) (xs ys : List ν)
    (calls : List (ν × List (TimerOp ν))) : Prop where
  clock : t'.currentMsec = t.currentMsec
  order : (calls.map Prod.fst).Sublist (due base t xs)
  called : ∀ e ∈ due base t xs, Unnamed calls e → e ∈ calls.map Prod.fst
  kept : ∀ e ∈ xs, e ∉ due base t xs → Unnamed calls e →
    e ∈ ys ∧ t'.rbtree.key e = t.rbtree.key e
  none : due base t' ys = []
  timedout : ∀ e, t'.timedout e = true ↔ e ∈ calls.map Prod.fst ∨ t.timedout e = true

/-- The loop ends at once when no timer has run out. -/
theorem Scheduled.rest (scheduled : Scheduled base t xs) (enough : Enough ν fuel)
    (near : t.now base < 2 ^ 62) (none : due base t xs = []) (rounds : Nat) :
    expireTimers fuel handler (rounds + 1) t = some (t, []) := by
  cases xs with
  | nil => rw [expireTimers, if_pos (scheduled.empty_iff.mpr rfl)]
  | cons e xs =>
    have inner : t.rbtree.root ≠ t.rbtree.sentinel := fun same => by
      cases scheduled.empty_iff.mp same
    have found := scheduled.tree.min (Nat.le_of_add_right_le (scheduled.enough enough))
    have future : t.now base < t.expiry base e := by
      have out := List.filter_eq_nil_iff.mp none e List.mem_cons_self
      simpa using out
    rw [expireTimers, if_neg inner, found, Option.bind_some,
      if_pos ((scheduled.later_iff near).mpr future)]

/-- Otherwise it calls the handler of the first and goes on. -/
theorem Scheduled.handle (scheduled : Scheduled base t (e :: xs)) (enough : Enough ν fuel)
    (near : t.now base < 2 ^ 62) (legal : Legal t.rbtree.sentinel t.rbtree.null handler)
    (out : t.expiry base e ≤ t.now base) :
    ∃ t' ys ops, (∀ rounds, expireTimers fuel handler (rounds + 1) t =
        (expireTimers fuel handler rounds t').map fun r => (r.1, (e, ops) :: r.2)) ∧
      Scheduled base t' ys ∧ Handled base e ops t t' xs ys ∧
      (Delays handler → ∀ op ∈ ops, op.Later) := by
  have inner : t.rbtree.root ≠ t.rbtree.sentinel := fun same => by
    cases scheduled.empty_iff.mp same
  have found := scheduled.tree.min (Nat.le_of_add_right_le (scheduled.enough enough))
  have now : ¬ (t.rbtree.key e - t.currentMsec).toInt64 > 0 := fun later =>
    Nat.not_lt.mpr out ((scheduled.later_iff near).mp later)
  obtain ⟨t₁, deleted, scheduled₁, elsewhere⟩ :=
    scheduled.del List.mem_cons_self (scheduled.enough enough)
  rw [List.erase_cons_head] at scheduled₁
  let t₂ := { t₁ with timedout := Function.update t₁.timedout e true }
  let t₃ := { t₂ with rest := (handler e t₂).2 }
  have scheduled₃ : Scheduled base t₃ xs :=
    ⟨scheduled₁.tree, scheduled₁.sorted, scheduled₁.set, scheduled₁.near⟩
  obtain ⟨t', ys, ran, scheduled', touched⟩ := scheduled₃.runOps enough (handler e t₂).1
    (show offset base t₁.currentMsec < 2 ^ 62 from elsewhere.clock.symm ▸ near)
    (by
      change ∀ op ∈ _, Allowed t₁.rbtree.sentinel t₁.rbtree.null op
      rw [elsewhere.sentinel, elsewhere.null]
      exact legal e t₂)
  have absent : e ∉ xs := (List.nodup_cons.mp scheduled.nodup).1
  have key : ∀ f ∈ xs, t₃.rbtree.key f = t.rbtree.key f := fun f member =>
    elsewhere.key f (ne_of_mem_of_not_mem member absent)
  have same : due base t₃ xs = due base t xs := due_congr elsewhere.clock key
  refine ⟨t', ys, (handler e t₂).1, fun rounds => ?_, scheduled', ?_, fun delays => delays e t₂⟩
  · rw [expireTimers, if_neg inner, found, Option.bind_some, if_neg now, deleted]
    calc _ = (Timer.runOps fuel (handler e t₂).1 t₃).bind fun s =>
            (expireTimers fuel handler rounds s).map fun r => (r.1, (e, (handler e t₂).1) :: r.2) :=
          rfl
      _ = (expireTimers fuel handler rounds t').map fun r => (r.1, (e, (handler e t₂).1) :: r.2) := by
          rw [ran, Option.bind_some]
  · refine ⟨touched.clock.trans elsewhere.clock, touched.sentinel.trans elsewhere.sentinel,
      touched.null.trans elsewhere.null, ?_, ?_, fun later => same ▸ touched.due later, ?_⟩
    · intro outside
      have outside₁ : t₃.rbtree.null ∉ xs := elsewhere.null.symm ▸ fun member =>
        outside (List.mem_cons_of_mem e member)
      exact elsewhere.null ▸ touched.members outside₁
    · exact touched.timedout.trans (congrArg (fun m => Function.update m e true) elsewhere.timedout)
    · intro f member apart
      obtain ⟨inside, kept⟩ := touched.kept f member apart
      exact ⟨inside, kept.trans (key f member)⟩

/-- Whenever the loop ends, the tree is again that of the timers that are set. -/
theorem Scheduled.ended (enough : Enough ν fuel) : ∀ (rounds : Nat) {t t' : Timers ν σ} {xs : List ν}
    {calls : List (ν × List (TimerOp ν))}, Scheduled base t xs → t.now base < 2 ^ 62 →
    Legal t.rbtree.sentinel t.rbtree.null handler →
    expireTimers fuel handler rounds t = some (t', calls) →
    ∃ ys, Scheduled base t' ys ∧ t'.currentMsec = t.currentMsec ∧
      t'.rbtree.sentinel = t.rbtree.sentinel ∧ t'.rbtree.null = t.rbtree.null ∧
      (t.rbtree.null ∉ xs → t.rbtree.null ∉ ys)
  | 0, _, _, _, _, _, _, _, ended => by cases ended
  | rounds + 1, t, t', xs, calls, scheduled, near, legal, ended => by
    by_cases none : due base t xs = []
    · rw [scheduled.rest enough near none] at ended
      cases ended
      exact ⟨xs, scheduled, rfl, rfl, rfl, id⟩
    cases xs with
    | nil => exact absurd rfl none
    | cons e xs =>
      have out := scheduled.first_due none
      obtain ⟨t₁, ys, ops, moved, scheduled₁, handled, -⟩ := scheduled.handle enough near legal out
      rw [moved] at ended
      obtain ⟨⟨t₂, later⟩, inner, same⟩ := Option.map_eq_some_iff.mp ended
      cases same
      obtain ⟨zs, scheduled₂, clock, sentinel, null, members⟩ := Scheduled.ended enough rounds
        scheduled₁ (handled.near near) (handled.legal legal) inner
      refine ⟨zs, scheduled₂, clock.trans handled.clock, sentinel.trans handled.sentinel,
        null.trans handled.null, fun outside => ?_⟩
      rw [handled.null] at members
      exact members (handled.members outside)

theorem Scheduled.expire (enough : Enough ν fuel) (delays : Delays handler) : ∀ (rounds : Nat)
    {t : Timers ν σ} {xs : List ν}, Scheduled base t xs → t.now base < 2 ^ 62 →
    Legal t.rbtree.sentinel t.rbtree.null handler → (due base t xs).length < rounds →
    ∃ t' ys calls, expireTimers fuel handler rounds t = some (t', calls) ∧ Scheduled base t' ys ∧
      Expired base t t' xs ys calls
  | 0, _, _, _, _, _, short => absurd short (by omega)
  | rounds + 1, t, xs, scheduled, near, legal, short => by
    by_cases none : due base t xs = []
    · refine ⟨t, xs, [], scheduled.rest enough near none rounds, scheduled, rfl, ?_, ?_,
        fun _ member _ _ => ⟨member, rfl⟩, none, ?_⟩
      · simp
      · simp [none]
      · simp
    cases xs with
    | nil => exact absurd rfl none
    | cons e xs =>
      have out := scheduled.first_due none
      obtain ⟨t₁, ys, ops, moved, scheduled₁, handled, positive⟩ :=
        scheduled.handle enough near legal out
      have first : due base t (e :: xs) = e :: due base t xs :=
        List.filter_cons_of_pos (by simpa using out)
      have rest := handled.due (positive delays)
      have fewer : (due base t₁ ys).length < rounds := by
        have bound := rest.length_le
        rw [first, List.length_cons] at short
        omega
      obtain ⟨t', zs, calls, expired, scheduled', done⟩ := Scheduled.expire enough delays rounds
        scheduled₁ (handled.near near) (handled.legal legal) fewer
      refine ⟨t', zs, (e, ops) :: calls, by rw [moved, expired]; rfl, scheduled',
        done.clock.trans handled.clock, ?_, ?_, ?_, done.none, ?_⟩
      · rw [first]
        exact (done.order.trans rest).cons_cons e
      · intro f member unnamed
        rw [first] at member
        obtain rfl | member := List.mem_cons.mp member
        · exact List.mem_cons_self
        · obtain ⟨inside, ran⟩ := List.mem_filter.mp member
          obtain ⟨stays, same⟩ := handled.kept f inside (unnamed _ List.mem_cons_self)
          have still : f ∈ due base t₁ ys := by
            refine List.mem_filter.mpr ⟨stays, ?_⟩
            rw [Timers.expiry, Timers.now, same, handled.clock]
            exact ran
          exact List.mem_cons_of_mem e (done.called f still fun call listed =>
            unnamed call (List.mem_cons_of_mem _ listed))
      · intro f member notDue unnamed
        obtain rfl | inside := List.mem_cons.mp member
        · exact absurd (first ▸ List.mem_cons_self) notDue
        · obtain ⟨stays, same⟩ := handled.kept f inside (unnamed _ List.mem_cons_self)
          have notDue' : f ∉ due base t₁ ys := by
            intro listed
            rw [first] at notDue
            exact notDue (List.mem_cons_of_mem e (rest.subset listed))
          obtain ⟨final, same'⟩ := done.kept f stays notDue' fun call listed =>
            unnamed call (List.mem_cons_of_mem _ listed)
          exact ⟨final, same'.trans same⟩
      · intro f
        rw [done.timedout f, handled.timedout, List.map_cons, List.mem_cons]
        by_cases same : f = e
        · simp [same]
        · simp [same]

/-- The states of the timers of a process: timers are added and deleted, the clock is read, and the
loop, when it ends, has called the handlers of those that have run out. The clock stays within a
quarter of its range from `base`. -/
inductive Reachable (base : UInt64) (fuel : Nat) (handler : Handler ν σ) (sentinel null : ν) :
    Timers ν σ → Prop
  | init {t : Timers ν σ} (blank : ∀ e, t.timerSet e = false) (near : t.now base < 2 ^ 62)
      (none : t.rbtree.null = null) :
      Reachable base fuel handler sentinel null (timerInit sentinel t)
  | op {t t' : Timers ν σ} {op : TimerOp ν} : Reachable base fuel handler sentinel null t →
      Allowed sentinel null op → Timer.runOp fuel t op = some t' →
      Reachable base fuel handler sentinel null t'
  | tick {t : Timers ν σ} {now : UInt64} : Reachable base fuel handler sentinel null t →
      offset base now < 2 ^ 62 →
      Reachable base fuel handler sentinel null { t with currentMsec := now }
  | expire {t t' : Timers ν σ} {calls : List (ν × List (TimerOp ν))} {rounds : Nat} :
      Reachable base fuel handler sentinel null t →
      expireTimers fuel handler rounds t = some (t', calls) →
      Reachable base fuel handler sentinel null t'

structure Running (base : UInt64) (fuel : Nat) (handler : Handler ν σ) (sentinel null : ν)
    (t : Timers ν σ) : Prop where
  enough : Enough ν fuel
  legal : Legal sentinel null handler
  reached : Reachable base fuel handler sentinel null t

variable {rounds : Nat} {sentinel null : ν}

theorem Reachable.invariant (enough : Enough ν fuel) (legal : Legal sentinel null handler)
    (reached : Reachable base fuel handler sentinel null t) :
    (t.rbtree.sentinel = sentinel ∧ t.rbtree.null = null ∧ t.now base < 2 ^ 62) ∧
      ∃ xs, Scheduled base t xs ∧ null ∉ xs := by
  induction reached with
  | init blank near none =>
    exact ⟨⟨rfl, none, near⟩, [], timerInit_scheduled blank sentinel, List.not_mem_nil⟩
  | op _ allowed ran ih =>
    obtain ⟨⟨same, none, near⟩, xs, scheduled, outside⟩ := ih
    obtain ⟨t', ys, ran', scheduled', touched⟩ :=
      scheduled.runOp enough near _ (same.symm ▸ none.symm ▸ allowed)
    obtain rfl := Option.some.inj (ran'.symm.trans ran)
    refine ⟨⟨touched.sentinel.trans same, touched.null.trans none, ?_⟩, ys, scheduled', ?_⟩
    · rw [Timers.now, touched.clock]
      exact near
    · exact none ▸ touched.members (none.symm ▸ outside)
  | tick _ near ih =>
    obtain ⟨⟨same, none, _⟩, xs, scheduled, outside⟩ := ih
    exact ⟨⟨same, none, near⟩, xs,
      ⟨scheduled.tree, scheduled.sorted, scheduled.set, scheduled.near⟩, outside⟩
  | expire _ expired ih =>
    obtain ⟨⟨same, none, near⟩, xs, scheduled, outside⟩ := ih
    obtain ⟨ys, scheduled', clock, sentinel', null', members⟩ := Scheduled.ended enough _ scheduled
      near (same.symm ▸ none.symm ▸ legal) expired
    refine ⟨⟨sentinel'.trans same, null'.trans none, ?_⟩, ys, scheduled', ?_⟩
    · rw [Timers.now, clock]
      exact near
    · exact none ▸ members (none.symm ▸ outside)

/-- A process that has just started, with the sentinel 0 and the address 1 for `NULL`. -/
def started : Timers (Fin 6) Unit :=
  timerInit 0 ⟨⟨0, 0, 1, fun _ => 0, fun _ _ => 0, fun _ => 0, fun _ => .black⟩, 0, fun _ => false,
    fun _ => false, fun e => decide (e = 3), ()⟩

def renew : Handler (Fin 6) Unit := fun e _ => if e = 0 ∨ e = 1 then ([], ()) else ([.add e 9], ())

def oneTimer : Timers (Fin 6) Unit := (Timer.runOp 8 started (.add 2 0)).getD started

/-- Two timers have been set, for the present time 0 and for 7, and now it is 6. -/
def sample : Timers (Fin 6) Unit :=
  { (Timer.runOp 8 oneTimer (.add 3 7)).getD oneTimer with currentMsec := 6 }

theorem renew_ops (e : Fin 6) (s : Timers (Fin 6) Unit) :
    ∀ op ∈ (renew e s).1, Allowed 0 1 op ∧ op.Later := by
  intro op member
  by_cases unused : e = 0 ∨ e = 1
  · rw [renew, if_pos unused] at member
    cases member
  · rw [renew, if_neg unused, List.mem_singleton] at member
    subst member
    exact ⟨⟨fun zero => unused (.inl zero), fun one => unused (.inr one), by decide⟩,
      show 0 < (9 : UInt64).toNat by decide⟩

theorem sample_running : Running 0 8 renew 0 1 sample := by
  have start : Reachable 0 8 renew 0 1 started := .init (fun _ => rfl) (by decide) rfl
  have allowed : Allowed (0 : Fin 6) 1 (.add 2 0) := ⟨by decide, by decide, by decide⟩
  have allowed' : Allowed (0 : Fin 6) 1 (.add 3 7) := ⟨by decide, by decide, by decide⟩
  have ran : Timer.runOp 8 started (.add 2 0) = some oneTimer := rfl
  have ran' : Timer.runOp 8 oneTimer (.add 3 7) =
    some ((Timer.runOp 8 oneTimer (.add 3 7)).getD oneTimer) := rfl
  exact ⟨show 2 * Nat.log 2 7 + 2 ≤ 8 by decide, fun e s op member => (renew_ops e s op member).1,
    ((start.op allowed ran).op allowed' ran').tick (by decide)⟩

theorem Running.invariant (running : Running base fuel handler sentinel null t) :
    (t.rbtree.sentinel = sentinel ∧ t.rbtree.null = null ∧ t.now base < 2 ^ 62) ∧
      ∃ xs, Scheduled base t xs ∧ null ∉ xs :=
  running.reached.invariant running.enough running.legal

/-- In every state of a run the tree is a red-black tree of exactly the timers that are set, in the
order in which they run out. -/
theorem timers_scheduled (running : Running base fuel handler sentinel null t) :
    ∃ xs, Scheduled base t xs := by
  obtain ⟨_, xs, scheduled, _⟩ := running.invariant
  exact ⟨xs, scheduled⟩

theorem timers_scheduled_sample : ∃ xs, Scheduled 0 sample xs := timers_scheduled sample_running

/-- In every state of a run a timer can be added. If it was not set it runs out at the time asked
for, if it was at one that is off by less than the lazy delay, and no other timer changes. -/
theorem add_timer_lazy (running : Running base fuel handler sentinel null t) {timer : UInt64}
    (real : e ≠ sentinel) (short : timer.toNat < 2 ^ 62) :
    ∃ t', addTimer fuel e timer t = some t' ∧ Elsewhere e t t' ∧ t'.timerSet e = true ∧
      (t.timerSet e = false → t'.expiry base e = t.now base + timer.toNat) ∧
      t'.expiry base e < t.now base + timer.toNat + 300 ∧
      t.now base + timer.toNat < t'.expiry base e + 300 := by
  obtain ⟨⟨same, _, near⟩, xs, scheduled, _⟩ := running.invariant
  have within : t.now base + timer.toNat < 2 ^ 63 := by omega
  obtain ⟨t', ys, added, scheduled', elsewhere, entered | ⟨rfl, rfl, member, late, early⟩⟩ :=
    scheduled.add (same.symm ▸ real) within (scheduled.enough running.enough)
  · obtain ⟨expiry, shape⟩ := entered
    have listed : e ∈ ys := by
      rw [shape, placed, List.mem_orderedInsert]
      exact .inl rfl
    exact ⟨t', added, elsewhere, (scheduled'.set e).mpr listed, fun _ => expiry, by omega, by omega⟩
  · have set : t'.timerSet e = true := (scheduled'.set e).mpr member
    exact ⟨t', added, elsewhere, set, fun unset => by simp [set] at unset, late, early⟩

theorem add_timer_lazy_sample : ∃ t', addTimer 8 4 9 sample = some t' ∧ Elsewhere 4 sample t' ∧
    t'.timerSet 4 = true ∧ (sample.timerSet 4 = false → t'.expiry 0 4 = sample.now 0 + 9) ∧
    t'.expiry 0 4 < sample.now 0 + 9 + 300 ∧ sample.now 0 + 9 < t'.expiry 0 4 + 300 :=
  add_timer_lazy sample_running (by decide) (by decide)

/-- In every state of a run the time to wait is that which is left to the earliest timer. -/
theorem find_timer_earliest (running : Running base fuel handler sentinel null t) :
    ∃ wait, findTimer fuel t = some wait ∧ ((∀ e, t.timerSet e = false) → wait = timerInfinite) ∧
      ∀ e, t.timerSet e = true → (∀ f, t.timerSet f = true → t.expiry base e ≤ t.expiry base f) →
        wait.toNat = t.expiry base e - t.now base := by
  obtain ⟨⟨_, _, near⟩, xs, scheduled, _⟩ := running.invariant
  obtain ⟨wait, found, infinite, least⟩ := scheduled.find (by omega)
    (Nat.le_of_add_right_le (scheduled.enough running.enough))
  refine ⟨wait, found, fun unset => infinite ?_, fun e set first => ?_⟩
  · refine List.eq_nil_iff_forall_not_mem.mpr fun e member => ?_
    rw [← scheduled.set, unset] at member
    cases member
  · exact least e ((scheduled.set e).mp set) fun f member => first f ((scheduled.set f).mpr member)

theorem find_timer_earliest_sample : ∃ wait, findTimer 8 sample = some wait ∧
    ((∀ e, sample.timerSet e = false) → wait = timerInfinite) ∧
    ∀ e, sample.timerSet e = true →
      (∀ f, sample.timerSet f = true → sample.expiry 0 e ≤ sample.expiry 0 f) →
      wait.toNat = sample.expiry 0 e - sample.now 0 :=
  find_timer_earliest sample_running

/-- In every state of a run the loop over the timers ends, if no handler sets a timer for the
present time. It calls the handlers of timers that were set and have run out, each at most once and
the earlier first, and a timer that no handler names exactly if it has run out, else the timer
stays as it was. In the end none is left that has run out. -/
theorem expire_timers_complete (running : Running base fuel handler sentinel null t)
    (delays : Delays handler) (many : Fintype.card ν < rounds) :
    ∃ t' calls, expireTimers fuel handler rounds t = some (t', calls) ∧
      (calls.map Prod.fst).Nodup ∧
      (calls.map Prod.fst).Pairwise (fun e f => t.expiry base e ≤ t.expiry base f) ∧
      (∀ e ∈ calls.map Prod.fst, t.timerSet e = true ∧ t.expiry base e ≤ t.now base) ∧
      (∀ e, t.timerSet e = true → Unnamed calls e →
        if t.expiry base e ≤ t.now base then e ∈ calls.map Prod.fst
        else t'.timerSet e = true ∧ t'.expiry base e = t.expiry base e) ∧
      t'.currentMsec = t.currentMsec ∧
      ∀ e, t'.timerSet e = true → t.now base < t'.expiry base e := by
  obtain ⟨⟨same, none, near⟩, xs, scheduled, _⟩ := running.invariant
  have short : (due base t xs).length ≤ Fintype.card ν :=
    (List.length_filter_le _ xs).trans scheduled.nodup.length_le_card
  obtain ⟨t', ys, calls, expired, scheduled', done⟩ := Scheduled.expire running.enough delays rounds
    scheduled near (same.symm ▸ none.symm ▸ running.legal) (Nat.lt_of_le_of_lt short many)
  have part : (calls.map Prod.fst).Sublist xs := done.order.trans List.filter_sublist
  have dueIff : ∀ e, e ∈ due base t xs ↔ e ∈ xs ∧ t.expiry base e ≤ t.now base := by
    intro e
    rw [due, List.mem_filter, decide_eq_true_eq]
  refine ⟨t', calls, expired, scheduled.nodup.sublist part, scheduled.sorted.sublist part, ?_, ?_,
    done.clock, ?_⟩
  · intro e member
    obtain ⟨inside, out⟩ := (dueIff e).mp (done.order.subset member)
    exact ⟨(scheduled.set e).mpr inside, out⟩
  · intro e set unnamed
    have inside := (scheduled.set e).mp set
    split
    case isTrue out => exact done.called e ((dueIff e).mpr ⟨inside, out⟩) unnamed
    case isFalse later =>
      obtain ⟨stays, key⟩ := done.kept e inside (fun listed => later ((dueIff e).mp listed).2) unnamed
      exact ⟨(scheduled'.set e).mpr stays, congrArg (offset base) key⟩
  · intro e set
    have inside := (scheduled'.set e).mp set
    have left : e ∉ due base t' ys := done.none ▸ List.not_mem_nil
    have clock : t'.now base = t.now base := congrArg (offset base) done.clock
    rw [due, List.mem_filter, decide_eq_true_eq] at left
    by_contra out
    exact left ⟨inside, by omega⟩

theorem expire_timers_complete_sample : ∃ t' calls, expireTimers 8 renew 7 sample = some (t', calls) ∧
    (calls.map Prod.fst).Nodup ∧
    (calls.map Prod.fst).Pairwise (fun e f => sample.expiry 0 e ≤ sample.expiry 0 f) ∧
    (∀ e ∈ calls.map Prod.fst, sample.timerSet e = true ∧ sample.expiry 0 e ≤ sample.now 0) ∧
    (∀ e, sample.timerSet e = true → Unnamed calls e →
      if sample.expiry 0 e ≤ sample.now 0 then e ∈ calls.map Prod.fst
      else t'.timerSet e = true ∧ t'.expiry 0 e = sample.expiry 0 e) ∧
    t'.currentMsec = sample.currentMsec ∧
    ∀ e, t'.timerSet e = true → sample.now 0 < t'.expiry 0 e :=
  expire_timers_complete sample_running (fun e s op member => (renew_ops e s op member).2)
    (by decide)

/-- In every state of a run a worker that is shutting down is told that no timers are left exactly
when all that are set are cancelable. -/
theorem no_timers_left_iff (running : Running base fuel handler sentinel null t)
    (many : Fintype.card ν < rounds) :
    ∃ left, noTimersLeft fuel rounds t = some left ∧
      (left = true ↔ ∀ e, t.timerSet e = true → t.cancelable e = true) := by
  obtain ⟨⟨_, none, _⟩, xs, scheduled, outside⟩ := running.invariant
  have long : xs.length < rounds :=
    Nat.lt_of_le_of_lt scheduled.nodup.length_le_card many
  refine ⟨_, scheduled.none_left (none.symm ▸ outside)
    (Nat.le_of_add_right_le (scheduled.enough running.enough)) long, ?_⟩
  simp only [List.all_eq_true, scheduled.set]

theorem no_timers_left_iff_sample : ∃ left, noTimersLeft 8 7 sample = some left ∧
    (left = true ↔ ∀ e, sample.timerSet e = true → sample.cancelable e = true) :=
  no_timers_left_iff sample_running (by decide)

end Steps

end Ngx.Timer
