import Ngx.Queue
import Ngx.Worklist

/-! The events that are posted in order to be handled later. -/
namespace Ngx.Posted

open LinkedRing Worklist

variable {ν σ : Type*}

inductive PostedQueue
  | acceptEvents
  | events
deriving DecidableEq

/-- The flags and the links of the events. An event and the `queue` in it go by one name, and `rest`
is what the handlers read and write. -/
structure Events (ν σ : Type*) where
  links : Links ν
  posted : ν → Bool
  rest : σ

/-- A handler, which is called with its event: the events it posts and deletes, one after the other,
and what it leaves behind. Every caller of `ngx_delete_posted_event` but the loop first looks at
`posted`. -/
abbrev Handler (ν σ : Type*) := ν → σ → List (Op PostedQueue ν) × σ

section Model

variable [DecidableEq ν]

def postedInit (head : PostedQueue → ν) (p : Events ν σ) : Events ν σ :=
  { p with links := queueInit (head .events) (queueInit (head .acceptEvents) p.links) }

def postEvent (ev q : ν) (p : Events ν σ) : Events ν σ :=
  if !p.posted ev then
    { p with posted := Function.update p.posted ev true, links := queueInsertTail q ev p.links }
  else p

def deletePostedEvent (ev : ν) (p : Events ν σ) : Events ν σ :=
  { p with posted := Function.update p.posted ev false, links := queueRemove ev p.links }

def runOp (head : PostedQueue → ν) (p : Events ν σ) : Op PostedQueue ν → Events ν σ
  | .enter q ev => postEvent ev (head q) p
  | .drop ev => if p.posted ev then deletePostedEvent ev p else p

/-- `ngx_event_process_posted`, with the events whose handlers it calls and what these do. -/
def processPosted (head : PostedQueue → ν) (handler : Handler ν σ) (posted : ν) :
    Nat → Events ν σ → Option (Events ν σ × Calls PostedQueue ν)
  | 0, _ => none
  | fuel + 1, p =>
    if posted = p.links.prev posted then some (p, [])
    else
      let ev := p.links.next posted
      let p := deletePostedEvent ev p
      let (ops, rest) := handler ev p.rest
      let p := ops.foldl (runOp head) { p with rest := rest }
      (processPosted head handler posted fuel p).map fun (p, calls) => (p, (ev, ops) :: calls)

end Model

/-- The two queues as lists. The flag of an event tells whether it is in one of them. -/
structure Represents (head : PostedQueue → ν) (p : Events ν σ) (L : Queues PostedQueue ν) : Prop where
  ring : ∀ q, Ring p.links (head q) (L q)
  apart : ∀ {q q' v}, v ∈ head q :: L q → v ∈ head q' :: L q' → q = q'
  posted : ∀ e, p.posted e = true ↔ Waits L e

variable {head : PostedQueue → ν} {p p' : Events ν σ} {L L' : Queues PostedQueue ν} {q : PostedQueue}
  {e : ν}

theorem Represents.proper (rep : Represents head p L) : Proper L where
  nodup q := (List.nodup_cons.mp (rep.ring q).distinct).2
  apart here there := rep.apart (List.mem_cons_of_mem _ here) (List.mem_cons_of_mem _ there)

theorem Represents.rest (rep : Represents head p L) (rest : σ) :
    Represents head { p with rest := rest } L := ⟨rep.ring, rep.apart, rep.posted⟩

/-- `ngx_queue_empty`. -/
theorem Represents.empty_iff (rep : Represents head p L) :
    head q = p.links.prev (head q) ↔ L q = [] := by
  have ring := rep.ring q
  rw [ring.prev_head]
  cases members : L q with
  | nil => simp
  | cons e rest =>
    have outside : head q ∉ e :: rest := members ▸ (List.nodup_cons.mp ring.distinct).1
    have last : (e :: rest).getLastD (head q) ∈ e :: rest := by
      rw [List.getLastD_cons]
      exact List.getLastD_mem_cons
    simp only [reduceCtorEq, iff_false]
    intro same
    rw [← same] at last
    exact outside last

def Real (head : PostedQueue → ν) (e : ν) : Prop := ∀ q, e ≠ head q

theorem Represents.real (rep : Represents head p L) (waits : Waits L e) : Real head e := by
  obtain ⟨q, member⟩ := waits
  rintro q' rfl
  obtain rfl : q = q' := rep.apart (List.mem_cons_of_mem _ member) List.mem_cons_self
  exact (List.nodup_cons.mp (rep.ring q).distinct).1 member

variable [DecidableEq ν]

theorem postedInit_represents (distinct : Function.Injective head) (clear : ∀ e, p.posted e = false) :
    Represents head (postedInit head p) fun _ => [] where
  ring q := by
    cases q with
    | events => exact queueInit_ring
    | acceptEvents =>
      have other : head .acceptEvents ≠ head .events := fun same => by cases distinct same
      have ring : Ring (queueInit (head .acceptEvents) p.links) (head .acceptEvents) [] := queueInit_ring
      refine ring.congr (fun v member => ?_) fun v member => ?_
      · obtain rfl := List.mem_singleton.mp member
        exact Function.update_of_ne other _ _
      · obtain rfl := List.mem_singleton.mp member
        exact Function.update_of_ne other _ _
  apart here there := distinct ((List.mem_singleton.mp here).symm.trans (List.mem_singleton.mp there))
  posted e := by simp [postedInit, clear, Waits]

theorem Represents.post (rep : Represents head p L) (real : Real head e) (q : PostedQueue) :
    Represents head (postEvent e (head q) p) ((Op.enter q e).apply L) := by
  by_cases waits : Waits L e
  · have set : p.posted e = true := (rep.posted e).mpr waits
    rw [postEvent, if_neg (by simp [set]), Op.apply, if_pos waits]
    exact rep
  · have clear : p.posted e = false := by
      rw [← Bool.not_eq_true, rep.posted]
      exact waits
    have fresh : ∀ q', e ∉ head q' :: L q' := fun q' member =>
      (List.mem_cons.mp member).elim (real q') fun inside => waits ⟨q', inside⟩
    rw [postEvent, if_pos (by simp [clear]), Op.apply, if_neg waits]
    have mem : ∀ {q' v}, v ∈ head q' :: Function.update L q (L q ++ [e]) q' ↔
        v ∈ head q' :: L q' ∨ q' = q ∧ v = e := by
      intro q' v
      by_cases same : q' = q
      · subst same
        simp [or_assoc]
      · simp [same]
    refine ⟨fun q' => ?_, fun {q₁ q₂ v} here there => ?_, fun f => ?_⟩
    · by_cases same : q' = q
      · subst same
        rw [Function.update_self]
        exact queueInsertTail_ring (rep.ring q') (fresh q')
      · rw [Function.update_of_ne same]
        have untouched := (rep.ring q).linkBefore_untouched (x := e) List.mem_cons_self
        have outside : ∀ v ∈ head q' :: L q', v ∉ e :: head q :: L q := by
          intro v member inside
          obtain rfl | inside := List.mem_cons.mp inside
          · exact fresh q' member
          · exact same (rep.apart member inside)
        refine (rep.ring q').congr (fun v member => ?_) fun v member => ?_
        · rw [queueInsertTail_eq]
          exact (untouched v (outside v member)).1
        · rw [queueInsertTail_eq]
          exact (untouched v (outside v member)).2
    · obtain old | ⟨atQ, same⟩ := mem.mp here
      · obtain old' | ⟨-, same⟩ := mem.mp there
        · exact rep.apart old old'
        · exact absurd (same ▸ old) (fresh q₁)
      · obtain old' | ⟨atQ', -⟩ := mem.mp there
        · exact absurd (same ▸ old') (fresh q₂)
        · exact atQ.trans atQ'.symm
    · have waits' := waits_enter (p := q) (L := L) (e := e) (f := f)
      rw [Op.apply, if_neg waits] at waits'
      rw [waits', ← rep.posted]
      change Function.update p.posted e true f = true ↔ _
      by_cases same : f = e
      · simp [same]
      · simp [same]

theorem Represents.delete (rep : Represents head p L) (waits : Waits L e) :
    Represents head (deletePostedEvent e p) ((Op.drop e).apply L) := by
  obtain ⟨q, member⟩ := waits
  have mem : ∀ {q' v}, v ∈ head q' :: (L q').erase e → v ∈ head q' :: L q' := fun member =>
    (List.mem_cons.mp member).elim (fun same => same ▸ List.mem_cons_self)
      fun inside => List.mem_cons_of_mem _ (List.mem_of_mem_erase inside)
  refine ⟨fun q' => ?_, fun here there => rep.apart (mem here) (mem there), fun f => ?_⟩
  · change Ring (queueRemove e p.links) (head q') ((L q').erase e)
    by_cases same : q' = q
    · subst same
      obtain ⟨xs, ys, split⟩ := List.append_of_mem member
      have ring := rep.ring q'
      have distinct := rep.proper.nodup q'
      rw [split] at ring distinct
      have absent : e ∉ xs := fun inside =>
        (List.nodup_cons.mp (List.nodup_middle.mp distinct)).1 (List.mem_append_left _ inside)
      rw [split, List.erase_append_right _ absent, List.erase_cons_head]
      exact queueRemove_ring ring
    · have outside : e ∉ L q' := fun inside => same (rep.proper.apart inside member)
      have untouched := (rep.ring q).unlink_untouched member
      have apart : ∀ v ∈ head q' :: L q', v ∉ head q :: L q := fun v here there =>
        same (rep.apart here there)
      rw [List.erase_of_not_mem outside, queueRemove_eq]
      exact (rep.ring q').congr (fun v here => (untouched v (apart v here)).1)
        fun v here => (untouched v (apart v here)).2
  · rw [rep.proper.waits_drop, ← rep.posted]
    change Function.update p.posted e false f = true ↔ _
    by_cases same : f = e
    · simp [same]
    · simp [same]

def Legal (head : PostedQueue → ν) : Op PostedQueue ν → Prop
  | .enter _ e => Real head e
  | .drop _ => True

theorem Represents.runOp (rep : Represents head p L) (op : Op PostedQueue ν) (legal : Legal head op) :
    Represents head (Posted.runOp head p op) (op.apply L) := by
  cases op with
  | enter q e => exact rep.post legal q
  | drop e =>
    rw [Posted.runOp]
    split
    case isTrue set => exact rep.delete ((rep.posted e).mp set)
    case isFalse clear =>
      have idle : ∀ q, e ∉ L q := fun q member => clear ((rep.posted e).mpr ⟨q, member⟩)
      have same : (Op.drop e).apply L = L := funext fun q => List.erase_of_not_mem (idle q)
      rw [same]
      exact rep

theorem Represents.runOps : ∀ (ops : List (Op PostedQueue ν)) {p : Events ν σ}
    {L : Queues PostedQueue ν}, Represents head p L → (∀ op ∈ ops, Legal head op) →
    Represents head (ops.foldl (Posted.runOp head) p) (applyAll L ops)
  | [], _, _, rep, _ => rep
  | op :: ops, _, _, rep, legal =>
    Represents.runOps ops (rep.runOp op (legal op List.mem_cons_self))
      fun op' member => legal op' (List.mem_cons_of_mem op member)

theorem runOp_rest (p : Events ν σ) (op : Op PostedQueue ν) : (runOp head p op).rest = p.rest := by
  cases op with
  | enter q e =>
    rw [runOp, postEvent]
    split <;> rfl
  | drop e =>
    rw [runOp]
    split <;> rfl

theorem runOps_rest : ∀ (ops : List (Op PostedQueue ν)) (p : Events ν σ),
    (ops.foldl (runOp head) p).rest = p.rest
  | [], _ => rfl
  | op :: ops, p => (runOps_rest ops (runOp head p op)).trans (runOp_rest p op)

variable {handler : Handler ν σ} {fuel : Nat} {calls : Calls PostedQueue ν}

/-- What one round of the loop does, in a queue that is not empty. -/
theorem Represents.round {rest : List ν} (rep : Represents head p L) (first : L q = e :: rest)
    (legal : ∀ e s, ∀ op ∈ (handler e s).1, Legal head op) :
    ∃ p₁, (∀ fuel, processPosted head handler (head q) (fuel + 1) p =
        (processPosted head handler (head q) fuel p₁).map fun (p', calls) =>
          (p', (e, (handler e p.rest).1) :: calls)) ∧
      Represents head p₁ (applyAll (Function.update L q rest) (handler e p.rest).1) ∧
      p₁.rest = (handler e p.rest).2 := by
  have inhabited : head q ≠ p.links.prev (head q) := fun same => by
    rw [rep.empty_iff, first] at same
    cases same
  have head_eq : p.links.next (head q) = e := by
    rw [(rep.ring q).next_head, first]
    rfl
  have without : Represents head (deletePostedEvent e p) (Function.update L q rest) := by
    rw [← rep.proper.drop_first first]
    exact rep.delete ⟨q, first ▸ List.mem_cons_self⟩
  refine ⟨_, fun fuel => ?_, (without.rest (handler e p.rest).2).runOps (handler e p.rest).1
    (legal e p.rest), runOps_rest _ _⟩
  rw [processPosted, if_neg inhabited, head_eq]
  rfl

/-- With fuel enough the loop works the queue off. -/
theorem Represents.process {s' : σ} (rep : Represents head p L)
    (legal : ∀ e s, ∀ op ∈ (handler e s).1, Legal head op)
    (drains : Drains handler q L p.rest calls L' s') :
    ∀ fuel, calls.length < fuel →
      ∃ p', processPosted head handler (head q) fuel p = some (p', calls) := by
  generalize start : p.rest = s at drains
  induction drains generalizing p with
  | done empty =>
    intro fuel enough
    cases fuel with
    | zero => exact absurd enough (Nat.not_lt_zero _)
    | succ fuel => exact ⟨p, by rw [processPosted, if_pos (rep.empty_iff.mpr empty)]⟩
  | next first _ ih =>
    intro fuel enough
    subst start
    obtain ⟨p₁, round, rep₁, rest₁⟩ := rep.round first legal
    cases fuel with
    | zero => exact absurd enough (Nat.not_lt_zero _)
    | succ fuel =>
      obtain ⟨p', later⟩ := ih rep₁ rest₁ fuel (Nat.lt_of_succ_lt_succ enough)
      exact ⟨p', by rw [round, later]; rfl⟩

theorem Represents.processed (legal : ∀ e s, ∀ op ∈ (handler e s).1, Legal head op) :
    ∀ (fuel : Nat) {p : Events ν σ} {L : Queues PostedQueue ν} {calls : Calls PostedQueue ν},
      Represents head p L → processPosted head handler (head q) fuel p = some (p', calls) →
      ∃ L', Drains handler q L p.rest calls L' p'.rest ∧ Represents head p' L'
  | 0, _, _, _, _, ended => by cases ended
  | fuel + 1, p, L, calls, rep, ended => by
    cases first : L q with
    | nil =>
      rw [processPosted, if_pos (rep.empty_iff.mpr first)] at ended
      cases ended
      exact ⟨L, .done first, rep⟩
    | cons e rest =>
      obtain ⟨p₁, round, rep₁, rest₁⟩ := rep.round first legal
      rw [round, Option.map_eq_some_iff] at ended
      obtain ⟨⟨p₂, calls'⟩, later, same⟩ := ended
      cases same
      obtain ⟨L', drains, rep'⟩ := Represents.processed legal fuel rep₁ later
      rw [rest₁] at drains
      exact ⟨L', .next first drains, rep'⟩

/-- The states of a process: events are posted and deleted, and the queues are worked off. -/
inductive Reachable (head : PostedQueue → ν) (handler : Handler ν σ) : Events ν σ → Prop
  | init {p : Events ν σ} (clear : ∀ e, p.posted e = false) :
      Reachable head handler (postedInit head p)
  | op {p : Events ν σ} {op : Op PostedQueue ν} : Reachable head handler p → Legal head op →
      Reachable head handler (runOp head p op)
  | rest {p : Events ν σ} (rest : σ) : Reachable head handler p →
      Reachable head handler { p with rest := rest }
  | process {p p' : Events ν σ} {q : PostedQueue} {fuel : Nat} {calls : Calls PostedQueue ν} :
      Reachable head handler p →
      processPosted head handler (head q) fuel p = some (p', calls) → Reachable head handler p'

structure Sound (head : PostedQueue → ν) (handler : Handler ν σ) : Prop where
  distinct : Function.Injective head
  legal : ∀ e s, ∀ op ∈ (handler e s).1, Legal head op

theorem Reachable.represents (sound : Sound head handler) (reached : Reachable head handler p) :
    ∃ L, Represents head p L := by
  induction reached with
  | init clear => exact ⟨_, postedInit_represents sound.distinct clear⟩
  | op _ legal ih =>
    obtain ⟨L, rep⟩ := ih
    exact ⟨_, rep.runOp _ legal⟩
  | rest rest _ ih =>
    obtain ⟨L, rep⟩ := ih
    exact ⟨L, rep.rest rest⟩
  | process _ ended ih =>
    obtain ⟨L, rep⟩ := ih
    obtain ⟨L', _, rep'⟩ := rep.processed sound.legal _ ended
    exact ⟨L', rep'⟩

/-- Whenever the loop over a queue ends, in any state of a run, the queue is empty and the flags tell
again who waits in the other. The handlers were called in the order in which their events had been
posted and no oftener. What was posted and not deleted has been handled since or waits in the other
queue; what was deleted and not posted again has not been handled since. -/
theorem process_posted_exact (sound : Sound head handler) (reached : Reachable head handler p)
    (ended : processPosted head handler (head q) fuel p = some (p', calls)) :
    ∃ L L', Represents head p L ∧ Represents head p' L' ∧ L' q = [] ∧
      calls.items.Sublist (L q ++ entered q calls.ops) ∧
      (∀ e, p.posted e = true → Kept calls.ops e → e ∈ calls.items ∨ p'.posted e = true) ∧
      (∀ before f ops q' e ops' (after : Calls PostedQueue ν), calls = before ++ (f, ops ++ .enter q' e :: ops') :: after →
        Kept (ops' ++ after.ops) e → e ∈ after.items ∨ p'.posted e = true) ∧
      ∀ before f ops e ops' (after : Calls PostedQueue ν), calls = before ++ (f, ops ++ .drop e :: ops') :: after →
        Left (ops' ++ after.ops) e → e ∉ after.items ∧ p'.posted e = false := by
  obtain ⟨L, rep⟩ := reached.represents sound
  obtain ⟨L', drains, rep'⟩ := rep.processed sound.legal fuel ended
  refine ⟨L, L', rep, rep', drains.empty, drains.fifo, ?_, ?_, ?_⟩
  · intro e set kept
    exact (drains.kept ((rep.posted e).mp set) kept).imp_right (rep'.posted e).mpr
  · intro before f ops q' e ops' after split kept
    exact (drains.entered rep.proper split kept).imp_right (rep'.posted e).mpr
  · intro before f ops e ops' after split left
    obtain ⟨unhandled, idle⟩ := drains.dropped rep.proper split left
    refine ⟨unhandled, ?_⟩
    rw [← Bool.not_eq_true, rep'.posted]
    exact idle

/-- The heads are 0 and 1. The handler of 2 posts 3 and deletes 4. -/
def addresses : PostedQueue → Fin 7
  | .acceptEvents => 0
  | .events => 1

def relay : Handler (Fin 7) Unit
  | 2, _ => ([.enter .events 3, .drop 4], ())
  | _, _ => ([], ())

theorem relay_sound : Sound addresses relay where
  distinct q q' same := by cases q <;> cases q' <;> simp_all [addresses]
  legal e s op member := by
    have real : Real addresses 3 := fun q => by cases q <;> decide
    unfold relay at member
    split at member
    · obtain rfl | rfl : op = .enter .events 3 ∨ op = .drop 4 := by simpa using member
      · exact real
      · trivial
    · cases member

def waiting : Events (Fin 7) Unit :=
  [Op.enter .events 2, .enter .events 4].foldl (runOp addresses)
    (postedInit addresses ⟨⟨id, id⟩, fun _ => false, ()⟩)

theorem waiting_reachable : Reachable addresses relay waiting := by
  have start : Reachable addresses relay (postedInit addresses ⟨⟨id, id⟩, fun _ => false, ()⟩) :=
    .init fun _ => rfl
  have two : Real addresses 2 := fun q => by cases q <;> decide
  have four : Real addresses 4 := fun q => by cases q <;> decide
  exact (start.op (show Legal addresses (.enter .events 2) from two)).op
    (show Legal addresses (.enter .events 4) from four)

theorem process_posted_exact_relay :
    ∃ p' calls, processPosted addresses relay 1 4 waiting = some (p', calls) ∧
      calls.items = [2, 3] ∧ p'.posted 4 = false := by
  let result := (processPosted addresses relay 1 4 waiting).getD (waiting, [])
  have ended : processPosted addresses relay (addresses .events) 4 waiting =
    some (result.1, result.2) := rfl
  obtain ⟨_, _, _, _, _, _, _, _, dropped⟩ := process_posted_exact relay_sound waiting_reachable ended
  have gone := dropped [] 2 [.enter .events 3] 4 [] [(3, [])] rfl (by simp [Left, Calls.ops])
  exact ⟨result.1, result.2, ended, rfl, gone.2⟩

/-- The loop over a queue ends if a handler only posts events to it that come below its own in an order
without endless descent. -/
theorem process_posted_ends (sound : Sound head handler) (reached : Reachable head handler p)
    {r : ν → ν → Prop} (wf : WellFounded r)
    (below : ∀ e s, ∀ f ∈ entered q (handler e s).1, r f e) :
    ∃ rounds, ∀ fuel, rounds < fuel →
      ∃ p' calls, processPosted head handler (head q) fuel p = some (p', calls) := by
  obtain ⟨L, rep⟩ := reached.represents sound
  obtain ⟨calls, L', s', drains⟩ := exists_drains wf below L p.rest
  refine ⟨calls.length, fun fuel enough => ?_⟩
  obtain ⟨p', ended⟩ := rep.process sound.legal drains fuel enough
  exact ⟨p', calls, ended⟩

theorem process_posted_ends_relay : ∃ rounds, ∀ fuel, rounds < fuel →
    ∃ p' calls, processPosted addresses relay (addresses .events) fuel waiting = some (p', calls) := by
  refine process_posted_ends relay_sound waiting_reachable (r := fun a b : Fin 7 => b < a)
    (wellFounded_gt) ?_
  intro e s f member
  unfold relay at member
  split at member
  · obtain rfl : f = 3 := by simpa [entered] using member
    decide
  · cases member

end Ngx.Posted
