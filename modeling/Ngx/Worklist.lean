import Mathlib

/-! Items that wait in queues, each in one queue at most and once. Work on an item may enter others,
at the end of a queue and only if they do not wait, and may drop any. A queue is worked off from its
front until it is empty. -/
namespace Worklist

variable {κ ε σ : Type*}

inductive Op (κ ε : Type*)
  | enter (q : κ) (e : ε)
  | drop (e : ε)

abbrev Queues (κ ε : Type*) := κ → List ε

def Waits (L : Queues κ ε) (e : ε) : Prop := ∃ q, e ∈ L q

structure Proper (L : Queues κ ε) : Prop where
  nodup : ∀ q, (L q).Nodup
  apart : ∀ {q q' e}, e ∈ L q → e ∈ L q' → q = q'

def entered [DecidableEq κ] (q : κ) (ops : List (Op κ ε)) : List ε :=
  ops.filterMap fun op =>
    match op with
    | .enter q' e => if q' = q then some e else none
    | .drop _ => none

def Kept (ops : List (Op κ ε)) (e : ε) : Prop := Op.drop e ∉ ops

def Left (ops : List (Op κ ε)) (e : ε) : Prop := ∀ q, Op.enter q e ∉ ops

/-- The items worked on, each with the operations of the work on it. -/
abbrev Calls (κ ε : Type*) := List (ε × List (Op κ ε))

def Calls.items (calls : Calls κ ε) : List ε := calls.map Prod.fst

def Calls.ops (calls : Calls κ ε) : List (Op κ ε) := calls.flatMap Prod.snd

theorem Calls.ops_cons (e : ε) (ops : List (Op κ ε)) (calls : Calls κ ε) :
    Calls.ops ((e, ops) :: calls) = ops ++ calls.ops := rfl

variable [DecidableEq κ]

theorem entered_append {q : κ} (ops ops' : List (Op κ ε)) :
    entered q (ops ++ ops') = entered q ops ++ entered q ops' := List.filterMap_append

theorem Proper.pop {L : Queues κ ε} {q : κ} {e : ε} {rest : List ε} (proper : Proper L) (first : L q = e :: rest) :
    Proper (Function.update L q rest) ∧ ¬Waits (Function.update L q rest) e := by
  have distinct := proper.nodup q
  rw [first, List.nodup_cons] at distinct
  have inside : ∀ {p f}, f ∈ Function.update L q rest p → f ∈ L p := by
    intro p f member
    by_cases same : p = q
    · subst same
      rw [Function.update_self] at member
      exact first ▸ List.mem_cons_of_mem e member
    · rwa [Function.update_of_ne same] at member
  refine ⟨⟨fun p => ?_, fun here there => proper.apart (inside here) (inside there)⟩, ?_⟩
  · by_cases same : p = q
    · subst same
      rw [Function.update_self]
      exact distinct.2
    · rw [Function.update_of_ne same]
      exact proper.nodup p
  · rintro ⟨p, member⟩
    obtain rfl : p = q := proper.apart (inside member) (first ▸ List.mem_cons_self)
    rw [Function.update_self] at member
    exact distinct.1 member

variable [DecidableEq ε]

open Classical in
noncomputable def Op.apply (L : Queues κ ε) : Op κ ε → Queues κ ε
  | .enter q e => if Waits L e then L else Function.update L q (L q ++ [e])
  | .drop e => fun q => (L q).erase e

noncomputable def applyAll (L : Queues κ ε) (ops : List (Op κ ε)) : Queues κ ε := ops.foldl Op.apply L

/-- The queue `q` is worked off. `work` gives what the work on an item does and leaves behind. -/
inductive Drains (work : ε → σ → List (Op κ ε) × σ) (q : κ) :
    Queues κ ε → σ → Calls κ ε → Queues κ ε → σ → Prop
  | done {L : Queues κ ε} {s : σ} (empty : L q = []) : Drains work q L s [] L s
  | next {L L' : Queues κ ε} {s s' : σ} {e : ε} {rest : List ε} {calls : Calls κ ε}
      (first : L q = e :: rest)
      (later : Drains work q (applyAll (Function.update L q rest) (work e s).1) (work e s).2 calls L' s') :
      Drains work q L s ((e, (work e s).1) :: calls) L' s'

variable {work : ε → σ → List (Op κ ε) × σ} {q p : κ} {L L' : Queues κ ε} {s s' : σ} {e f : ε}
  {ops : List (Op κ ε)} {calls : Calls κ ε}

theorem apply_waits_of_enter : Waits ((Op.enter p e).apply L) e := by
  rw [Op.apply]
  split
  case isTrue waits => exact waits
  case isFalse => exact ⟨p, by simp⟩

theorem apply_keeps (op : Op κ ε) (keep : op ≠ .drop e) (member : e ∈ L q) : e ∈ op.apply L q := by
  cases op with
  | enter p f =>
    rw [Op.apply]
    split
    · exact member
    · by_cases same : q = p
      · subst same
        rw [Function.update_self]
        exact List.mem_append_left _ member
      · rw [Function.update_of_ne same]
        exact member
  | drop f =>
    have distinct : e ≠ f := fun same => keep (same ▸ rfl)
    exact (List.mem_erase_of_ne distinct).mpr member

theorem apply_adds (op : Op κ ε) (member : e ∈ op.apply L q) : e ∈ L q ∨ op = .enter q e := by
  cases op with
  | enter p f =>
    rw [Op.apply] at member
    split at member
    · exact .inl member
    · by_cases same : q = p
      · subst same
        rw [Function.update_self, List.mem_append, List.mem_singleton] at member
        exact member.imp id fun same => by rw [same]
      · rw [Function.update_of_ne same] at member
        exact .inl member
  | drop f => exact .inl (List.mem_of_mem_erase member)

theorem apply_sublist (op : Op κ ε) : (op.apply L q).Sublist (L q ++ entered q [op]) := by
  cases op with
  | enter p f =>
    rw [Op.apply]
    split
    · exact List.sublist_append_left _ _
    · by_cases same : q = p
      · subst same
        simp [entered]
      · rw [Function.update_of_ne same]
        exact List.sublist_append_left _ _
  | drop f => exact List.erase_sublist.trans (List.sublist_append_left _ _)

theorem Proper.apply (proper : Proper L) (op : Op κ ε) : Proper (op.apply L) := by
  cases op with
  | enter p f =>
    rw [Op.apply]
    split
    case isTrue => exact proper
    case isFalse absent =>
      have outside : ∀ q, f ∉ L q := fun q member => absent ⟨q, member⟩
      have mem : ∀ {q e}, e ∈ Function.update L p (L p ++ [f]) q ↔ e ∈ L q ∨ q = p ∧ e = f := by
        intro q e
        by_cases same : q = p
        · subst same
          simp
        · simp [same]
      constructor
      · intro q
        by_cases same : q = p
        · subst same
          rw [Function.update_self]
          exact (proper.nodup q).append (List.nodup_singleton f) (by simpa using outside q)
        · rw [Function.update_of_ne same]
          exact proper.nodup q
      · intro q q' e here there
        obtain old | ⟨atP, same⟩ := mem.mp here
        · obtain old' | ⟨-, same⟩ := mem.mp there
          · exact proper.apart old old'
          · exact absurd (same ▸ old) (outside q)
        · obtain old' | ⟨atP', -⟩ := mem.mp there
          · exact absurd (same ▸ old') (outside q')
          · exact atP.trans atP'.symm
  | drop f =>
    exact ⟨fun q => (proper.nodup q).erase f, fun here there =>
      proper.apart (List.mem_of_mem_erase here) (List.mem_of_mem_erase there)⟩

theorem waits_enter : Waits ((Op.enter p e).apply L) f ↔ f = e ∨ Waits L f := by
  constructor
  · rintro ⟨q, member⟩
    obtain old | same := apply_adds _ member
    · exact .inr ⟨q, old⟩
    · cases same
      exact .inl rfl
  · rintro (rfl | ⟨q, member⟩)
    · exact apply_waits_of_enter
    · exact ⟨q, apply_keeps _ (by simp) member⟩

theorem Proper.waits_drop (proper : Proper L) :
    Waits ((Op.drop e : Op κ ε).apply L) f ↔ f ≠ e ∧ Waits L f := by
  constructor
  · rintro ⟨q, member⟩
    exact ⟨fun same => (proper.nodup q).not_mem_erase (same ▸ member), q, List.mem_of_mem_erase member⟩
  · rintro ⟨distinct, q, member⟩
    exact ⟨q, (List.mem_erase_of_ne distinct).mpr member⟩

theorem Proper.drop_first {rest : List ε} (proper : Proper L) (first : L q = e :: rest) :
    (Op.drop e).apply L = Function.update L q rest := by
  funext p
  change (L p).erase e = _
  by_cases same : p = q
  · subst same
    rw [Function.update_self, first, List.erase_cons_head]
  · rw [Function.update_of_ne same]
    refine List.erase_of_not_mem fun member => same ?_
    exact proper.apart member (first ▸ List.mem_cons_self)

theorem applyAll_append (ops ops' : List (Op κ ε)) :
    applyAll L (ops ++ ops') = applyAll (applyAll L ops) ops' := List.foldl_append

theorem applyAll_keeps : ∀ (ops : List (Op κ ε)) {L : Queues κ ε}, Kept ops e → e ∈ L q →
    e ∈ applyAll L ops q
  | [], _, _, member => member
  | op :: ops, _, kept, member =>
    applyAll_keeps ops (fun drop => kept (List.mem_cons_of_mem op drop))
      (apply_keeps op (fun same => kept (same ▸ List.mem_cons_self)) member)

theorem applyAll_adds : ∀ (ops : List (Op κ ε)) {L : Queues κ ε}, e ∈ applyAll L ops q →
    e ∈ L q ∨ Op.enter q e ∈ ops
  | [], _, member => .inl member
  | op :: ops, L, member => by
    obtain member | later := applyAll_adds ops (L := op.apply L) member
    · exact (apply_adds op member).imp id fun same => by simp [same]
    · exact .inr (List.mem_cons_of_mem op later)

theorem applyAll_sublist : ∀ (ops : List (Op κ ε)) {L : Queues κ ε},
    (applyAll L ops q).Sublist (L q ++ entered q ops)
  | [], L => List.sublist_append_left _ _
  | op :: ops, L => by
    have rest := applyAll_sublist ops (L := op.apply L)
    have split : entered q (op :: ops) = entered q [op] ++ entered q ops := entered_append [op] ops
    rw [split, ← List.append_assoc]
    exact rest.trans ((apply_sublist op).append_right _)

theorem Proper.applyAll : ∀ (ops : List (Op κ ε)) {L : Queues κ ε}, Proper L →
    Proper (applyAll L ops)
  | [], _, proper => proper
  | op :: ops, _, proper => Proper.applyAll ops (proper.apply op)

theorem Drains.empty (drains : Drains work q L s calls L' s') : L' q = [] := by
  induction drains with
  | done empty => exact empty
  | next _ _ ih => exact ih

theorem Drains.proper (drains : Drains work q L s calls L' s') (proper : Proper L) : Proper L' := by
  induction drains with
  | done _ => exact proper
  | next first _ ih => exact ih (.applyAll _ (proper.pop first).1)

/-- Items are worked on in the order in which they came in, and no oftener than they did. -/
theorem Drains.fifo (drains : Drains work q L s calls L' s') :
    calls.items.Sublist (L q ++ entered q calls.ops) := by
  induction drains with
  | done _ => exact List.nil_sublist _
  | @next L L' s s' e rest calls first _ ih =>
    have now := applyAll_sublist (q := q) (work e s).1 (L := Function.update L q rest)
    rw [Function.update_self] at now
    rw [Calls.ops_cons, entered_append, first, List.cons_append, ← List.append_assoc]
    exact (ih.trans (now.append_right _)).cons_cons e

theorem Drains.others (drains : Drains work q L s calls L' s') (other : p ≠ q) :
    (L' p).Sublist (L p ++ entered p calls.ops) := by
  induction drains with
  | done _ => exact List.sublist_append_left _ _
  | @next L L' s s' e rest calls first _ ih =>
    have now := applyAll_sublist (q := p) (work e s).1 (L := Function.update L q rest)
    rw [Function.update_of_ne other] at now
    rw [Calls.ops_cons, entered_append, ← List.append_assoc]
    exact ih.trans (now.append_right _)

/-- An item that waits and is not dropped is worked on, or still waits, in another queue. -/
theorem Drains.kept (drains : Drains work q L s calls L' s') (waits : Waits L e)
    (kept : Kept calls.ops e) : e ∈ calls.items ∨ Waits L' e := by
  induction drains with
  | done _ => exact .inr waits
  | @next L L' s s' f rest calls first _ ih =>
    obtain ⟨p, member⟩ := waits
    have still : e = f ∨ e ∈ Function.update L q rest p := by
      by_cases same : p = q
      · subst same
        rw [Function.update_self]
        exact List.mem_cons.mp (first ▸ member)
      · rw [Function.update_of_ne same]
        exact .inr member
    obtain rfl | still := still
    · exact .inl List.mem_cons_self
    · have now := applyAll_keeps (work f s).1 (fun drop => kept (List.mem_append_left _ drop)) still
      exact (ih ⟨p, now⟩ fun drop => kept (List.mem_append_right _ drop)).imp
        (List.mem_cons_of_mem f) id

/-- An item that neither waits nor is entered is not worked on. -/
theorem Drains.left (drains : Drains work q L s calls L' s') (idle : ¬Waits L e)
    (left : Left calls.ops e) : e ∉ calls.items ∧ ¬Waits L' e := by
  induction drains with
  | done _ => exact ⟨List.not_mem_nil, idle⟩
  | @next L L' s s' f rest calls first _ ih =>
    have distinct : e ≠ f := fun same => idle ⟨q, same ▸ first ▸ List.mem_cons_self⟩
    have now : ¬Waits (applyAll (Function.update L q rest) (work f s).1) e := by
      rintro ⟨p, member⟩
      obtain old | new := applyAll_adds _ member
      · by_cases same : p = q
        · subst same
          rw [Function.update_self] at old
          exact idle ⟨p, first ▸ List.mem_cons_of_mem f old⟩
        · rw [Function.update_of_ne same] at old
          exact idle ⟨p, old⟩
      · exact left p (List.mem_append_left _ new)
    obtain ⟨unworked, idle'⟩ := ih now fun p enter => left p (List.mem_append_right _ enter)
    exact ⟨fun member => (List.mem_cons.mp member).elim distinct unworked, idle'⟩

/-- In the middle of the work, after some of the calls. -/
theorem Drains.split {before after : Calls κ ε} {f : ε} (drains : Drains work q L s calls L' s')
    (split : calls = before ++ (f, ops) :: after) (proper : Proper L) :
    ∃ M t, Drains work q (applyAll M ops) t after L' s' ∧ Proper M := by
  induction drains generalizing before with
  | done _ => simp at split
  | @next L L' s s' e rest calls first later ih =>
    cases before with
    | nil =>
      obtain ⟨same, rfl⟩ := List.cons.inj split
      obtain ⟨rfl, rfl⟩ := Prod.mk.inj same
      exact ⟨_, _, later, (proper.pop first).1⟩
    | cons c before =>
      exact ih (List.cons.inj split).2 (.applyAll _ (proper.pop first).1)

/-- What has been entered and is not dropped afterwards is worked on afterwards, or waits in the end
in another queue. -/
theorem Drains.entered {before after : Calls κ ε} {f : ε} {ops' : List (Op κ ε)}
    (drains : Drains work q L s calls L' s') (proper : Proper L)
    (split : calls = before ++ (f, ops ++ .enter p e :: ops') :: after)
    (kept : Kept (ops' ++ after.ops) e) : e ∈ after.items ∨ Waits L' e := by
  obtain ⟨M, t, rest, _⟩ := drains.split split proper
  rw [applyAll_append] at rest
  obtain ⟨p', member⟩ := apply_waits_of_enter (p := p) (L := applyAll M ops) (e := e)
  exact rest.kept ⟨p', applyAll_keeps ops' (fun drop => kept (List.mem_append_left _ drop)) member⟩
    fun drop => kept (List.mem_append_right _ drop)

/-- What has been dropped is not worked on unless it is entered again. -/
theorem Drains.dropped {before after : Calls κ ε} {f : ε} {ops' : List (Op κ ε)}
    (drains : Drains work q L s calls L' s') (proper : Proper L)
    (split : calls = before ++ (f, ops ++ .drop e :: ops') :: after)
    (left : Left (ops' ++ after.ops) e) : e ∉ after.items ∧ ¬Waits L' e := by
  obtain ⟨M, t, rest, proper'⟩ := drains.split split proper
  rw [applyAll_append] at rest
  have gone : ¬Waits ((Op.drop e : Op κ ε).apply (applyAll M ops)) e := fun waits =>
    ((Proper.applyAll ops proper').waits_drop.mp waits).1 rfl
  refine rest.left ?_ fun p enter => left p (List.mem_append_right _ enter)
  rintro ⟨p, member⟩
  obtain old | new := applyAll_adds ops' member
  · exact gone ⟨p, old⟩
  · exact left p (List.mem_append_left _ new)

/-- If what is entered into the queue always ranks below what was worked on, the work ends. -/
theorem exists_drains {r : ε → ε → Prop} (wf : WellFounded r)
    (below : ∀ e s, ∀ f ∈ entered q (work e s).1, r f e) (L : Queues κ ε) (s : σ) :
    ∃ calls L' s', Drains work q L s calls L' s' := by
  have ends : ∀ (bag : Multiset ε) (L : Queues κ ε) (s : σ), (L q : Multiset ε) ≤ bag →
      ∃ calls L' s', Drains work q L s calls L' s' := by
    intro bag
    induction bag using (wf.cutExpand).induction with
    | _ bag ih =>
      intro L s fits
      cases first : L q with
      | nil => exact ⟨[], L, s, .done first⟩
      | cons e rest =>
        rw [first, ← Multiset.cons_coe] at fits
        obtain ⟨bag', rfl⟩ := Multiset.exists_cons_of_mem (Multiset.mem_of_le fits (Multiset.mem_cons_self e _))
        have smaller : Relation.CutExpand r (bag' + entered q (work e s).1) (e ::ₘ bag') :=
          ⟨entered q (work e s).1, e, below e s, by
            rw [← Multiset.singleton_add]
            ac_rfl⟩
        have now := applyAll_sublist (q := q) (work e s).1 (L := Function.update L q rest)
        rw [Function.update_self] at now
        have fits' : (applyAll (Function.update L q rest) (work e s).1 q : Multiset ε) ≤
            bag' + entered q (work e s).1 := by
          calc (applyAll (Function.update L q rest) (work e s).1 q : Multiset ε)
              ≤ (rest : Multiset ε) + entered q (work e s).1 := now.subperm
            _ ≤ bag' + entered q (work e s).1 :=
              Multiset.add_le_add_right ((Multiset.cons_le_cons_iff e).mp fits)
        obtain ⟨calls, L', s', drains⟩ := ih _ smaller _ (work e s).2 fits'
        exact ⟨_, L', s', .next first drains⟩
  exact ends _ L s le_rfl

end Worklist
