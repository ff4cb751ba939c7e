import Mathlib.Data.List.Basic

/-! Opening the listening sockets. What the system answers to each attempt is an input: the
attempt for an entry in a pass over the list. -/
namespace Ngx.Listening

def eaddrinuse : Nat := 98

/-- What is read and written of `ngx_listening_t`; no socket is `fd == -1`. -/
structure Entry where
  fd : Option Nat
  listen : Bool
  deriving DecidableEq, Repr

/-- The answers to the calls of one attempt: the descriptor from `socket`, whether `setsockopt`
and `ngx_nonblocking` succeed, and the errors of `bind` and `listen`. -/
structure Answers where
  socket : Option Nat
  setsockopt : Bool
  nonblocking : Bool
  bind : Option Nat
  listen : Option Nat
  deriving DecidableEq, Repr

inductive SocketEvent where
  | opened (s : Nat)
  | listening (s : Nat)
  | closed (s : Nat)
  deriving DecidableEq, Repr

/-- How an attempt ends: with a socket for the entry, with `failed = 1`, or with `NGX_ERROR`. -/
inductive AttemptEnd where
  | stored (s : Nat)
  | inUse
  | error
  deriving DecidableEq, Repr

def openSocket (a : Answers) : List SocketEvent × AttemptEnd :=
  match a.socket with
  | none => ([], .error)
  | some s =>
    if ¬ a.setsockopt then ([.opened s, .closed s], .error)
    else if ¬ a.nonblocking then ([.opened s, .closed s], .error)
    else match a.bind with
      | some err => ([.opened s, .closed s], if err ≠ eaddrinuse then .error else .inUse)
      | none =>
        match a.listen with
        | some err => ([.opened s, .closed s], if err ≠ eaddrinuse then .error else .inUse)
        | none => ([.opened s, .listening s], .stored s)

/-- What a pass leaves. The events carry the number of their entry. -/
structure PassEnd where
  entries : List Entry
  events : List (Nat × SocketEvent)
  failed : Bool
  error : Bool
  deriving DecidableEq, Repr

def openPass (answers : Nat → Answers) (i : Nat) : List Entry → PassEnd
  | [] => ⟨[], [], false, false⟩
  | ls :: rest =>
    if ls.fd ≠ none then
      let later := openPass answers (i + 1) rest
      { later with entries := ls :: later.entries }
    else
      let done := openSocket (answers i)
      let events := done.1.map (i, ·)
      match done.2 with
      | .error => ⟨ls :: rest, events, false, true⟩
      | .inUse =>
        let later := openPass answers (i + 1) rest
        ⟨ls :: later.entries, events ++ later.events, true, later.error⟩
      | .stored s =>
        let later := openPass answers (i + 1) rest
        ⟨⟨some s, true⟩ :: later.entries, events ++ later.events, later.failed, later.error⟩

inductive Code where
  | ok | error
  deriving DecidableEq, Repr

/-- What the function leaves and returns, and how many passes it made. The events carry the
numbers of their pass and of their entry. -/
structure OpenEnd where
  code : Code
  entries : List Entry
  events : List (Nat × Nat × SocketEvent)
  passes : Nat

/-- The outer loop `for (tries = 5; tries; tries++)` before its `n`-th pass; `failed` is that of
the pass before. -/
def openLoop (answers : Nat → Nat → Answers) (tries : UInt64) (failed : Bool) (n : Nat)
    (ls : List Entry) : OpenEnd :=
  if _more : tries = 0 then ⟨if failed then .error else .ok, ls, [], n⟩
  else
    let pass := openPass (answers n) 0 ls
    let events := pass.events.map (n, ·)
    if pass.error then ⟨.error, pass.entries, events, n + 1⟩
    else if ¬ pass.failed then ⟨.ok, pass.entries, events, n + 1⟩
    else
      let rest := openLoop answers (tries + 1) true (n + 1) pass.entries
      { rest with events := events ++ rest.events }
termination_by (0 - tries).toNat
decreasing_by
  have positive : tries.toNat ≠ 0 := fun zero => _more (UInt64.toNat_inj.mp zero)
  have below := tries.toNat_lt
  simp only [UInt64.toNat_sub, UInt64.toNat_add]
  simp
  omega

def openListeningSockets (answers : Nat → Nat → Answers) (ls : List Entry) : OpenEnd :=
  openLoop answers 5 false 0 ls

/-- The address is found in use, by `bind` or by `listen`, and nothing before failed. -/
def Answers.Busy (a : Answers) : Prop :=
  a.socket ≠ none ∧ a.setsockopt ∧ a.nonblocking ∧
    (a.bind = some eaddrinuse ∨ a.bind = none ∧ a.listen = some eaddrinuse)

/-- A call fails, with another error than `EADDRINUSE` where it is `bind` or `listen`. -/
def Answers.Fails (a : Answers) : Prop :=
  a.socket = none ∨ ¬ a.setsockopt ∨ ¬ a.nonblocking ∨
    (∃ err, a.bind = some err ∧ err ≠ eaddrinuse) ∨
    a.bind = none ∧ ∃ err, a.listen = some err ∧ err ≠ eaddrinuse

theorem Answers.Busy.not_fails {a : Answers} (busy : a.Busy) : ¬ a.Fails := by
  obtain ⟨socket, option, nonblocking, bind | ⟨bind, listen⟩⟩ := busy
  · simp [Answers.Fails, socket, option, nonblocking, bind]
  · simp [Answers.Fails, socket, option, nonblocking, bind, listen]

/-- What an attempt can do: a socket that is not stored was closed at once. -/
theorem openSocket_cases (a : Answers) :
    (a.Fails ∧ ((openSocket a = ([], .error)) ∨
      ∃ s, openSocket a = ([.opened s, .closed s], .error))) ∨
    (a.Busy ∧ ∃ s, openSocket a = ([.opened s, .closed s], .inUse)) ∨
    (¬ a.Fails ∧ ¬ a.Busy ∧ ∃ s, openSocket a = ([.opened s, .listening s], .stored s)) := by
  obtain ⟨socket, option, nonblocking, bind, listen⟩ := a
  cases socket with
  | none => simp [openSocket, Answers.Fails]
  | some s =>
    cases option with
    | false => simp [openSocket, Answers.Fails]
    | true =>
      cases nonblocking with
      | false => simp [openSocket, Answers.Fails]
      | true =>
        cases bind with
        | some err =>
          by_cases same : err = eaddrinuse <;>
            simp [openSocket, Answers.Fails, Answers.Busy, same]
        | none =>
          cases listen with
          | some err =>
            by_cases same : err = eaddrinuse <;>
              simp [openSocket, Answers.Fails, Answers.Busy, same]
          | none => simp [openSocket, Answers.Fails, Answers.Busy]

theorem openSocket_error_iff (a : Answers) : (openSocket a).2 = .error ↔ a.Fails := by
  rcases openSocket_cases a with ⟨fails, ended | ⟨s, ended⟩⟩ | ⟨busy, s, ended⟩ |
    ⟨works, _, s, ended⟩
  · simp [ended, fails]
  · simp [ended, fails]
  · simp [ended, busy.not_fails]
  · simp [ended, works]

theorem openSocket_inUse_iff (a : Answers) : (openSocket a).2 = .inUse ↔ a.Busy := by
  rcases openSocket_cases a with ⟨fails, ended⟩ | ⟨busy, s, ended⟩ | ⟨_, free, s, ended⟩
  · have free : ¬ a.Busy := fun busy => busy.not_fails fails
    rcases ended with ended | ⟨s, ended⟩ <;> simp [ended, free]
  · simp [ended, busy]
  · simp [ended, free]

def Vacant (ls : List Entry) (i : Nat) : Prop := ∃ e, ls[i]? = some e ∧ e.fd = none

@[simp] theorem not_vacant_nil (i : Nat) : ¬ Vacant [] i := by simp [Vacant]

@[simp] theorem vacant_cons_zero (e : Entry) (ls : List Entry) :
    Vacant (e :: ls) 0 ↔ e.fd = none := by simp [Vacant]

@[simp] theorem vacant_cons_succ (e : Entry) (ls : List Entry) (i : Nat) :
    Vacant (e :: ls) (i + 1) ↔ Vacant ls i := by simp [Vacant]

/-- A property of some entry is one of the first or of a later one. -/
theorem exists_vacant_cons (e : Entry) (ls : List Entry) (p : Nat → Prop) :
    (∃ j, Vacant (e :: ls) j ∧ p j) ↔ e.fd = none ∧ p 0 ∨ ∃ j, Vacant ls j ∧ p (j + 1) := by
  constructor
  · rintro ⟨j, vacant, holds⟩
    cases j with
    | zero => exact .inl ⟨by simpa using vacant, holds⟩
    | succ j => exact .inr ⟨j, by simpa using vacant, holds⟩
  · rintro (⟨vacant, holds⟩ | ⟨j, vacant, holds⟩)
    · exact ⟨0, by simpa using vacant, holds⟩
    · exact ⟨j + 1, by simpa using vacant, holds⟩

/-- A pass ends with `NGX_ERROR` when an entry without a socket meets a failure. -/
theorem openPass_error_iff (answers : Nat → Answers) (i : Nat) (ls : List Entry) :
    (openPass answers i ls).error = true ↔ ∃ j, Vacant ls j ∧ (answers (i + j)).Fails := by
  fun_induction openPass answers i ls with
  | case1 i => simp
  | case2 i ls rest given later ih =>
    simpa [exists_vacant_cons, given, Nat.add_assoc, Nat.add_comm 1] using ih
  | case3 i ls rest missing done events ended =>
    have fails := (openSocket_error_iff _).mp ended
    simp only [exists_vacant_cons, true_iff]
    exact .inl ⟨by simpa using missing, fails⟩
  | case4 i ls rest missing done events ended later ih =>
    have works := ((openSocket_inUse_iff _).mp ended).not_fails
    simpa [exists_vacant_cons, works, Nat.add_assoc, Nat.add_comm 1] using ih
  | case5 i ls rest missing done events s ended later ih =>
    have works : ¬ (answers i).Fails := fun fails => by
      simp [done, (openSocket_error_iff _).mpr fails] at ended
    simpa [exists_vacant_cons, works, Nat.add_assoc, Nat.add_comm 1] using ih

/-- The entries that a pass leaves without a socket are those whose address was in use. -/
theorem openPass_vacant_iff {answers : Nat → Answers} {i : Nat} {ls : List Entry}
    (finished : (openPass answers i ls).error = false) (j : Nat) :
    Vacant (openPass answers i ls).entries j ↔ Vacant ls j ∧ (answers (i + j)).Busy := by
  fun_induction openPass answers i ls generalizing j with
  | case1 i => simp
  | case2 i ls rest given later ih =>
    cases j with
    | zero => simp [given]
    | succ j => simpa [Nat.add_assoc, Nat.add_comm 1] using ih finished j
  | case3 => cases finished
  | case4 i ls rest missing done events ended later ih =>
    have busy := (openSocket_inUse_iff _).mp ended
    cases j with
    | zero => simp [busy]
    | succ j => simpa [Nat.add_assoc, Nat.add_comm 1] using ih finished j
  | case5 i ls rest missing done events s ended later ih =>
    have free : ¬ (answers i).Busy := fun busy => by
      simp [done, (openSocket_inUse_iff _).mpr busy] at ended
    cases j with
    | zero => simp [free]
    | succ j => simpa [Nat.add_assoc, Nat.add_comm 1] using ih finished j

/-- `failed` says that the pass leaves an entry without a socket. -/
theorem openPass_failed_iff {answers : Nat → Answers} {i : Nat} {ls : List Entry}
    (finished : (openPass answers i ls).error = false) :
    (openPass answers i ls).failed = true ↔ ∃ j, Vacant (openPass answers i ls).entries j := by
  have some_cons : ∀ (e : Entry) (ls : List Entry),
      (∃ j, Vacant (e :: ls) j) ↔ e.fd = none ∨ ∃ j, Vacant ls j :=
    fun e ls => by simpa using exists_vacant_cons e ls fun _ => True
  fun_induction openPass answers i ls with
  | case1 i => simp
  | case2 i ls rest given later ih => simpa [some_cons, given] using ih finished
  | case3 => cases finished
  | case4 i ls rest missing done events ended later ih =>
    simp [some_cons, Decidable.not_not.mp missing]
  | case5 i ls rest missing done events s ended later ih => simpa [some_cons] using ih finished

/-- A pass that ends with `NGX_ERROR` leaves an entry without a socket. -/
theorem openPass_error_vacant {answers : Nat → Answers} {i : Nat} {ls : List Entry}
    (ended : (openPass answers i ls).error = true) :
    ∃ j, Vacant (openPass answers i ls).entries j := by
  fun_induction openPass answers i ls with
  | case1 => cases ended
  | case2 i ls rest given later ih =>
    obtain ⟨j, vacant⟩ := ih ended
    exact ⟨j + 1, by simpa using vacant⟩
  | case3 i ls rest missing => exact ⟨0, by simpa using missing⟩
  | case4 i ls rest missing done events inUse later ih =>
    obtain ⟨j, vacant⟩ := ih ended
    exact ⟨j + 1, by simpa using vacant⟩
  | case5 i ls rest missing done events s stored later ih =>
    obtain ⟨j, vacant⟩ := ih ended
    exact ⟨j + 1, by simpa using vacant⟩

/-- What the calls for an entry may leave, over any passes: a socket of a pass is closed in it, or
listens and stays with the entry, and an entry that has a socket is left alone. -/
structure Kept (given left : Option Entry) (events : Nat → SocketEvent → Prop) : Prop where
  opened : ∀ n s, events n (.opened s) →
    events n (.closed s) ∨ ∃ e, left = some e ∧ e.fd = some s
  stored : left = given ∨ ∃ e n s, left = some e ∧ e.fd = some s ∧
    events n (.listening s) ∧ ∀ r, ¬ events n (.closed r)
  held : ∀ e, given = some e → e.fd ≠ none → left = given

theorem Kept.congr {given left : Option Entry} {events events' : Nat → SocketEvent → Prop}
    (kept : Kept given left events) (same : ∀ n x, events' n x ↔ events n x) :
    Kept given left events' := by
  have equal : events' = events := funext fun n => funext fun x => propext (same n x)
  exact equal ▸ kept

theorem Kept.idle (given : Option Entry) : Kept given given fun _ _ => False :=
  ⟨fun _ _ opened => opened.elim, .inl rfl, fun _ _ _ => rfl⟩

/-- Passes one after the other. -/
theorem Kept.append {given middle left : Option Entry} {first second : Nat → SocketEvent → Prop}
    (before : Kept given middle first) (after : Kept middle left second)
    (apart : ∀ n x y, first n x → ¬ second n y) :
    Kept given left fun n x => first n x ∨ second n x := by
  refine ⟨?_, ?_, ?_⟩
  · rintro n s (opened | opened)
    · rcases before.opened n s opened with closed | ⟨e, stands, fd⟩
      · exact .inl (.inl closed)
      · exact .inr ⟨e, (after.held e stands (by simp [fd])).trans stands, fd⟩
    · exact (after.opened n s opened).imp_left .inr
  · rcases after.stored with stays | ⟨e, n, s, stands, fd, listening, opened⟩
    · rcases before.stored with given | ⟨e, n, s, stands, fd, listening, opened⟩
      · exact .inl (stays.trans given)
      · refine .inr ⟨e, n, s, stays.trans stands, fd, .inl listening, ?_⟩
        rintro r (closed | closed)
        · exact opened r closed
        · exact apart n _ _ listening closed
    · refine .inr ⟨e, n, s, stands, fd, .inr listening, ?_⟩
      rintro r (closed | closed)
      · exact apart n _ _ closed listening
      · exact opened r closed
  · intro e stands fd
    have kept := before.held e stands fd
    exact (after.held e (kept.trans stands) fd).trans kept

theorem openSocket_kept {a : Answers} {e : Entry} (missing : e.fd = none) (n : Nat) :
    Kept (some e) (some (match (openSocket a).2 with | .stored s => ⟨some s, true⟩ | _ => e))
      fun m x => m = n ∧ x ∈ (openSocket a).1 := by
  rcases openSocket_cases a with ⟨_, ended | ⟨s, ended⟩⟩ | ⟨_, s, ended⟩ | ⟨_, _, s, ended⟩
  all_goals constructor <;> simp [ended, missing]

theorem openPass_length (answers : Nat → Answers) (i : Nat) (ls : List Entry) :
    (openPass answers i ls).entries.length = ls.length := by
  fun_induction openPass answers i ls with
  | case1 => rfl
  | case2 i ls rest given later ih => exact congrArg (· + 1) ih
  | case3 => rfl
  | case4 i ls rest missing done events ended later ih => exact congrArg (· + 1) ih
  | case5 i ls rest missing done events s ended later ih => exact congrArg (· + 1) ih

/-- Events with a number in front all have that number. -/
theorem number_eq {α : Type} {events : List α} {n m : Nat} {x : α}
    (mem : (m, x) ∈ events.map (n, ·)) : n = m := by
  obtain ⟨_, _, same⟩ := List.mem_map.mp mem
  exact (Prod.mk.inj same).1

theorem openPass_since {answers : Nat → Answers} {i : Nat} {ls : List Entry} {k : Nat}
    {x : SocketEvent} (mem : (k, x) ∈ (openPass answers i ls).events) : i ≤ k := by
  fun_induction openPass answers i ls with
  | case1 => simp at mem
  | case2 i ls rest given later ih => exact Nat.le_of_succ_le (ih mem)
  | case3 i ls rest missing done events ended => exact Nat.le_of_eq (number_eq mem)
  | case4 i ls rest missing done events ended later ih =>
    rcases List.mem_append.mp mem with mem | mem
    · exact Nat.le_of_eq (number_eq mem)
    · exact Nat.le_of_succ_le (ih mem)
  | case5 i ls rest missing done events s ended later ih =>
    rcases List.mem_append.mp mem with mem | mem
    · exact Nat.le_of_eq (number_eq mem)
    · exact Nat.le_of_succ_le (ih mem)

/-- The events of the first entry are those of its attempt. -/
theorem mem_first_iff {answers : Nat → Answers} {i : Nat} {rest : List Entry}
    {events : List SocketEvent} {x : SocketEvent} :
    (i, x) ∈ events.map (i, ·) ++ (openPass answers (i + 1) rest).events ↔ x ∈ events := by
  have later : (i, x) ∉ (openPass answers (i + 1) rest).events := fun mem =>
    absurd (openPass_since mem) (by omega)
  simp [later]

theorem mem_later_iff {events : List SocketEvent} {later : List (Nat × SocketEvent)} {i j : Nat}
    {x : SocketEvent} :
    (i + (j + 1), x) ∈ events.map (i, ·) ++ later ↔ (i + 1 + j, x) ∈ later := by
  simp [Nat.add_assoc, Nat.add_comm 1]

/-- The first entry after its attempt, whatever becomes of the later ones. -/
theorem first_kept {answers : Nat → Answers} {ls : Entry} (missing : ¬ ls.fd ≠ none) (i : Nat)
    (rest : List Entry) (n : Nat) :
    Kept (some ls)
      (some (match (openSocket (answers i)).2 with | .stored s => ⟨some s, true⟩ | _ => ls))
      fun m x => m = n ∧ (i, x) ∈ (openSocket (answers i)).1.map (i, ·) ++
        (openPass answers (i + 1) rest).events :=
  (openSocket_kept (Decidable.not_not.mp missing) n).congr
    fun _ _ => and_congr_right fun _ => mem_first_iff

theorem openPass_kept (answers : Nat → Answers) (i : Nat) (ls : List Entry) (n j : Nat) :
    Kept ls[j]? (openPass answers i ls).entries[j]?
      fun m x => m = n ∧ (i + j, x) ∈ (openPass answers i ls).events := by
  fun_induction openPass answers i ls generalizing j with
  | case1 i => exact (Kept.idle _).congr (by simp)
  | case2 i ls rest given later ih =>
    cases j with
    | zero =>
      refine (Kept.idle _).congr fun m x => ?_
      have since : (i, x) ∉ later.events := fun mem => absurd (openPass_since mem) (by omega)
      simpa using fun _ => since
    | succ j => exact (ih j).congr (by simp [later, Nat.add_assoc, Nat.add_comm 1])
  | case3 i ls rest missing done events ended =>
    cases j with
    | zero =>
      have kept := openSocket_kept (a := answers i) (Decidable.not_not.mp missing) n
      simp only [done] at ended
      simpa [ended, events, done] using kept
    | succ j => exact (Kept.idle _).congr (by simp [events])
  | case4 i ls rest missing done events ended later ih =>
    cases j with
    | zero =>
      have kept := @first_kept answers ls missing i rest n
      simp only [done] at ended
      simp only [ended] at kept
      exact kept
    | succ j => exact (ih j).congr fun m x => and_congr_right fun _ => mem_later_iff
  | case5 i ls rest missing done events s ended later ih =>
    cases j with
    | zero =>
      have kept := @first_kept answers ls missing i rest n
      simp only [done] at ended
      simp only [ended] at kept
      exact kept
    | succ j => exact (ih j).congr fun m x => and_congr_right fun _ => mem_later_iff

theorem openLoop_length (answers : Nat → Nat → Answers) (tries : UInt64) (failed : Bool) (n : Nat)
    (ls : List Entry) : (openLoop answers tries failed n ls).entries.length = ls.length := by
  fun_induction openLoop answers tries failed n ls with
  | case1 => rfl
  | case2 => exact openPass_length _ _ _
  | case3 => exact openPass_length _ _ _
  | case4 tries failed n ls more pass events finished again rest ih =>
    exact ih.trans (openPass_length _ _ _)

theorem openLoop_since {answers : Nat → Nat → Answers} {tries : UInt64} {failed : Bool} {n : Nat}
    {ls : List Entry} {m j : Nat} {x : SocketEvent}
    (mem : (m, j, x) ∈ (openLoop answers tries failed n ls).events) : n ≤ m := by
  fun_induction openLoop answers tries failed n ls with
  | case1 => simp at mem
  | case2 tries failed n ls more pass events ended => exact Nat.le_of_eq (number_eq mem)
  | case3 tries failed n ls more pass events ended through => exact Nat.le_of_eq (number_eq mem)
  | case4 tries failed n ls more pass events finished again rest ih =>
    rcases List.mem_append.mp mem with mem | mem
    · exact Nat.le_of_eq (number_eq mem)
    · exact Nat.le_of_succ_le (ih mem)

/-- No run of passes loses a socket. -/
theorem openLoop_kept (answers : Nat → Nat → Answers) (tries : UInt64) (failed : Bool) (n : Nat)
    (ls : List Entry) (j : Nat) :
    Kept ls[j]? (openLoop answers tries failed n ls).entries[j]?
      fun m x => (m, j, x) ∈ (openLoop answers tries failed n ls).events := by
  have one : ∀ (n : Nat) (ls : List Entry), Kept ls[j]? (openPass (answers n) 0 ls).entries[j]?
      fun m x => (m, j, x) ∈ (openPass (answers n) 0 ls).events.map (n, ·) := fun n ls =>
    (openPass_kept (answers n) 0 ls n j).congr fun m x => by
      simp only [List.mem_map, Prod.mk.injEq, Nat.zero_add]
      constructor
      · rintro ⟨_, mem, rfl, rfl⟩
        exact ⟨rfl, mem⟩
      · rintro ⟨rfl, mem⟩
        exact ⟨_, mem, rfl, rfl⟩
  fun_induction openLoop answers tries failed n ls with
  | case1 => exact (Kept.idle _).congr (by simp)
  | case2 tries failed n ls more pass events ended => exact one n ls
  | case3 tries failed n ls more pass events ended through => exact one n ls
  | case4 tries failed n ls more pass events finished again rest ih =>
    refine ((one n ls).append ih ?_).congr fun m x => List.mem_append
    intro m x y first second
    have now := number_eq first
    have later := openLoop_since second
    omega

/-- The code returned says whether every entry has a socket. -/
theorem openLoop_code (answers : Nat → Nat → Answers) (tries : UInt64) (failed : Bool) (n : Nat)
    (ls : List Entry) (last : tries = 0 → failed = true ∧ ∃ j, Vacant ls j) :
    (openLoop answers tries failed n ls).code = .ok ↔
      ∀ j, ¬ Vacant (openLoop answers tries failed n ls).entries j := by
  fun_induction openLoop answers tries failed n ls with
  | case1 failed n ls =>
    obtain ⟨rfl, j, vacant⟩ := last rfl
    simpa using ⟨j, vacant⟩
  | case2 tries failed n ls more pass events ended =>
    obtain ⟨j, vacant⟩ := openPass_error_vacant ended
    simpa using ⟨j, vacant⟩
  | case3 tries failed n ls more pass events finished through =>
    have finished : pass.error = false := by simpa using finished
    have failed_iff := openPass_failed_iff finished
    have none_left : ¬ ∃ j, Vacant pass.entries j := fun left => by
      simp [pass, failed_iff.mpr left] at through
    simpa using none_left
  | case4 tries failed n ls more pass events finished again rest ih =>
    have finished : pass.error = false := by simpa using finished
    exact ih fun _ => ⟨rfl, (openPass_failed_iff finished).mp (by simpa using again)⟩

theorem openLoop_last {answers : Nat → Nat → Answers} {tries : UInt64} {failed : Bool} {n : Nat}
    {ls : List Entry} (more : tries ≠ 0)
    (last : (openPass (answers n) 0 ls).error = true ∨ (openPass (answers n) 0 ls).failed = false) :
    (openLoop answers tries failed n ls).passes = n + 1 := by
  rw [openLoop, dif_neg more]
  cases ended : (openPass (answers n) 0 ls).error with
  | true => simp [ended]
  | false =>
    have through : (openPass (answers n) 0 ls).failed = false := by simpa [ended] using last
    simp [ended, through]

theorem openLoop_again {answers : Nat → Nat → Answers} {tries : UInt64} {failed : Bool} {n : Nat}
    {ls : List Entry} (more : tries ≠ 0) (finished : (openPass (answers n) 0 ls).error = false)
    (again : (openPass (answers n) 0 ls).failed = true) :
    (openLoop answers tries failed n ls).passes =
      (openLoop answers (tries + 1) true (n + 1) (openPass (answers n) 0 ls).entries).passes := by
  rw [openLoop, dif_neg more]
  simp [finished, again]

/-- A pass is made as long as `tries` is not 0. -/
theorem openLoop_passes (answers : Nat → Nat → Answers) {tries : UInt64} (failed : Bool) (n : Nat)
    (ls : List Entry) (more : tries ≠ 0) : n < (openLoop answers tries failed n ls).passes := by
  have start : ∀ {tries failed n ls}, n ≤ (openLoop answers tries failed n ls).passes := by
    intro tries failed n ls
    fun_induction openLoop answers tries failed n ls with
    | case1 => exact Nat.le_refl _
    | case2 => exact Nat.le_succ _
    | case3 => exact Nat.le_succ _
    | case4 tries failed n ls more pass events finished again rest ih =>
      exact Nat.le_of_succ_le ih
  cases finished : (openPass (answers n) 0 ls).error with
  | true => simp [openLoop_last more (.inl finished)]
  | false =>
    cases again : (openPass (answers n) 0 ls).failed with
    | false => simp [openLoop_last more (.inr again)]
    | true => exact openLoop_again more finished again ▸ start

def InUse (answers : Nat → Nat → Answers) (n i : Nat) : Prop := ∀ m < n, (answers m i).Busy

/-- Each of the first `k` passes is followed by another: some entry finds its address in use in
all of them, and none that still has no socket meets another failure. -/
def Again (answers : Nat → Nat → Answers) (ls : List Entry) (k : Nat) : Prop :=
  (∃ i, Vacant ls i ∧ InUse answers k i) ∧
    ∀ n < k, ∀ i, Vacant ls i → InUse answers n i → ¬ (answers n i).Fails

theorem InUse.succ_iff {answers : Nat → Nat → Answers} {n i : Nat} :
    InUse answers (n + 1) i ↔ (answers 0 i).Busy ∧ InUse (fun m => answers (m + 1)) n i := by
  constructor
  · exact fun busy => ⟨busy 0 (Nat.succ_pos n), fun m lt => busy (m + 1) (Nat.succ_lt_succ lt)⟩
  · rintro ⟨first, later⟩ m lt
    cases m with
    | zero => exact first
    | succ m => exact later m (Nat.lt_of_succ_lt_succ lt)

/-- What is left to ask after a pass that was not the last. -/
theorem again_succ_iff {answers : Nat → Nat → Answers} {ls : List Entry} {k : Nat}
    (finished : (openPass (answers 0) 0 ls).error = false) :
    Again answers ls (k + 1) ↔
      Again (fun m => answers (m + 1)) (openPass (answers 0) 0 ls).entries k := by
  have vacant_iff : ∀ i, Vacant (openPass (answers 0) 0 ls).entries i ↔
      Vacant ls i ∧ (answers 0 i).Busy := fun i => by
    simpa using openPass_vacant_iff finished i
  have works : ∀ i, Vacant ls i → ¬ (answers 0 i).Fails := fun i vacant fails => by
    have ended := (openPass_error_iff (answers 0) 0 ls).mpr ⟨i, vacant, by simpa using fails⟩
    exact Bool.false_ne_true (finished.symm.trans ended)
  constructor
  · rintro ⟨⟨i, vacant, busy⟩, clear⟩
    refine ⟨⟨i, (vacant_iff i).mpr ⟨vacant, (InUse.succ_iff.mp busy).1⟩,
      (InUse.succ_iff.mp busy).2⟩, fun n lt i vacant busy => ?_⟩
    obtain ⟨vacant, first⟩ := (vacant_iff i).mp vacant
    exact clear (n + 1) (Nat.succ_lt_succ lt) i vacant (InUse.succ_iff.mpr ⟨first, busy⟩)
  · rintro ⟨⟨i, vacant, busy⟩, clear⟩
    obtain ⟨vacant, first⟩ := (vacant_iff i).mp vacant
    refine ⟨⟨i, vacant, InUse.succ_iff.mpr ⟨first, busy⟩⟩, fun n lt i vacant busy => ?_⟩
    cases n with
    | zero => exact works i vacant
    | succ n =>
      obtain ⟨first, busy⟩ := InUse.succ_iff.mp busy
      exact clear n (Nat.lt_of_succ_lt_succ lt) i ((vacant_iff i).mpr ⟨vacant, first⟩) busy

@[simp] theorem again_zero_iff {answers : Nat → Nat → Answers} {ls : List Entry} :
    Again answers ls 0 ↔ ∃ i, Vacant ls i := by
  simp [Again, InUse]

/-- One pass, and what the passes after it do. -/
theorem openLoop_more_step {answers : Nat → Nat → Answers} {tries : UInt64} (failed : Bool)
    {n k : Nat} {ls : List Entry} (more : tries ≠ 0)
    (rest : (openPass (answers n) 0 ls).error = false → (openPass (answers n) 0 ls).failed = true →
      (n + (k + 1) <
          (openLoop answers (tries + 1) true (n + 1) (openPass (answers n) 0 ls).entries).passes ↔
        Again (fun m => answers (n + (m + 1))) (openPass (answers n) 0 ls).entries k)) :
    n + (k + 1) < (openLoop answers tries failed n ls).passes ↔
      Again (fun m => answers (n + m)) ls (k + 1) := by
  cases ended : (openPass (answers n) 0 ls).error with
  | true =>
    obtain ⟨i, vacant, fails⟩ := (openPass_error_iff _ _ _).mp ended
    have stops : ¬ Again (fun m => answers (n + m)) ls (k + 1) := fun again =>
      again.2 0 (Nat.succ_pos k) i vacant (fun _ lt => absurd lt (Nat.not_lt_zero _))
        (by simpa using fails)
    simp [openLoop_last more (.inl ended), stops]
  | false =>
    rw [again_succ_iff ended]
    cases again : (openPass (answers n) 0 ls).failed with
    | false =>
      have none_left : ¬ ∃ i, Vacant (openPass (answers n) 0 ls).entries i := fun left =>
        Bool.false_ne_true (again.symm.trans ((openPass_failed_iff ended).mpr left))
      have stops : ∀ later, ¬ Again later (openPass (answers n) 0 ls).entries k :=
        fun later again => none_left ⟨again.1.choose, again.1.choose_spec.1⟩
      simp [openLoop_last more (.inr again), stops]
    | true =>
      rw [openLoop_again more ended again]
      exact rest ended again

theorem tries_succ {tries : UInt64} (fits : tries.toNat + 1 < UInt64.size) :
    (tries + 1).toNat = tries.toNat + 1 ∧ tries + 1 ≠ 0 := by
  have next : (tries + 1).toNat = tries.toNat + 1 := by
    rw [UInt64.toNat_add]
    exact Nat.mod_eq_of_lt fits
  exact ⟨next, fun zero => by simp [zero] at next⟩

/-- As long as `tries` has not come round to 0, nothing but the answers bounds the passes. -/
theorem openLoop_more_iff (answers : Nat → Nat → Answers) (tries : UInt64) (failed : Bool)
    (n k : Nat) (ls : List Entry) (more : tries ≠ 0) (fits : tries.toNat + (k + 1) < UInt64.size) :
    n + (k + 1) < (openLoop answers tries failed n ls).passes ↔
      Again (fun m => answers (n + m)) ls (k + 1) := by
  induction k generalizing tries failed n ls with
  | zero =>
    refine openLoop_more_step failed more fun ended again => ?_
    have made := openLoop_passes answers true (n + 1) (openPass (answers n) 0 ls).entries
      (tries_succ fits).2
    simpa using iff_of_true made ((openPass_failed_iff ended).mp again)
  | succ k ih =>
    refine openLoop_more_step failed more fun ended again => ?_
    obtain ⟨next, more'⟩ := tries_succ (show tries.toNat + 1 < UInt64.size by omega)
    have rest := ih (tries + 1) true (n + 1) (openPass (answers n) 0 ls).entries more' (by omega)
    have same : (fun m => answers (n + 1 + m)) = fun m => answers (n + (m + 1)) :=
      funext fun m => congrArg answers (by omega)
    have shift : n + 1 + (k + 1) = n + (k + 1 + 1) := by omega
    rw [same, shift] at rest
    exact rest

/-- The entry has a socket: the one it came with, or one that a pass opened, that listens and that
no call of that pass closed. -/
def HasSocket (ls : List Entry) (done : OpenEnd) (i : Nat) (e : Entry) : Prop :=
  e.fd ≠ none ∧ (ls[i]? = some e ∨ ∃ n s, e.fd = some s ∧
    (n, i, .listening s) ∈ done.events ∧ ∀ r, (n, i, .closed r) ∉ done.events)

structure Bounded (ls : List Entry) (done : OpenEnd) : Prop where
  passes : done.passes ≤ 5
  entries : done.entries.length = ls.length
  ok_iff : done.code = .ok ↔ ∀ i e, done.entries[i]? = some e → HasSocket ls done i e
  opened : ∀ n i s, (n, i, .opened s) ∈ done.events →
    (n, i, .closed s) ∈ done.events ∨ ∃ e, done.entries[i]? = some e ∧ e.fd = some s

/-- `NGX_OK` says that every entry has a socket, whatever the answers and the passes. -/
theorem openListeningSockets_ok_iff (answers : Nat → Nat → Answers) (ls : List Entry) :
    (openListeningSockets answers ls).code = .ok ↔
      ∀ i e, (openListeningSockets answers ls).entries[i]? = some e →
        HasSocket ls (openListeningSockets answers ls) i e := by
  have code := openLoop_code answers 5 false 0 ls (by simp)
  refine code.trans ⟨fun full i e stands => ?_, fun all i vacant => ?_⟩
  · have fd : e.fd ≠ none := fun missing => full i ⟨e, stands, missing⟩
    refine ⟨fd, ?_⟩
    rcases (openLoop_kept answers 5 false 0 ls i).stored with given | ⟨e', n, s, stands', rest⟩
    · exact .inl (given.symm.trans stands)
    · obtain rfl := Option.some.inj (stands.symm.trans stands')
      exact .inr ⟨n, s, rest⟩
  · obtain ⟨e, stands, missing⟩ := vacant
    exact (all i e stands).1 missing

theorem not_again_iff {answers : Nat → Nat → Answers} {ls : List Entry} {k : Nat} :
    ¬ Again answers ls k ↔ (∀ i, Vacant ls i → ¬ InUse answers k i) ∨
      ∃ n < k, ∃ i, Vacant ls i ∧ InUse answers n i ∧ (answers n i).Fails := by
  simp only [Again]
  grind

theorem openListeningSockets_passes_iff (answers : Nat → Nat → Answers) (ls : List Entry) :
    (openListeningSockets answers ls).passes ≤ 5 ↔ ¬ Again answers ls 5 := by
  have more := openLoop_more_iff answers 5 false 0 4 ls (by decide) (by decide)
  simp only [Nat.zero_add] at more
  rw [← more]
  exact Nat.not_lt.symm

/-- `tries` counts up from 5, so it bounds nothing: five passes are enough exactly when no entry
finds its address in use in all of them, or one of them meets another failure. -/
theorem openListeningSockets_bounded_iff (answers : Nat → Nat → Answers) (ls : List Entry) :
    Bounded ls (openListeningSockets answers ls) ↔
      (∀ i, Vacant ls i → ¬ InUse answers 5 i) ∨
        ∃ n < 5, ∃ i, Vacant ls i ∧ InUse answers n i ∧ (answers n i).Fails := by
  rw [← not_again_iff, ← openListeningSockets_passes_iff]
  refine ⟨fun bounded => bounded.passes, fun passes => ⟨passes, ?_, ?_, ?_⟩⟩
  · exact openLoop_length answers 5 false 0 ls
  · exact openListeningSockets_ok_iff answers ls
  · exact fun n i s opened => (openLoop_kept answers 5 false 0 ls i).opened n s opened

def taken : Answers := ⟨some 7, true, true, some eaddrinuse, none⟩

theorem taken_address_sixth_pass :
    ¬ Bounded [⟨none, false⟩] (openListeningSockets (fun _ _ => taken) [⟨none, false⟩]) := by
  have busy : taken.Busy := by simp [Answers.Busy, taken]
  have again : Again (fun _ _ => taken) [⟨none, false⟩] 5 :=
    ⟨⟨0, by simp, fun _ _ => busy⟩, fun _ _ _ _ _ => busy.not_fails⟩
  exact fun bounded =>
    (openListeningSockets_passes_iff _ _).mp bounded.passes again

end Ngx.Listening
