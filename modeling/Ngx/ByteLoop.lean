import Ngx.Resumable

/-! The loop of a parser over a buffer: a round is made while the position is before the end of
what was received, and moves forward. Rounds that read only the byte at the position fold over
the bytes, wherever the loop is left and entered again. -/
namespace ByteLoop

variable {β κ ε : Type}

def loop (round : κ → Except ε κ) (pos : κ → Nat) (last : Nat) : Nat → κ → Except ε κ
  | 0, c => .ok c
  | n + 1, c =>
    if last ≤ pos c then .ok c
    else match round c with
      | .ok c' => loop round pos last n c'
      | .error e => .error e

def run (round : κ → Except ε κ) (pos : κ → Nat) (last : Nat) (c : κ) : Except ε κ :=
  loop round pos last (last - pos c) c

def Forward (round : κ → Except ε κ) (pos : κ → Nat) : Prop :=
  ∀ {c c'}, round c = .ok c' → pos c < pos c'

variable {round : κ → Except ε κ} {pos : κ → Nat} {last : Nat} {c : κ}

theorem bind_eq_ok {α γ : Type} {x : Except ε α} {f : α → Except ε γ} {y : γ} :
    x >>= f = .ok y ↔ ∃ a, x = .ok a ∧ f a = .ok y := by
  cases x with
  | error e => exact ⟨nofun, fun ⟨_, h, _⟩ => nomatch h⟩
  | ok a => exact ⟨fun h => ⟨a, rfl, h⟩, fun ⟨_, rfl, h⟩ => h⟩

theorem foldlM_cons_ok {byte : κ → β → Except ε κ} {b : β} {bs : List β} {c' : κ} :
    (b :: bs).foldlM byte c = .ok c' ↔ ∃ c₁, byte c b = .ok c₁ ∧ bs.foldlM byte c₁ = .ok c' := by
  rw [List.foldlM_cons]
  exact bind_eq_ok

theorem foldlM_append_ok {byte : κ → β → Except ε κ} {xs ys : List β} {c' : κ} :
    (xs ++ ys).foldlM byte c = .ok c' ↔
      ∃ c₁, xs.foldlM byte c = .ok c₁ ∧ ys.foldlM byte c₁ = .ok c' := by
  rw [List.foldlM_append]
  exact bind_eq_ok

theorem foldlM_concat_ok {byte : κ → β → Except ε κ} {bs : List β} {b : β} {c' : κ} :
    (bs ++ [b]).foldlM byte c = .ok c' ↔
      ∃ c₁, bs.foldlM byte c = .ok c₁ ∧ byte c₁ b = .ok c' := by
  rw [foldlM_append_ok]
  constructor
  · rintro ⟨c₁, before, last⟩
    obtain ⟨c₂, moved, rest⟩ := foldlM_cons_ok.mp last
    cases rest
    exact ⟨c₁, before, moved⟩
  · rintro ⟨c₁, before, moved⟩
    exact ⟨c₁, before, foldlM_cons_ok.mpr ⟨c', moved, rfl⟩⟩

/-- A fold that ends with a result ends at a byte, and never sees those behind it. -/
theorem foldlM_error {byte : κ → β → Except ε κ} {bs : List β} {e : ε} :
    bs.foldlM byte c = .error e ↔ ∃ front b back c₁, bs = front ++ b :: back ∧
      front.foldlM byte c = .ok c₁ ∧ byte c₁ b = .error e := by
  constructor
  · intro folded
    induction bs generalizing c with
    | nil => cases folded
    | cons b bs ih =>
      rw [List.foldlM_cons] at folded
      cases moved : byte c b with
      | error e' =>
        rw [moved] at folded
        cases folded
        exact ⟨[], b, bs, c, rfl, rfl, moved⟩
      | ok c' =>
        rw [moved] at folded
        obtain ⟨front, b', back, c₁, rfl, passed, stopped⟩ := ih folded
        exact ⟨b :: front, b', back, c₁, rfl, foldlM_cons_ok.mpr ⟨c', moved, passed⟩, stopped⟩
  · rintro ⟨front, b, back, c₁, rfl, passed, stopped⟩
    rw [List.foldlM_append, passed]
    change (b :: back).foldlM byte c₁ = _
    rw [List.foldlM_cons, stopped]
    rfl

/-- There is one byte at which the fold past a list ends. -/
theorem foldlM_error_unique {byte : κ → β → Except ε κ} {xs ys as bs : List β} {a b : β}
    {c₁ c₂ : κ} {e e' : ε} (same : xs ++ a :: as = ys ++ b :: bs)
    (passed : xs.foldlM byte c = .ok c₁) (stopped : byte c₁ a = .error e)
    (passed' : ys.foldlM byte c = .ok c₂) (stopped' : byte c₂ b = .error e') :
    xs = ys ∧ a = b ∧ as = bs ∧ e = e' := by
  induction xs generalizing ys c with
  | nil =>
    cases ys with
    | nil =>
      cases passed
      cases passed'
      obtain ⟨rfl, rfl⟩ := List.cons.inj same
      exact ⟨rfl, rfl, rfl, Except.error.inj (stopped.symm.trans stopped')⟩
    | cons y ys =>
      cases passed
      obtain ⟨c₃, moved, -⟩ := foldlM_cons_ok.mp passed'
      obtain ⟨rfl, -⟩ := List.cons.inj same
      cases stopped.symm.trans moved
  | cons x xs ih =>
    obtain ⟨c₃, moved, rest⟩ := foldlM_cons_ok.mp passed
    cases ys with
    | nil =>
      cases passed'
      obtain ⟨rfl, -⟩ := List.cons.inj same
      cases stopped'.symm.trans moved
    | cons y ys =>
      obtain ⟨c₄, moved', rest'⟩ := foldlM_cons_ok.mp passed'
      obtain ⟨rfl, tails⟩ := List.cons.inj same
      cases moved.symm.trans moved'
      obtain ⟨rfl, after⟩ := ih tails rest rest'
      exact ⟨rfl, after⟩

inductive Related {κ' ε' : Type} (R : κ → κ' → Prop) (E : ε → ε' → Prop) :
    Except ε κ → Except ε' κ' → Prop where
  | ok {c : κ} {d : κ'} (cursors : R c d) : Related R E (.ok c) (.ok d)
  | error {e : ε} {e' : ε'} (stops : E e e') : Related R E (.error e) (.error e')

/-- Folds past the same bytes stay related when every byte keeps them so. -/
theorem foldlM_related {κ' ε' : Type} {byte : κ → β → Except ε κ} {byte' : κ' → β → Except ε' κ'}
    {R : κ → κ' → Prop} {E : ε → ε' → Prop} {d : κ'}
    (step : ∀ {c d} b, R c d → Related R E (byte c b) (byte' d b)) (start : R c d) (bs : List β) :
    Related R E (bs.foldlM byte c) (bs.foldlM byte' d) := by
  induction bs generalizing c d with
  | nil => exact .ok start
  | cons b bs ih =>
    rw [List.foldlM_cons, List.foldlM_cons]
    have moved := step b start
    generalize byte c b = x, byte' d b = y at moved
    cases moved with
    | ok cursors => exact ih cursors
    | error stops => exact .error stops

theorem loop_over {n : Nat} (past : last ≤ pos c) : loop round pos last n c = .ok c := by
  cases n with
  | zero => rfl
  | succ n => rw [loop, if_pos past]

/-- Rounds beyond the cells that are left are never made. -/
theorem loop_enough (forward : Forward round pos) {n m : Nat} (enough : last - pos c ≤ n)
    (enough' : last - pos c ≤ m) : loop round pos last n c = loop round pos last m c := by
  induction n generalizing c m with
  | zero =>
    have past : last ≤ pos c := by omega
    rw [loop_over past, loop_over past]
  | succ n ih =>
    by_cases past : last ≤ pos c
    · rw [loop_over past, loop_over past]
    · obtain ⟨m, rfl⟩ : ∃ k, m = k + 1 := ⟨m - 1, by omega⟩
      rw [loop, loop, if_neg past, if_neg past]
      cases moved : round c with
      | error e => rfl
      | ok c' =>
        have further := forward moved
        exact ih (by omega) (by omega)

theorem run_over (past : last ≤ pos c) : run round pos last c = .ok c := loop_over past

theorem run_round (forward : Forward round pos) (before : pos c < last) :
    run round pos last c = round c >>= run round pos last := by
  rw [run, show last - pos c = (last - pos c - 1) + 1 by omega, loop,
    if_neg (Nat.not_le.mpr before)]
  cases moved : round c with
  | error e => rfl
  | ok c' =>
    have further := forward moved
    exact loop_enough forward (by omega) (Nat.le_refl _)

/-- Left at `mid` and entered again, the loop goes on as if it had not been left. -/
theorem run_split (forward : Forward round pos) {mid : Nat} (le : mid ≤ last) :
    run round pos last c = run round pos mid c >>= run round pos last := by
  induction distance : mid - pos c using Nat.strongRecOn generalizing c with
  | ind d ih =>
    by_cases past : mid ≤ pos c
    · rw [run_over past]
      rfl
    · have before : pos c < mid := by omega
      rw [run_round forward before, run_round forward (Nat.lt_of_lt_of_le before le)]
      cases moved : round c with
      | error e => rfl
      | ok c' =>
        have further := forward moved
        exact ih (mid - pos c') (by omega) rfl

/-- What every round keeps holds where the loop ends without a result, and before the round in
which it ends with one. -/
theorem run_cases {I : κ → Prop} (forward : Forward round pos)
    (kept : ∀ {c c'}, I c → pos c < last → round c = .ok c' → I c') (start : I c) :
    match run round pos last c with
    | .ok c' => I c'
    | .error e => ∃ c', I c' ∧ pos c' < last ∧ round c' = .error e := by
  induction distance : last - pos c using Nat.strongRecOn generalizing c with
  | ind d ih =>
    by_cases past : last ≤ pos c
    · rw [run_over past]
      exact start
    · have before : pos c < last := by omega
      rw [run_round forward before]
      cases moved : round c with
      | error e => exact ⟨c, start, before, moved⟩
      | ok c₁ =>
        have further := forward moved
        exact ih (last - pos c₁) (by omega) (kept start before moved) rfl

theorem run_preserves {I : κ → Prop} (forward : Forward round pos)
    (kept : ∀ {c c'}, I c → pos c < last → round c = .ok c' → I c') (start : I c) {c' : κ}
    (ran : run round pos last c = .ok c') : I c' := by
  have ended := run_cases forward kept start
  rw [ran] at ended
  exact ended

theorem run_stops {I : κ → Prop} (forward : Forward round pos)
    (kept : ∀ {c c'}, I c → pos c < last → round c = .ok c' → I c') (start : I c) {e : ε}
    (ran : run round pos last c = .error e) : ∃ c', I c' ∧ pos c' < last ∧ round c' = .error e := by
  have ended := run_cases forward kept start
  rw [ran] at ended
  exact ended

structure Bytewise (byte : κ → β → Except ε κ) (pos : κ → Nat) : Prop where
  moves : ∀ {c b c'}, byte c b = .ok c' → pos c' = pos c + 1

variable {byte : κ → β → Except ε κ} {m : Nat → β}

theorem Bytewise.forward (bytewise : Bytewise byte pos) :
    Forward (fun c => byte c (m (pos c))) pos := by
  intro c c' moved
  have := bytewise.moves moved
  omega

theorem Bytewise.foldlM_pos (bytewise : Bytewise byte pos) {bs : List β} {c' : κ}
    (folded : bs.foldlM byte c = .ok c') : pos c' = pos c + bs.length := by
  induction bs generalizing c with
  | nil =>
    cases folded
    rfl
  | cons b bs ih =>
    obtain ⟨c₁, moved, rest⟩ := foldlM_cons_ok.mp folded
    rw [ih rest, bytewise.moves moved, List.length_cons]
    omega

/-- What every byte keeps holds after all of them. -/
theorem foldlM_preserves {I : κ → Prop} (kept : ∀ {c b c'}, I c → byte c b = .ok c' → I c')
    (start : I c) {bs : List β} {c' : κ} (folded : bs.foldlM byte c = .ok c') : I c' := by
  induction bs generalizing c with
  | nil =>
    cases folded
    exact start
  | cons b bs ih =>
    obtain ⟨c₁, moved, rest⟩ := foldlM_cons_ok.mp folded
    exact ih (kept start moved) rest

/-- The loop folds past the bytes before `last`. -/
theorem Bytewise.run_eq (bytewise : Bytewise byte pos) :
    run (fun c => byte c (m (pos c))) pos last c =
      (Resumable.cells m (pos c) last).foldlM byte c := by
  induction distance : last - pos c generalizing c with
  | zero =>
    have past : last ≤ pos c := by omega
    rw [run_over past, Resumable.cells, distance]
    rfl
  | succ d ih =>
    have before : pos c < last := by omega
    rw [run_round bytewise.forward before, Resumable.cells_cons before, List.foldlM_cons]
    change byte c (m (pos c)) >>= _ = byte c (m (pos c)) >>= _
    cases moved : byte c (m (pos c)) with
    | error e => rfl
    | ok c' =>
      have next := bytewise.moves moved
      have rest := ih (c := c') (by omega)
      rw [next] at rest
      exact rest

end ByteLoop
