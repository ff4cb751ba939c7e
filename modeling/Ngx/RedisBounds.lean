import Ngx.MessageProcess

/-! What the parser stores into the arrays of `ngx_redis_connection_t`, and the count it keeps
for a payload. The channel name is bounded by the length read before it; the two length lines
are bounded by nothing. -/
namespace Ngx.Redis

/-- A store into an array of the connection: the index, or for the formatted prefix the number
of bytes with the NUL. -/
inductive Store where
  | number (i : Nat)
  | channelName (i : Nat)
  | channelMessagePrefix (n : Nat)
  deriving DecidableEq, Repr

/-- Within `char number[20]`, `char channel_name[21]` and `char channel_message_prefix[50]`. -/
def Store.Inside : Store → Prop
  | .number i => i ≤ 19
  | .channelName i => i ≤ 20
  | .channelMessagePrefix n => n ≤ 50

/-- The stores of the round at `c`; at a line end it is the NUL that is stored. -/
def stores (mem : Nat → UInt8) (c : Cursor) : List Store :=
  let ch := mem c.p
  match c.state with
  | .subscribeChannelLength | .messageLength =>
    if ch = lf ∧ c.rc.afterCr ∨ Decimal.isDigit ch then [.number c.rc.number.length] else []
  | .subscribeChannelName =>
    if ch = cr then []
    else if ch = lf ∧ c.rc.afterCr then
      let name := c.rc.channelName.takeWhile (· ≠ 0)
      if c.rc.channelNameLength ≠ (name.length : Int) then [.channelName c.rc.channelName.length]
      else
        [.channelName c.rc.channelName.length,
          .channelMessagePrefix ((messagePrefix c.rc.channelNameLength name).length + 1)]
    else if c.rc.channelNameLength ≤ c.rc.channelName.length then []
    else [.channelName c.rc.channelName.length]
  | _ => []

/-- The cursors a call passes at the head of its loop, the one it stops at included. -/
def visited (mem : Nat → UInt8) (last : Nat) : (n : Nat) → Cursor → List Cursor
  | 0, c => [c]
  | n + 1, c =>
    if last ≤ c.p then [c]
    else
      match parseByte mem c with
      | .ok c' => c :: visited mem last n { c' with p := c'.p + 1 }
      | .error _ => [c]

def Cursor.Counted (c : Cursor) : Prop :=
  c.state = .messageValue → 0 ≤ c.rc.messageLength ∧ c.rc.messageLength ≤ 256

def Cursor.Bounded (mem : Nat → UInt8) (last : Nat) (c : Cursor) : Prop :=
  (c.p < last → ∀ w ∈ stores mem c, w.Inside) ∧ c.Counted

/-- What a length line is not checked for: that a byte is left in `number` for a digit or the
NUL, and that the number of a message does not come out negative. -/
def Cursor.Guarded (mem : Nat → UInt8) (last : Nat) (c : Cursor) : Prop :=
  c.p < last → c.state = .subscribeChannelLength ∨ c.state = .messageLength →
    mem c.p = lf ∧ c.rc.afterCr = true ∨ Decimal.isDigit (mem c.p) = true →
    c.rc.number.length < numberSize ∧
      (c.state = .messageLength → mem c.p = lf → 0 ≤ atoi c.rc.number)

/-- What the parser keeps of itself: the name is no longer than the length read for it, and a
count once within its bounds stays there. -/
def Cursor.Kept (c : Cursor) : Prop :=
  (c.state = .subscribeChannelName → c.rc.channelNameLength ≤ 20 ∧
    (c.rc.channelName.length : Int) ≤ c.rc.channelNameLength) ∧ c.Counted

section Rounds

variable {mem : Nat → UInt8} {last n : Nat} {c c' : Cursor}

theorem messagePrefix_length_le {name : List UInt8} (short : name.length ≤ 20) :
    (messagePrefix name.length name).length + 1 ≤ 50 := by
  have digits := Decimal.numeral_length_le (n := name.length) (k := 2) (by omega) (by omega)
  have head : (bytes "*3\r\n$7\r\nmessage\r\n$").length = 18 := by decide
  have line : (bytes "\r\n").length = 2 := by decide
  have tail : (bytes "\r\n$").length = 3 := by decide
  simp only [messagePrefix, List.length_append, head, line, tail, Int.toNat_natCast]
  omega

/-- A round whose length line is guarded stores inside the arrays. -/
theorem Cursor.Kept.stores_inside (kept : c.Kept) (guarded : c.Guarded mem last)
    (before : c.p < last) : ∀ w ∈ stores mem c, w.Inside := by
  obtain ⟨named, -⟩ := kept
  have room := guarded before
  obtain ⟨rc, state, p⟩ := c
  intro w member
  cases state with
  | subscribeChannelLength | messageLength =>
    simp only [stores] at member
    split at member
    · rename_i stored
      have := (room (by simp) stored).1
      rw [List.mem_singleton.mp member]
      simp only [numberSize] at this
      simp only [Store.Inside]
      omega
    · cases member
  | subscribeChannelName =>
    obtain ⟨short, fits⟩ := named rfl
    simp only at short fits
    have index : rc.channelName.length ≤ 20 := by omega
    simp only [stores] at member
    split at member
    · cases member
    · split at member
      · split at member
        · rw [List.mem_singleton.mp member]
          exact index
        · rename_i same
          rcases List.mem_cons.mp member with rfl | member
          · exact index
          · rw [List.mem_singleton.mp member, Store.Inside, not_not.mp same]
            have whole := (List.takeWhile_prefix (l := rc.channelName) (· ≠ 0)).length_le
            exact messagePrefix_length_le (whole.trans index)
      · split at member
        · cases member
        · rw [List.mem_singleton.mp member]
          exact index
  | _ => cases member

/-- One round: a guarded one keeps the fields within their bounds. -/
theorem Cursor.Kept.step (kept : c.Kept) (guarded : c.Guarded mem last) (before : c.p < last)
    (moved : parseByte mem c = .ok c') : Cursor.Kept { c' with p := c'.p + 1 } := by
  obtain ⟨named, counted⟩ := kept
  have room := guarded before
  cases parseByte_moved moved with
  | length ended _ small =>
    have positive := (room (.inr rfl) (.inl ended)).2 rfl ended.1
    simpa [Cursor.Kept, Cursor.Counted] using ⟨positive, small⟩
  | counted left =>
    obtain ⟨low, high⟩ := counted rfl
    simp only at low high
    refine ⟨fun bad => (by cases bad), fun _ => ?_⟩
    simp only
    omega
  | nameLength _ _ positive short =>
    simp only [Cursor.Kept, Cursor.Counted]
    exact ⟨fun _ => ⟨short, Int.le_of_lt positive⟩, fun bad => (by cases bad)⟩
  | @nameByte rc _ _ _ below =>
    have short := (named rfl).1
    refine ⟨fun _ => ⟨short, ?_⟩, fun bad => (by cases bad)⟩
    simp only [List.length_append, List.length_singleton]
    omega
  | carriage | searched => exact ⟨named, counted⟩
  | _ => simp [Cursor.Kept, Cursor.Counted]

theorem head_visited : c ∈ visited mem last n c := by
  cases n with
  | zero => simp [visited]
  | succ n =>
    rw [visited]
    split
    · simp
    · split <;> simp

theorem again_visited (again : parseLoop mem last n c = .again c') : c' ∈ visited mem last n c := by
  induction n generalizing c with
  | zero =>
    cases again
    exact head_visited
  | succ n ih =>
    rw [parseLoop] at again
    rw [visited]
    split
    · rw [if_pos ‹_›] at again
      cases again
      simp
    · rw [if_neg ‹_›] at again
      cases round : parseByte mem c with
      | ok c₁ =>
        rw [round] at again
        exact List.mem_cons_of_mem _ (ih again)
      | error stop =>
        rw [round] at again
        simp only at again
        rw [again] at round
        exact (parseByte_not_again round).elim

theorem visited_kept (kept : c.Kept) (guarded : ∀ x ∈ visited mem last n c, x.Guarded mem last) :
    ∀ x ∈ visited mem last n c, x.Kept := by
  induction n generalizing c with
  | zero => simpa [visited] using kept
  | succ n ih =>
    have here := guarded c head_visited
    rw [visited] at guarded ⊢
    split
    · simpa using kept
    · rename_i before
      rw [if_neg before] at guarded
      cases round : parseByte mem c with
      | ok c₁ =>
        rw [round] at guarded
        obtain ⟨-, later⟩ := List.forall_mem_cons.mp guarded
        exact List.forall_mem_cons.mpr ⟨kept, ih (kept.step here (not_le.mp before) round) later⟩
      | error stop => simpa using kept

/-- A negative count shows at the next head of the loop. -/
theorem length_line_guarded (bounded : ∀ w ∈ stores mem c, w.Inside)
    (next : ∀ c', parseByte mem c = .ok c' → c'.Counted) : c.Guarded mem last := by
  intro _ length stored
  have room : c.rc.number.length < numberSize := by
    have inside := bounded (.number c.rc.number.length) (by
      rcases length with state | state <;> simp [stores, state, stored])
    simp only [Store.Inside] at inside
    simp only [numberSize]
    omega
  refine ⟨room, fun state feed => ?_⟩
  obtain ⟨rc, state, p⟩ := c
  cases state
  simp only at feed room stored next ⊢
  have after : rc.afterCr = true := by
    rcases stored with ended | digit
    · exact ended.2
    · exact ((digit_not_line_end digit).2 feed).elim
  by_cases small : maxMessageLength < atoi rc.number
  · simp only [maxMessageLength] at small
    omega
  · have notCr : lf ≠ cr := by decide
    have counted := next ⟨{ rc with
      parseDone := false
      messageLength := atoi rc.number
      messageStart := p + 1 }, .messageValue, p⟩ (by
        simp [parseByte, feed, notCr, after, Nat.not_le.mpr room, small])
    exact (counted rfl).1

theorem visited_guarded (ready : c.Ready) (enough : last - c.p ≤ n)
    (bounded : ∀ x ∈ visited mem last n c, x.Bounded mem last) :
    ∀ x ∈ visited mem last n c, x.Guarded mem last := by
  induction n generalizing c with
  | zero =>
    intro x member before
    simp only [visited, List.mem_singleton] at member
    subst member
    omega
  | succ n ih =>
    have here := bounded c head_visited
    rw [visited] at bounded ⊢
    split
    · intro x member before
      rw [List.mem_singleton.mp member] at before
      omega
    · rename_i before
      rw [if_neg before] at bounded
      have inside := here.1 (not_le.mp before)
      cases round : parseByte mem c with
      | ok c₁ =>
        rw [round] at bounded
        obtain ⟨-, later⟩ := List.forall_mem_cons.mp bounded
        obtain ⟨next, reach⟩ := parseByte_ok ready round
        have forward : c.p < c.reach := machine.forward ready
        refine List.forall_mem_cons.mpr ⟨length_line_guarded inside fun c' moved => ?_, ?_⟩
        · cases round.symm.trans moved
          exact (later _ head_visited).2
        · exact ih next (by simp only; omega) later
      | error stop =>
        simp only [List.mem_singleton, forall_eq]
        exact length_line_guarded inside fun c' moved => by cases round.symm.trans moved

theorem visited_bounded_iff (ready : c.Ready) (enough : last - c.p ≤ n) (kept : c.Kept) :
    (∀ x ∈ visited mem last n c, x.Bounded mem last) ↔
      ∀ x ∈ visited mem last n c, x.Guarded mem last := by
  refine ⟨visited_guarded ready enough, fun guarded x member => ?_⟩
  have stays := visited_kept kept guarded x member
  exact ⟨stays.stores_inside (guarded x member), stays.2⟩

end Rounds

/-- At the top of the loop, every cursor that the coming call passes is as `P` says. -/
def Process.Passes (P : (Nat → UInt8) → (last : Nat) → Cursor → Prop) (s : Process) : Prop :=
  s.location = .top →
    let b := maintained s.rc s.buffer
    ∀ c ∈ visited b.mem b.last (b.last - b.pos) ⟨s.rc.toProgress, s.rc.state, b.pos⟩, P b.mem b.last c

structure Process.Bounds (s : Process) : Prop where
  invariant : s.Invariant
  kept : s.location ≠ .exited → ∀ p, Cursor.Kept ⟨s.rc.toProgress, s.rc.state, p⟩

section Runs

variable {s : Process}

theorem Process.Bounds.passes_iff (h : s.Bounds) :
    s.Passes (fun mem last c => c.Bounded mem last) ↔
      s.Passes (fun mem last c => c.Guarded mem last) := by
  refine forall_congr' fun top => ?_
  have running : s.location ≠ .exited := by simp [top]
  exact visited_bounded_iff ((h.invariant.reachable running).ready _) (le_refl _) (h.kept running _)

theorem Process.Bounds.step (h : s.Bounds) (guarded : s.Passes fun mem last c => c.Guarded mem last)
    (input : Input) : (s.step input).Bounds := by
  refine ⟨step_keeps_invariant h.invariant input, ?_⟩
  rw [Process.step]
  split
  · rename_i call
    have kept := h.kept (by simp [call])
    rw [Process.read]
    split
    · exact fun _ => kept
    · exact fun _ => kept
  · rename_i top
    have running : s.location ≠ .exited := by simp [top]
    have ready := (h.invariant.reachable running).ready
    rcases turn_cases s with ⟨rc, b, parsed, -, eq⟩ | ⟨rc, b, parsed, eq⟩ | ⟨exited, -⟩
    · obtain ⟨-, -, -, -, -, -, state, -⟩ := parse_ok_round (I := fun _ => True)
        (fun _ _ _ => trivial) trivial parsed
      rw [eq]
      intro _ p
      simp [Cursor.Kept, Cursor.Counted, state]
    · rw [eq]
      intro _ p
      have stays := visited_kept (h.kept running _) (guarded top)
      obtain ⟨-, -, -, left⟩ := parse_again_rounds (I := fun _ => True)
        (fun _ _ _ => trivial) trivial parsed
      have kept := stays _ (again_visited left)
      exact kept
    · exact fun bad => (bad exited).elim
  · rename_i exited
    exact fun bad => (bad exited).elim

/-- The states a run passes, the first apart. -/
theorem run_states {P : Process → Prop} {input : Input} {rest : List Input} :
    (∀ before, before <+: input :: rest → P (s.run before)) ↔
      P s ∧ ∀ before, before <+: rest → P ((s.step input).run before) := by
  constructor
  · intro all
    exact ⟨all [] List.nil_prefix,
      fun before isPrefix => all (input :: before) (List.cons_prefix_cons.mpr ⟨rfl, isPrefix⟩)⟩
  · rintro ⟨here, later⟩ before isPrefix
    cases before with
    | nil => exact here
    | cons first before =>
      obtain ⟨rfl, shorter⟩ := List.cons_prefix_cons.mp isPrefix
      exact later before shorter

theorem run_passes_iff (h : s.Bounds) (inputs : List Input) :
    (∀ before, before <+: inputs → (s.run before).Passes fun mem last c => c.Bounded mem last) ↔
      ∀ before, before <+: inputs → (s.run before).Passes fun mem last c => c.Guarded mem last := by
  induction inputs generalizing s with
  | nil =>
    simp only [List.prefix_nil, forall_eq]
    exact h.passes_iff
  | cons input rest ih =>
    rw [run_states (P := Process.Passes fun mem last c => c.Bounded mem last),
      run_states (P := Process.Passes fun mem last c => c.Guarded mem last), h.passes_iff]
    exact and_congr_right fun guarded => ih (h.step guarded input)

end Runs

theorem initial_bounds (mem : Nat → UInt8) : (Process.initial mem).Bounds :=
  ⟨initial_keeps_invariant mem, fun _ p =>
    ⟨fun bad => (by cases bad), fun bad => (by cases bad)⟩⟩

/-- The parser's stores and its count stay within bounds in a run exactly when no length line
outgrows `number` and no message length is negative as an `int`. -/
theorem parser_fields_bounded_iff (mem : Nat → UInt8) (inputs : List Input) :
    (∀ before, before <+: inputs →
        ((Process.initial mem).run before).Passes fun mem last c => c.Bounded mem last) ↔
      ∀ before, before <+: inputs →
        ((Process.initial mem).run before).Passes fun mem last c => c.Guarded mem last :=
  run_passes_iff (initial_bounds mem) inputs

/-- The process with a length line of 2^32 − 1 in its buffer. -/
def negative : Process :=
  (Process.initial fun _ => 0).run
    [⟨some (qmxjChannel.stream 1 [] ++ qmxjChannel.recordStart ++ bytes "4294967295\r\n"), true⟩]

/-- The count starts at −1. -/
theorem parser_count_negative :
    negative.location = .top ∧ ¬ negative.Passes fun mem last c => c.Bounded mem last := by
  have counted : ∃ c ∈ visited (maintained negative.rc negative.buffer).mem
      (maintained negative.rc negative.buffer).last
      ((maintained negative.rc negative.buffer).last - (maintained negative.rc negative.buffer).pos)
      ⟨negative.rc.toProgress, negative.rc.state, (maintained negative.rc negative.buffer).pos⟩,
      c.state = .messageValue ∧ c.rc.messageLength = -1 := by decide +kernel
  have top : negative.location = .top := by decide +kernel
  refine ⟨top, fun passes => ?_⟩
  obtain ⟨c, member, state, count⟩ := counted
  have low := ((passes top c member).2 state).1
  rw [count] at low
  omega

end Ngx.Redis
