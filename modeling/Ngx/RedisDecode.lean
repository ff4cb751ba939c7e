import Ngx.RedisRecord

/-! A stream that stands in the buffer as a whole is decoded by calling the parser again and
again: one message a call, and then a call that has used up the input. -/
namespace Ngx.Redis

open Resumable

section Paths

variable {mem : Nat → UInt8} {last n : Nat} {c c' : Cursor} {os : List Extracted} {o : Extracted}

/-- A step puts out nothing, or the message that the round has completed. -/
theorem step_cases {out : List Extracted} (moved : step mem c = .ok (out, c')) :
    (out = [] ∧ ∃ c₁, parseByte mem c = .ok c₁ ∧ c' = { c₁ with p := c₁.p + 1 }) ∨
      ∃ rc p mem', parseByte mem c = .error (.done rc p mem') ∧ rc.error = false ∧
        out = [extracted mem' rc] ∧ c' = ⟨rc, .message, p + 1⟩ := by
  rw [step] at moved
  split at moved
  · rename_i c₁ round
    cases moved
    exact .inl ⟨rfl, c₁, round, rfl⟩
  · rename_i rc p mem' round
    split at moved
    · cases moved
    · rename_i quiet
      cases moved
      exact .inr ⟨rc, p, mem', round, by simpa using quiet, rfl, rfl⟩
  · cases moved
  · cases moved

/-- A path up to its first message. -/
theorem first_output (path : Path machine mem c (o :: os) c') :
    ∃ c₁ c₂, Path machine mem c [] c₁ ∧ step mem c₁ = .ok ([o], c₂) ∧ Path machine mem c₂ os c' := by
  generalize eq : o :: os = outputs at path
  induction path with
  | refl => cases eq
  | @cons c out c₁ os' c' moved rest ih =>
    rcases step_cases moved with ⟨rfl, -⟩ | ⟨rc, p, mem', -, -, rfl, -⟩
    · obtain ⟨c₂, c₃, quiet, output, later⟩ := ih eq
      have path : Path machine mem c ([] ++ []) c₂ := .cons moved quiet
      exact ⟨c₂, c₃, path, output, later⟩
    · simp only [List.singleton_append, List.cons.injEq] at eq
      obtain ⟨rfl, rfl⟩ := eq
      exact ⟨c, c₁, .refl, moved, rest⟩

/-- The loop follows a path that puts out nothing. -/
theorem parseLoop_path (ready : c.Ready) (path : Path machine mem c [] c') (inside : c'.p ≤ last)
    (enough : last - c.p ≤ n) :
    ∃ m, last - c'.p ≤ m ∧ parseLoop mem last n c = parseLoop mem last m c' := by
  generalize eq : [] = outputs at path
  induction path generalizing n with
  | refl => exact ⟨n, enough, rfl⟩
  | @cons c out c₁ os' c' moved rest ih =>
    obtain ⟨rfl, rfl⟩ := List.nil_eq_append_iff.mp eq
    obtain ⟨next, position⟩ := machine.moves ready moved
    have position : c₁.p = c.reach := position
    have forward : c.p < c.reach := machine.forward ready
    have further : c₁.p ≤ c'.p := rest.pos_le next
    rcases step_cases moved with ⟨-, c₂, round, rfl⟩ | ⟨rc, p, mem', -, -, bad, -⟩
    · cases n with
      | zero => omega
      | succ n =>
        rw [parseLoop, if_neg (by omega), round]
        exact ih next inside (by omega) rfl
    · cases bad

variable {rc : Connection} {b : Buffer}

/-- A call on a path with a message ahead yields it. -/
theorem parse_path_ok (ready : Cursor.Ready ⟨rc.toProgress, rc.state, b.pos⟩)
    (path : Path machine b.mem ⟨rc.toProgress, rc.state, b.pos⟩ (o :: os) c)
    (inside : c.p ≤ b.last) :
    ∃ progress p, parseMessage rc b =
        (.ok, { toProgress := progress, state := .message }, { b with pos := p }) ∧
      progress.error = false ∧ extracted b.mem progress = o ∧
      Cursor.Ready ⟨progress, .message, p⟩ ∧
      Path machine b.mem ⟨progress, .message, p⟩ os c := by
  obtain ⟨c₁, c₂, quiet, output, later⟩ := first_output path
  have ready₁ := quiet.valid ready
  obtain ⟨ready₂, position⟩ := machine.moves ready₁ output
  have position : c₂.p = c₁.reach := position
  have forward : c₁.p < c₁.reach := machine.forward ready₁
  have further : c₂.p ≤ c.p := later.pos_le ready₂
  obtain ⟨m, enough, eq⟩ := parseLoop_path (n := b.last - b.pos) ready quiet (by omega) (le_refl _)
  rcases step_cases output with ⟨bad, -⟩ | ⟨progress, p, mem', round, error, out, rfl⟩
  · cases bad
  · obtain ⟨rfl, error', -, place⟩ := parseByte_done round
    have same : mem' = b.mem := by
      rcases place with bad | ⟨-, same, -⟩
      · have set : c₁.rc.error = true := by simpa only [machine, Cursor.Ready, bad] using ready₁
        rw [error', set] at error
        cases error
      · exact same
    subst same
    have stop : parseLoop b.mem b.last (b.last - b.pos) ⟨rc.toProgress, rc.state, b.pos⟩ =
        .done progress c₁.p b.mem := by
      rw [eq]
      cases m with
      | zero => omega
      | succ m => rw [parseLoop, if_neg (by omega), round]
    refine ⟨progress, c₁.p + 1, by rw [parseMessage, stop], error, ?_, ready₂, later⟩
    simpa using out.symm

/-- A call on a path without a message goes on to its end. -/
theorem parse_path_again (ready : Cursor.Ready ⟨rc.toProgress, rc.state, b.pos⟩)
    (path : Path machine b.mem ⟨rc.toProgress, rc.state, b.pos⟩ [] c) (stop : c.p = b.last) :
    parseMessage rc b =
      (.again, { toProgress := c.rc, state := c.state }, { b with pos := c.p }) := by
  obtain ⟨m, -, eq⟩ := parseLoop_path (n := b.last - b.pos) ready path stop.le (le_refl _)
  have waits : parseLoop b.mem b.last m c = .again c := by
    cases m with
    | zero => rfl
    | succ m => rw [parseLoop, if_pos stop.ge]
  rw [parseMessage, eq, waits]

/-- The calls made along a path that ends with the input. -/
theorem drain_path (ready : Cursor.Ready ⟨rc.toProgress, rc.state, b.pos⟩)
    (path : Path machine b.mem ⟨rc.toProgress, rc.state, b.pos⟩ os c) (stop : c.p = b.last)
    (enough : os.length < n) :
    (drain n rc b).calls.map (fun call => (call.code, call.message)) =
        os.map (fun o => (.ok, some o)) ++ [(.again, none)] ∧
      (drain n rc b).buffer.pos = b.last ∧ (drain n rc b).buffer.last = b.last := by
  induction os generalizing rc b n with
  | nil =>
    obtain ⟨n, rfl⟩ := Nat.exists_eq_succ_of_ne_zero (Nat.ne_of_gt enough)
    have call := parse_path_again ready path stop
    simp [drain, call, stop]
  | cons o os ih =>
    obtain ⟨n, rfl⟩ := Nat.exists_eq_succ_of_ne_zero (Nat.ne_of_gt (Nat.zero_lt_of_lt enough))
    obtain ⟨progress, p, call, error, output, next, later⟩ := parse_path_ok ready path stop.le
    have rest := @ih n { toProgress := progress, state := .message } { b with pos := p } next later
      stop (Nat.lt_of_succ_lt_succ enough)
    simpa [drain, call, error, output] using rest

end Paths

def Call.shown (call : Call) : Code × Option (List UInt8) :=
  (call.code, call.message.map Extracted.bytes)

/-- A stream of records up to 256 bytes, complete in the buffer, decodes to its payloads. -/
theorem stream_decodes (ch : Channel) (clients : Nat) (ws : List Bulk)
    (small : ∀ w ∈ ws, w.payload.length ≤ 256) (b : Buffer)
    (holds : Holds b.mem b.pos (ch.stream clients ws))
    (whole : b.last = b.pos + (ch.stream clients ws).length) (n : Nat) (enough : ws.length < n) :
    (drain n .fresh b).calls.map Call.shown =
        ws.map (fun w => (.ok, some w.payload)) ++ [(.again, none)] ∧
      (∀ call ∈ (drain n .fresh b).calls, ∀ o ∈ call.message,
        o.messageEnd = o.messageStart + o.bytes.length) ∧
      (drain n .fresh b).buffer.pos = (drain n .fresh b).buffer.last ∧
      (drain n .fresh b).buffer.last = b.last := by
  have ready : Cursor.Ready ⟨Connection.fresh.toProgress, Connection.fresh.state, b.pos⟩ := trivial
  obtain ⟨os, c, path, final, payloads, spans⟩ := stream_path clients small holds
  have count : os.length = ws.length := by simpa using congrArg List.length payloads
  obtain ⟨calls, pos, last⟩ := drain_path ready path (final.trans whole.symm) (count ▸ enough)
  refine ⟨?_, ?_, pos.trans last.symm, last⟩
  · have shown := congrArg (List.map fun r : Code × Option Extracted =>
      (r.1, r.2.map Extracted.bytes)) calls
    have bytes := congrArg (List.map fun bs => (Code.ok, some bs)) payloads
    simp only [List.map_map, List.map_append] at shown bytes
    exact shown.trans (congrArg (· ++ [(Code.again, none)]) bytes)
  · intro call member o taken
    have shown : (call.code, call.message) ∈ os.map (fun o => (Code.ok, some o)) ++ [(.again, none)] :=
      calls ▸ List.mem_map_of_mem member
    rcases List.mem_append.mp shown with early | last
    · obtain ⟨o', member', eq⟩ := List.mem_map.mp early
      simp only [Prod.mk.injEq] at eq
      rw [← eq.2] at taken
      cases taken
      exact spans _ member'
    · simp only [List.mem_singleton, Prod.mk.injEq] at last
      rw [last.2] at taken
      cases taken

def delimiters : Bulk := ⟨[cr, lf, 0, 36], by decide⟩

theorem bufferOf_last (bs : List UInt8) : (bufferOf bs).last = (bufferOf bs).pos + bs.length := by
  simp [bufferOf]

theorem bufferOf_holds (bs : List UInt8) : Holds (bufferOf bs).mem (bufferOf bs).pos bs :=
  memoryOf_holds bs

def delimited : Buffer := bufferOf (qmxjChannel.stream 1 [delimiters, greeting])

theorem delimited_last :
    delimited.last = delimited.pos + (qmxjChannel.stream 1 [delimiters, greeting]).length := by
  rw [delimited, ← bufferOf_last]

theorem stream_decodes_delimiters :
    (drain 3 .fresh delimited).calls.map Call.shown =
        [delimiters, greeting].map (fun w => (.ok, some w.payload)) ++ [(.again, none)] ∧
      (∀ call ∈ (drain 3 .fresh delimited).calls, ∀ o ∈ call.message,
        o.messageEnd = o.messageStart + o.bytes.length) ∧
      (drain 3 .fresh delimited).buffer.pos = (drain 3 .fresh delimited).buffer.last ∧
      (drain 3 .fresh delimited).buffer.last = delimited.last :=
  stream_decodes qmxjChannel 1 [delimiters, greeting] (by decide +kernel) delimited
    (bufferOf_holds _) delimited_last 3 (by decide)

end Ngx.Redis
