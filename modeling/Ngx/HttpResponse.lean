import Ngx.Retry
import Ngx.WebsocketConnection

/-! Sending a response. `ngx_websocket_writer` and `ngx_http_finalize_request` call each other;
a list of replies holds what the environment answers to the calls of the writer, one reply a
call, and there is no result while the list is too short for the writer to return. -/
namespace Ngx.Http

def ascii (text : String) : List UInt8 := text.toList.map fun c => c.toNat.toUInt8

def forbidden : List UInt8 := ascii "HTTP/1.1 403 Forbidden\r\n\r\n"

def switchingProtocols (secWebsocketAccept : List UInt8) : List UInt8 :=
  ascii "HTTP/1.1 101 Switching Protocols\r\nUpgrade: websocket\r\nConnection: Upgrade\r\nSec-WebSocket-Accept: "
    ++ secWebsocketAccept ++ ascii "\r\nSec-WebSocket-Version: 13\r\n\r\n"

/-- `sprintf` into the request's buffer, with `pos` and `last` around the text. -/
def respond (text : List UInt8) (c : Connection) : Connection :=
  { c with buffer := some ⟨text, 0⟩ }

def forbid (c : Connection) : Connection :=
  respond forbidden { c with request := { c.request with error := true } }

def finalizeWith (writer : Connection → Option Connection) (rc : Int) (c : Connection) :
    Option Connection :=
  if rc = ngxOk then some (httpCloseRequest ngxOk c)
  else if rc = ngxError ∨ rc = httpRequestTimeOut ∨ rc = httpClientClosedRequest ∨ c.error then
    some (httpCloseRequest ngxError c)
  else if httpSpecialResponse ≤ rc then
    writer (forbid c)
  else some (httpCloseRequest ngxDone c)

/-- How a call of the writer ends: it returns, or it returns what `ngx_http_finalize_request`
does with a code. -/
inductive Outcome where
  | returned (c : Connection)
  | finalize (rc : Int) (c : Connection)

def Request.code (r : Request) : Int := if r.error then ngxDone else ngxOk

def finish (init : WebsocketInit) (c : Connection) : Connection :=
  let closed := httpCloseRequest c.request.code c
  if c.request.code = ngxOk then websocketInitConnection init closed else closed

def writerCall (reply : Reply) (c : Connection) : Outcome :=
  if c.writeTimedout then .finalize httpRequestTimeOut { c with timedout := true }
  else if c.pending.length = 0 then .finalize c.request.code c
  else match reply.send with
    | .again =>
      if reply.writeEvent then .returned (reusableConnection true c)
      else .finalize httpInternalServerError (reusableConnection true c)
    | .error => .finalize httpInternalServerError c
    | .sent n =>
      if n = 0 then .finalize httpClientClosedRequest c
      else if c.pending.length ≤ n then .returned (finish reply.init (c.advance n))
      else if reply.writeEvent then .returned (reusableConnection true (c.advance n))
      else .finalize httpInternalServerError (reusableConnection true (c.advance n))

def websocketWriter : List Reply → Connection → Option Connection
  | [], _ => none
  | reply :: replies, c =>
    match writerCall reply c with
    | .returned c' => some c'
    | .finalize rc c' => finalizeWith (websocketWriter replies) rc c'

def finalizeRequest (rc : Int) (replies : List Reply) : Connection → Option Connection :=
  finalizeWith (websocketWriter replies) rc

open Retry

/-- A reply that makes the writer, with `size` bytes to send, finalize the request with 500. -/
def Reply.Rejects (size : Nat) (reply : Reply) : Prop :=
  match reply.send with
  | .again => reply.writeEvent = false
  | .error => True
  | .sent n => 0 < n ∧ n < size ∧ reply.writeEvent = false

structure Untroubled (c : Connection) : Prop where
  timedout : c.writeTimedout = false
  error : c.error = false

/-- The codes for which `ngx_http_finalize_request` starts a response of its own. -/
def Answered (rc : Int) : Prop :=
  httpSpecialResponse ≤ rc ∧ rc ≠ httpRequestTimeOut ∧ rc ≠ httpClientClosedRequest

variable {c : Connection} {rc : Int} {writer : Connection → Option Connection}

theorem finalize_closes (closes : ¬ Answered rc ∨ c.error = true) :
    (finalizeWith writer rc c).isSome := by
  unfold finalizeWith
  split_ifs with okay failed special
  · rfl
  · rfl
  · simp only [not_or] at failed
    rcases closes with silent | broken
    · exact (silent ⟨special, failed.2.1, failed.2.2.1⟩).elim
    · exact (failed.2.2.2 broken).elim
  · rfl

theorem finalize_answers (answered : Answered rc) (untroubled : c.error = false) :
    finalizeWith writer rc c = writer (forbid c) := by
  obtain ⟨special, notTimeout, notClosed⟩ := answered
  simp only [httpSpecialResponse] at special
  have notOk : rc ≠ ngxOk := by
    intro h
    simp only [h, ngxOk] at special
    omega
  have notError : rc ≠ ngxError := by
    intro h
    simp only [h, ngxError] at special
    omega
  simp [finalizeWith, notOk, notError, notTimeout, notClosed, untroubled, special]

theorem code_not_answered {r : Request} : ¬ Answered r.code := by
  rintro ⟨special, -⟩
  simp only [Request.code, httpSpecialResponse, ngxDone, ngxOk] at special
  split at special <;> omega

/-- Everything a call of the writer hands to `ngx_http_finalize_request`. -/
theorem writerCall_finalize {reply : Reply} {c' : Connection}
    (calls : writerCall reply c = .finalize rc c') :
    c'.error = c.error ∧ c'.writeTimedout = c.writeTimedout ∧
      (¬ Answered rc ∨ rc = httpInternalServerError ∧ c.writeTimedout = false ∧ c.pending ≠ [] ∧
        reply.Rejects c.pending.length) := by
  by_cases late : c.writeTimedout = true
  · rw [writerCall, if_pos late] at calls
    cases calls
    exact ⟨rfl, rfl, .inl fun h => h.2.1 rfl⟩
  by_cases nothing : c.pending.length = 0
  · rw [writerCall, if_neg late, if_pos nothing] at calls
    cases calls
    exact ⟨rfl, rfl, .inl fun h => code_not_answered h⟩
  have started : c.writeTimedout = false ∧ c.pending ≠ [] :=
    ⟨by simpa using late, fun h => nothing (List.length_eq_zero_iff.mpr h)⟩
  rw [writerCall, if_neg late, if_neg nothing] at calls
  cases result : reply.send with
  | again =>
    simp only [result] at calls
    split at calls
    · cases calls
    next unarmed =>
      cases calls
      refine ⟨rfl, rfl, .inr ⟨rfl, started.1, started.2, ?_⟩⟩
      simpa [Reply.Rejects, result] using unarmed
  | error =>
    simp only [result] at calls
    cases calls
    refine ⟨rfl, rfl, .inr ⟨rfl, started.1, started.2, ?_⟩⟩
    simp [Reply.Rejects, result]
  | sent n =>
    simp only [result] at calls
    split_ifs at calls with closed complete unarmed
    · cases calls
      exact ⟨rfl, rfl, .inl fun h => h.2.2 rfl⟩
    · cases calls
      refine ⟨rfl, rfl, .inr ⟨rfl, started.1, started.2, ?_⟩⟩
      simp only [Reply.Rejects, result]
      exact ⟨by omega, by omega, by simpa using unarmed⟩

/-- With bytes to send, a rejecting reply leads to the 500 response. -/
theorem writerCall_rejected {reply : Reply} (untroubled : Untroubled c) (pending : c.pending ≠ [])
    (rejects : reply.Rejects c.pending.length) :
    ∃ c', writerCall reply c = .finalize httpInternalServerError c' := by
  have something : c.pending.length ≠ 0 := fun h => pending (List.length_eq_zero_iff.mp h)
  cases result : reply.send with
  | again =>
    simp only [Reply.Rejects, result] at rejects
    exact ⟨_, by simp [writerCall, untroubled.timedout, something, result, rejects]; rfl⟩
  | error => exact ⟨c, by simp [writerCall, untroubled.timedout, something, result]⟩
  | sent n =>
    simp only [Reply.Rejects, result] at rejects
    obtain ⟨some, short, unarmed⟩ := rejects
    have positive : n ≠ 0 := by omega
    have incomplete : ¬ c.pending.length ≤ n := by omega
    exact ⟨_, by
      simp [writerCall, untroubled.timedout, something, result, positive, incomplete, unarmed]
      rfl⟩

/-- A reply that does not reject, or a flag, or an empty buffer, makes the writer return. -/
theorem writer_returns (reply : Reply) (replies : List Reply)
    (stops : c.writeTimedout = true ∨ c.error = true ∨ c.pending = [] ∨
      ¬ reply.Rejects c.pending.length) :
    (websocketWriter (reply :: replies) c).isSome := by
  unfold websocketWriter
  cases call : writerCall reply c with
  | returned c' => rfl
  | finalize rc c' =>
    obtain ⟨broken, -, silent | ⟨-, started, pending, rejects⟩⟩ := writerCall_finalize call
    · exact finalize_closes (.inl silent)
    · apply finalize_closes
      rcases stops with h | h | h | h
      · rw [started] at h
        exact nomatch h
      · exact .inr (broken.trans h)
      · exact (pending h).elim
      · exact (h rejects).elim

theorem answered_internal : Answered httpInternalServerError := by
  unfold Answered
  decide

/-- The writer starts over with the 403 answer. -/
theorem writer_starts_over (untroubled : Untroubled c) (pending : c.pending ≠ []) {reply : Reply}
    (rejects : reply.Rejects c.pending.length) :
    ∃ c', Untroubled c' ∧ c'.pending = forbidden ∧
      ∀ replies, websocketWriter (reply :: replies) c = websocketWriter replies c' := by
  obtain ⟨c', call⟩ := writerCall_rejected untroubled pending rejects
  obtain ⟨broken, late, -⟩ := writerCall_finalize call
  have noError : c'.error = false := broken.trans untroubled.error
  refine ⟨forbid c', ⟨late.trans untroubled.timedout, noError⟩, rfl, ?_⟩
  intro replies
  rw [websocketWriter, call]
  exact finalize_answers answered_internal noError

theorem forbidden_ne_nil : forbidden ≠ [] := by
  decide

/-- Once the 403 answer is being sent, every round is the same. -/
theorem forbidden_loop : Loop websocketWriter
    (fun c => Untroubled c ∧ c.pending = forbidden) (Reply.Rejects forbidden.length) where
  asks _ := rfl
  again c waiting reply rejects := by
    obtain ⟨c', untroubled, pending, moved⟩ := writer_starts_over waiting.1
      (waiting.2 ▸ forbidden_ne_nil) (waiting.2 ▸ rejects)
    exact ⟨c', ⟨untroubled, pending⟩, moved⟩
  ends c waiting reply accepted replies := by
    apply writer_returns
    rw [waiting.2]
    exact .inr (.inr (.inr accepted))

theorem forbidden_returns_iff (untroubled : Untroubled c) (pending : c.pending = forbidden)
    {replies : Stream' Reply} :
    Returns websocketWriter c replies ↔
      ∃ k, ¬ (replies.get k).Rejects forbidden.length :=
  forbidden_loop.returns_iff ⟨untroubled, pending⟩

theorem writer_returns_iff {replies : Stream' Reply} :
    Returns websocketWriter c replies ↔
      c.writeTimedout = true ∨ c.error = true ∨ c.pending = [] ∨
        ¬ (replies.get 0).Rejects c.pending.length ∨
        ∃ k, ¬ (replies.get (k + 1)).Rejects forbidden.length := by
  by_cases stops : c.writeTimedout = true ∨ c.error = true ∨ c.pending = [] ∨
      ¬ (replies.get 0).Rejects c.pending.length
  · have returns : Returns websocketWriter c replies :=
      returns_of_head (writer_returns _ _ stops)
    apply iff_of_true returns
    tauto
  · simp only [not_or, Bool.not_eq_true, not_not] at stops
    obtain ⟨late, broken, pending, rejects⟩ := stops
    obtain ⟨c', untroubled, forbids, moved⟩ := writer_starts_over ⟨late, broken⟩ pending rejects
    rw [returns_tail rfl moved, forbidden_returns_iff untroubled forbids]
    simp [late, broken, pending, rejects]

theorem finalize_returns_iff {replies : Stream' Reply} :
    Returns (finalizeRequest rc) c replies ↔
      ¬ Answered rc ∨ c.error = true ∨ c.writeTimedout = true ∨
        ∃ k, ¬ (replies.get k).Rejects forbidden.length := by
  by_cases closes : ¬ Answered rc ∨ c.error = true
  · have returns : Returns (finalizeRequest rc) c replies :=
      ⟨0, finalize_closes closes⟩
    apply iff_of_true returns
    tauto
  · simp only [not_or, Bool.not_eq_true, not_not] at closes
    obtain ⟨answered, broken⟩ := closes
    have same : Returns (finalizeRequest rc) c replies ↔
        Returns websocketWriter (forbid c) replies := by
      apply exists_congr
      intro n
      rw [finalizeRequest, finalize_answers answered broken]
    rw [same]
    cases late : c.writeTimedout with
    | true =>
      rw [writer_returns_iff]
      exact iff_of_true (.inl late) (.inr (.inr (.inl rfl)))
    | false =>
      have untroubled : Untroubled (forbid c) := ⟨late, broken⟩
      rw [forbidden_returns_iff untroubled rfl]
      simp [answered, broken]

/-- Both functions return unless every reply they meet rejects, first with the pending bytes to
send and then with the 403 answer. -/
theorem response_returns_iff (c : Connection) (rc : Int) (replies : Stream' Reply) :
    (Returns websocketWriter c replies ↔
      c.writeTimedout = true ∨ c.error = true ∨ c.pending = [] ∨
        ¬ (replies.get 0).Rejects c.pending.length ∨
        ∃ k, ¬ (replies.get (k + 1)).Rejects forbidden.length) ∧
    (Returns (finalizeRequest rc) c replies ↔
      rc < httpSpecialResponse ∨ rc = httpRequestTimeOut ∨ rc = httpClientClosedRequest ∨
        c.error = true ∨ c.writeTimedout = true ∨
        ∃ k, ¬ (replies.get k).Rejects forbidden.length) := by
  refine ⟨writer_returns_iff, ?_⟩
  have codes : ¬ Answered rc ↔
      rc < httpSpecialResponse ∨ rc = httpRequestTimeOut ∨ rc = httpClientClosedRequest := by
    simp only [Answered]
    omega
  rw [finalize_returns_iff, codes, or_assoc, or_assoc]

def upgrading : Connection :=
  respond (switchingProtocols (ascii "s3pPLMBiTxaQ9kYGzzhZRbK+xOo="))
    { Connection.fresh with
      data := .request
      readHandler := .empty
      writeHandler := .websocketRequest
      request := ⟨true, 0, false, true, true⟩ }

/-- On a socket that is broken for good, every send fails and neither function returns. -/
theorem broken_socket_never_returns :
    upgrading.pending ≠ [] ∧
      ¬ Returns websocketWriter upgrading (Stream'.const ⟨.error, true, .linked⟩) ∧
      ¬ Returns (finalizeRequest httpInternalServerError) upgrading
        (Stream'.const ⟨.error, true, .linked⟩) := by
  have rejects (size : Nat) : Reply.Rejects size ⟨.error, true, .linked⟩ := trivial
  have pending : upgrading.pending ≠ [] := by decide
  refine ⟨pending, ?_, ?_⟩
  · rw [writer_returns_iff]
    rintro (late | broken | nothing | first | ⟨k, later⟩)
    · exact nomatch late
    · exact nomatch broken
    · exact pending nothing
    · exact first (rejects _)
    · exact later (rejects _)
  · rw [finalize_returns_iff]
    rintro (closes | broken | late | ⟨k, later⟩)
    · exact closes answered_internal
    · exact nomatch broken
    · exact nomatch late
    · exact later (rejects _)

end Ngx.Http
