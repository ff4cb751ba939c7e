import Ngx.HttpConnection

/-! What the socket takes while a request is answered. After a short write the writer goes on at
`pos`; after a failure `ngx_http_finalize_request` puts the 403 answer into the same buffer and
starts from its beginning. -/
namespace Ngx.Http

open PartialRuns

def Response (text : List UInt8) : Prop := text = forbidden ∨ ∃ key, text = switchingProtocols key

/-- The answer begins with `ngx_http_process_request`, or with `ngx_http_finalize_request` where
reading the request has failed; from then on there are write events. -/
inductive Turn where
  | process (io : Io)
  | finalize (rc : Int) (replies : List Reply)
  | write (timedout : Bool) (replies : List Reply)

def Turn.starts : Turn → Bool
  | .process _ | .finalize _ _ => true
  | .write _ _ => false

/-- A write event counts while it belongs to `ngx_websocket_request_handler`. -/
def turn (c : Connection) : Turn → Option Connection
  | .process io => httpProcessRequest io c
  | .finalize rc replies => finalizeRequest rc replies c
  | .write timedout replies =>
    if c.isOpen = true ∧ c.writeHandler = .websocketRequest then
      websocketRequestHandler true replies { c with writeTimedout := c.writeTimedout || timedout }
    else some c

/-- The socket has taken nothing, or what stands before `pos` in the one response in the buffer,
or, while nothing of that has been sent, a part of one response. -/
def OneResponse (c : Connection) : Prop :=
  c.accepted = [] ∨
    ∃ b, c.buffer = some b ∧ Response b.content ∧
      (c.accepted = b.content.take b.pos ∨
        b.pos = 0 ∧ ∃ text, Response text ∧ c.accepted <+: text)

theorem OneResponse.isPrefix {c : Connection} (sent : OneResponse c) :
    ∃ text, Response text ∧ c.accepted <+: text := by
  rcases sent with nothing | ⟨b, -, response, taken | ⟨-, started⟩⟩
  · exact ⟨forbidden, .inl rfl, nothing ▸ List.nil_prefix⟩
  · exact ⟨b.content, response, taken ▸ List.take_prefix _ _⟩
  · exact started

def Reply.taken (reply : Reply) : ℕ :=
  match reply.send with
  | .sent n => n
  | .again | .error => 0

/-- The socket takes bytes in a call before which more are `out` than the `sent` ones of the
response in the buffer, of which `size` are left. A call that fails is followed by one that has
the 403 answer to send. -/
def Interrupts : List Reply → ℕ → ℕ → ℕ → Prop
  | [], _, _, _ => False
  | reply :: replies, out, sent, size =>
    sent < out ∧ 0 < reply.taken ∨
      reply.Rejects size ∧ Interrupts replies (out + reply.taken) 0 forbidden.length

def writes (c : Connection) : Turn → Option (List Reply × Connection)
  | .process io =>
    let handled := setWriteHandler .websocketRequest (setReadHandler .empty c)
    match (if c.request.upgrade ∧ c.request.secWebsocketKey then io.acceptKey else none) with
    | some key => some (io.replies, respond (switchingProtocols key) handled)
    | none => if c.error then none else some (io.replies, forbid handled)
  | .finalize rc replies =>
    if rc < httpSpecialResponse ∨ rc = httpRequestTimeOut ∨ rc = httpClientClosedRequest ∨ c.error
    then none
    else some (replies, forbid c)
  | .write timedout replies =>
    let late := { c with writeTimedout := c.writeTimedout || timedout }
    if c.isOpen = true ∧ c.writeHandler = .websocketRequest ∧ c.data = .request ∧
        ¬ c.request.freed ∧ c.close = false then some (replies, late)
    else none

def Connection.sent (c : Connection) : ℕ := (c.buffer.map Buf.pos).getD 0

/-- A call of the writer takes bytes after a call that failed when a part of the response was out,
in this turn or before. Once a timeout or an error is noted, a failure only closes the
connection. -/
def Interrupted (c : Connection) (t : Turn) : Prop :=
  ∃ replies d, writes c t = some (replies, d) ∧ Untroubled d ∧ d.pending ≠ [] ∧
    Interrupts replies d.accepted.length d.sent d.pending.length

instance (rc : Int) : Decidable (Answered rc) :=
  inferInstanceAs (Decidable (httpSpecialResponse ≤ rc ∧ rc ≠ httpRequestTimeOut ∧
    rc ≠ httpClientClosedRequest))

/-- The connection at each call of the writer, and after the socket has taken bytes in it. -/
def calls : List Reply → Connection → List Connection
  | [], c => [c]
  | reply :: replies, c =>
    c :: match writerCall reply c with
      | .returned d => [d]
      | .finalize rc d =>
        d :: if Answered rc ∧ d.error = false then calls replies (forbid d) else []

/-- The connection before a turn, at every moment inside it, and after it if it ends. -/
def moments (c : Connection) (t : Turn) : List Connection :=
  c :: ((match writes c t with
    | some (replies, d) => calls replies d
    | none => []) ++ (turn c t).toList)

/-- The buffer, what the socket has taken, and whether an error is noted. -/
structure Wire where
  buffer : Option Buf
  accepted : List UInt8
  error : Bool

def Connection.wire (c : Connection) : Wire := ⟨c.buffer, c.accepted, c.error⟩

/-- The part of the buffer before `pos` has been sent, and nothing else; or, where the answer has
been started over, nothing of it, after a part of a response. -/
def Sent (wire : Wire) : Prop :=
  ∃ b, wire.buffer = some b ∧ Response b.content ∧
    (wire.accepted = b.content.take b.pos ∨
      b.pos = 0 ∧ wire.error = false ∧ ∃ text, Response text ∧ wire.accepted <+: text)

/-- More has been sent than stands before `pos`, and that not only before this response. -/
def Ahead (wire : Wire) : Prop :=
  ∃ b, wire.buffer = some b ∧ 0 < b.pos ∧ (b.content.take b.pos).length < wire.accepted.length

section Wire

variable {c c' : Connection} {reply : Reply} {replies : List Reply} {rc : Int}

theorem freeRequest_wire : (httpFreeRequest c).wire = c.wire := by
  rw [httpFreeRequest]
  split <;> rfl

theorem closeConnection_wire : (httpCloseConnection c).wire = c.wire := by
  rw [httpCloseConnection, closeConnection]
  split <;> rfl

theorem closeRequest_wire : (httpCloseRequest rc c).wire = c.wire := by
  rw [httpCloseRequest]
  split
  · exact freeRequest_wire
  · exact closeConnection_wire.trans freeRequest_wire

theorem initConnection_wire (init : WebsocketInit) :
    (websocketInitConnection init c).wire = c.wire := by
  cases init with
  | noMemory => exact closeConnection_wire
  | noQueue => exact closeConnection_wire
  | linked => rfl

theorem finish_wire (init : WebsocketInit) : (finish init c).wire = c.wire := by
  rw [finish]
  split
  · exact (initConnection_wire init).trans closeRequest_wire
  · exact closeRequest_wire

theorem advance_zero : (c.advance 0).wire = c.wire := by
  cases buffer : c.buffer <;> simp [Connection.wire, Connection.advance, buffer]

def Outcome.connection : Outcome → Connection
  | .returned c => c
  | .finalize _ c => c

/-- A call of the writer sends the bytes the socket takes, or does not come to sending. -/
theorem writerCall_wire (reply : Reply) (c : Connection) :
    ∃ n, (n = 0 ∧ (c.writeTimedout = true ∨ c.pending = []) ∨
        n = reply.taken ∧ c.writeTimedout = false ∧ c.pending ≠ []) ∧
      (writerCall reply c).connection.wire = (c.advance n).wire := by
  rw [writerCall]
  split
  next late => exact ⟨0, .inl ⟨rfl, .inl late⟩, advance_zero.symm⟩
  next early =>
    split
    next nothing =>
      exact ⟨0, .inl ⟨rfl, .inr (List.length_eq_zero_iff.mp nothing)⟩, advance_zero.symm⟩
    next something =>
      have sending : c.writeTimedout = false ∧ c.pending ≠ [] :=
        ⟨by simpa using early, fun none => something (List.length_eq_zero_iff.mpr none)⟩
      refine ⟨reply.taken, .inr ⟨rfl, sending⟩, ?_⟩
      cases sent : reply.send with
      | again =>
        rw [Reply.taken, sent]
        simp only
        split <;> exact advance_zero.symm
      | error =>
        rw [Reply.taken, sent]
        exact advance_zero.symm
      | sent n =>
        rw [Reply.taken, sent]
        simp only
        split_ifs with closed
        · rw [closed]
          exact advance_zero.symm
        · exact finish_wire reply.init
        · rfl
        · rfl

theorem Sent.one (sent : Sent c.wire) : OneResponse c := by
  obtain ⟨b, buffer, response, taken | ⟨start, -, part⟩⟩ := sent
  · exact .inr ⟨b, buffer, response, .inl taken⟩
  · exact .inr ⟨b, buffer, response, .inr ⟨start, part⟩⟩

theorem Sent.error (sent : Sent c.wire) (behind : c.sent < c.accepted.length) :
    c.error = false := by
  obtain ⟨b, buffer, -, taken | ⟨-, noError, -⟩⟩ := sent
  · have buffer : c.buffer = some b := buffer
    have short : c.accepted.length ≤ b.pos := by
      rw [show c.accepted = _ from taken]
      exact List.length_take_le _ _
    rw [Connection.sent, buffer] at behind
    exact absurd behind (Nat.not_lt.mpr short)
  · exact noError

/-- Bytes may go out while all that are out belong to the response in the buffer. -/
theorem Sent.advance {n : ℕ} (sent : Sent c.wire)
    (inside : n = 0 ∨ c.accepted.length ≤ c.sent) : Sent (c.advance n).wire := by
  rcases inside with rfl | inside
  · rw [advance_zero]
    exact sent
  obtain ⟨b, buffer, response, taken⟩ := sent
  have buffer : c.buffer = some b := buffer
  have taken : c.accepted = b.content.take b.pos := by
    rcases taken with taken | ⟨start, -, -⟩
    · exact taken
    · rw [Connection.sent, buffer, Option.map_some, Option.getD_some, start] at inside
      rw [start, List.take_zero]
      exact List.length_eq_zero_iff.mp (Nat.le_zero.mp inside)
  refine ⟨{ b with pos := b.pos + n }, ?_, response, .inl ?_⟩
  · simp [Connection.wire, Connection.advance, buffer]
  · simp [Connection.wire, Connection.advance, Connection.pending, Buf.pending, buffer, taken,
      List.take_add]

theorem Sent.forbid (sent : Sent c.wire) (noError : c.error = false) : Sent (forbid c).wire :=
  ⟨⟨forbidden, 0⟩, rfl, .inl rfl, .inr ⟨rfl, noError, sent.one.isPrefix⟩⟩

theorem Ahead.advance {n : ℕ} (behind : c.sent < c.accepted.length) (pending : c.pending ≠ [])
    (some_bytes : 0 < n) : Ahead (c.advance n).wire := by
  cases buffer : c.buffer with
  | none => simp [Connection.pending, buffer] at pending
  | some b =>
    have left := List.length_pos_of_ne_nil pending
    simp only [Connection.sent, Connection.pending, Buf.pending, buffer, Option.map_some,
      Option.getD_some, List.length_drop] at behind left
    refine ⟨{ b with pos := b.pos + n }, ?_, Nat.add_pos_right _ some_bytes, ?_⟩
    · simp [Connection.wire, Connection.advance, buffer]
    · simp only [Connection.wire, Connection.advance, Connection.pending, Buf.pending, buffer,
        Option.map_some, Option.getD_some, List.length_append, List.length_take, List.length_drop]
      omega

theorem Ahead.not_one (ahead : Ahead c.wire) : ¬ OneResponse c := by
  obtain ⟨b, buffer, started, more⟩ := ahead
  have buffer : c.buffer = some b := buffer
  have more : (b.content.take b.pos).length < c.accepted.length := more
  rintro (nothing | ⟨b', buffer', -, taken⟩)
  · simp [nothing] at more
  · obtain rfl : b = b' := Option.some.inj (buffer.symm.trans buffer')
    rcases taken with taken | ⟨start, -⟩
    · exact Nat.lt_irrefl _ (taken ▸ more)
    · exact Nat.ne_of_gt started start

end Wire

section Writer

variable {c c' : Connection} {reply : Reply} {replies : List Reply} {rc : Int}

/-- Either the request is closed, or the 403 answer is to be sent. -/
theorem finalizeWith_cases {writer : Connection → Option Connection}
    (finalized : finalizeWith writer rc c = some c') :
    (∃ code, c' = httpCloseRequest code c) ∨
      Answered rc ∧ c.error = false ∧ writer (forbid c) = some c' := by
  unfold finalizeWith at finalized
  split_ifs at finalized with okay failed special
  · exact .inl ⟨_, (Option.some.inj finalized).symm⟩
  · exact .inl ⟨_, (Option.some.inj finalized).symm⟩
  · simp only [not_or, Bool.not_eq_true] at failed
    exact .inr ⟨⟨special, failed.2.1, failed.2.2.1⟩, failed.2.2.2, finalized⟩
  · exact .inl ⟨_, (Option.some.inj finalized).symm⟩

/-- The result of the writer is one of the moments inside it, apart from what is closed. -/
theorem writer_calls : ∀ {replies : List Reply} {c : Connection},
    websocketWriter replies c = some c' → ∃ d ∈ calls replies c, d.wire = c'.wire
  | [], _, written => by cases written
  | reply :: replies, c, written => by
    rw [websocketWriter] at written
    rw [calls]
    cases call : writerCall reply c with
    | returned d =>
      rw [call] at written
      cases written
      exact ⟨c', by simp, rfl⟩
    | finalize rc d =>
      rw [call] at written
      rcases finalizeWith_cases written with ⟨code, rfl⟩ | ⟨answered, noError, restarted⟩
      · exact ⟨d, by simp, closeRequest_wire.symm⟩
      · obtain ⟨e, member, same⟩ := writer_calls restarted
        refine ⟨e, ?_, same⟩
        simp [answered, noError, member]

theorem rejected_taken {d : Connection} (call : writerCall reply c = .finalize rc d)
    (rejects : reply.Rejects c.pending.length) (answered : Answered rc) :
    d.accepted.length = c.accepted.length + reply.taken := by
  obtain ⟨-, -, silent | ⟨-, started, pending, -⟩⟩ := writerCall_finalize call
  · exact (silent answered).elim
  obtain ⟨n, ⟨-, late | nothing⟩ | ⟨rfl, -⟩, wire⟩ := writerCall_wire reply c
  · exact absurd (late.symm.trans started) (by simp)
  · exact (pending nothing).elim
  have taken : d.accepted = (c.advance reply.taken).accepted := by
    rw [call] at wire
    exact congrArg Wire.accepted wire
  have short : reply.taken ≤ c.pending.length := by
    cases sent : reply.send with
    | again => simp [Reply.taken, sent]
    | error => simp [Reply.taken, sent]
    | sent n =>
      simp only [Reply.Rejects, sent] at rejects
      simp only [Reply.taken, sent]
      omega
  simp only [taken, Connection.advance, List.length_append, List.length_take]
  omega

/-- A failing call leaves its bytes on the wire and the 403 answer in the buffer. -/
theorem writer_rejected (untroubled : Untroubled c) (pending : c.pending ≠ [])
    (rejects : reply.Rejects c.pending.length) :
    ∃ d, Untroubled (forbid d) ∧ d.accepted.length = c.accepted.length + reply.taken ∧
      ∀ replies, calls (reply :: replies) c = c :: d :: calls replies (forbid d) := by
  obtain ⟨d, call⟩ := writerCall_rejected untroubled pending rejects
  obtain ⟨broken, late, -⟩ := writerCall_finalize call
  have noError : d.error = false := broken.trans untroubled.error
  refine ⟨d, ⟨late.trans untroubled.timedout, noError⟩, rejected_taken call rejects answered_internal, ?_⟩
  intro replies
  rw [calls, call]
  simp only [answered_internal, noError, and_self, if_true]

/-- By induction on the replies: until bytes are taken after a failure, every call goes on at
`pos`, or starts over and gets no further. -/
theorem calls_sent : ∀ {replies : List Reply} {c : Connection}, Sent c.wire →
    (Untroubled c → c.pending ≠ [] →
      ¬ Interrupts replies c.accepted.length c.sent c.pending.length) →
    ∀ d ∈ calls replies c, Sent d.wire
  | [], _, sent, _ => by simpa [calls] using sent
  | reply :: replies, c, sent, calm => by
    have after : Sent (writerCall reply c).connection.wire := by
      obtain ⟨n, ⟨none, -⟩ | ⟨rfl, started, pending⟩, wire⟩ := writerCall_wire reply c
      · exact wire ▸ sent.advance (.inl none)
      · refine wire ▸ sent.advance ?_
        by_cases behind : c.sent < c.accepted.length
        · have uninterrupted := calm ⟨started, sent.error behind⟩ pending
          rw [Interrupts, not_or] at uninterrupted
          exact .inl (Nat.le_zero.mp (Nat.not_lt.mp fun some => uninterrupted.1 ⟨behind, some⟩))
        · exact .inr (Nat.not_lt.mp behind)
    rw [calls, List.forall_mem_cons]
    refine ⟨sent, ?_⟩
    cases call : writerCall reply c with
    | returned d =>
      rw [call] at after
      exact List.forall_mem_singleton.mpr after
    | finalize rc d =>
      rw [call] at after
      refine List.forall_mem_cons.mpr ⟨after, ?_⟩
      split
      next again =>
        obtain ⟨answered, noError⟩ := again
        obtain ⟨broken, -, silent | ⟨-, started, pending, rejects⟩⟩ := writerCall_finalize call
        · exact (silent answered).elim
        refine calls_sent (Sent.forbid after noError) fun _ _ interrupts => ?_
        refine calm ⟨started, broken ▸ noError⟩ pending (.inr ⟨rejects, ?_⟩)
        rw [← rejected_taken call rejects answered]
        exact interrupts
      next => simp

theorem calls_interrupted : ∀ {replies : List Reply} {c : Connection}, Untroubled c →
    c.pending ≠ [] → Interrupts replies c.accepted.length c.sent c.pending.length →
    ∃ d ∈ calls replies c, Ahead d.wire
  | [], _, _, _, interrupts => interrupts.elim
  | reply :: replies, c, untroubled, pending, .inl ⟨behind, takes⟩ => by
    obtain ⟨n, ⟨-, late | nothing⟩ | ⟨rfl, -⟩, wire⟩ := writerCall_wire reply c
    · exact absurd (late.symm.trans untroubled.timedout) (by simp)
    · exact (pending nothing).elim
    · refine ⟨(writerCall reply c).connection, ?_, wire ▸ Ahead.advance behind pending takes⟩
      rw [calls]
      cases writerCall reply c <;> simp [Outcome.connection]
  | reply :: replies, c, untroubled, pending, .inr ⟨rejects, later⟩ => by
    obtain ⟨d, quiet, count, moved⟩ := writer_rejected untroubled pending rejects
    obtain ⟨e, member, ahead⟩ := calls_interrupted quiet forbidden_ne_nil (count ▸ later)
    exact ⟨e, by simp [moved, member], ahead⟩

end Writer

section Turns

variable {c c' d : Connection} {t : Turn} {replies : List Reply} {rc : Int}

/-- Where a turn does not begin with a call of the writer, it closes the request or does nothing
to the wire. -/
def Spares (c c' : Connection) : Prop :=
  c'.wire = c.wire ∧ (Reading c → c'.isOpen = false ∨ c'.writeHandler = .empty)

theorem closeRequest_spares (rc : Int) : Spares c (httpCloseRequest rc c) := by
  refine ⟨closeRequest_wire, fun reading => .inr ?_⟩
  rw [httpCloseRequest, httpFreeRequest]
  split_ifs <;> simp [httpCloseConnection, closeConnection, reusableConnection, reading.write,
    apply_ite Connection.writeHandler]

/-- `ngx_http_finalize_request` with a code for which it starts an answer. -/
theorem finalize_broken (answered : Answered rc) (broken : c.error = true) :
    finalizeRequest rc replies c = some (httpCloseRequest ngxError c) := by
  have failed : rc ≠ ngxOk := by
    rintro rfl
    exact absurd answered.1 (by decide)
  rw [finalizeRequest, finalizeWith, if_neg failed, if_pos (by simp [broken])]

theorem answered_bad : Answered httpBadRequest := by
  unfold Answered
  decide

def handled (c : Connection) : Connection :=
  setWriteHandler .websocketRequest (setReadHandler .empty c)

/-- A request that cannot be upgraded. -/
theorem process_refused {io : Io}
    (refused : (if c.request.upgrade ∧ c.request.secWebsocketKey then io.acceptKey else none) =
      none) :
    ∃ rc, Answered rc ∧ turn c (.process io) = finalizeRequest rc io.replies (handled c) := by
  by_cases complete : c.request.upgrade = true ∧ c.request.secWebsocketKey = true
  · rw [if_pos complete] at refused
    refine ⟨httpInternalServerError, answered_internal, ?_⟩
    simp [turn, httpProcessRequest, websocketHandler, handled, setWriteHandler, setReadHandler,
      complete, refused]
  · refine ⟨httpBadRequest, answered_bad, ?_⟩
    have incomplete : ¬ c.request.upgrade = true ∨ ¬ c.request.secWebsocketKey = true :=
      not_and_or.mp complete
    exact if_pos incomplete

theorem turn_writes (writing : writes c t = some (replies, d)) :
    turn c t = websocketWriter replies d := by
  cases t with
  | process io =>
    rw [writes] at writing
    cases key : (if c.request.upgrade ∧ c.request.secWebsocketKey then io.acceptKey else none) with
    | some key' =>
      simp only [key, Option.some.injEq, Prod.mk.injEq] at writing
      obtain ⟨rfl, rfl⟩ := writing
      split at key
      next complete =>
        simp [turn, httpProcessRequest, websocketHandler, setWriteHandler, setReadHandler,
          complete, key]
      next => cases key
    | none =>
      obtain ⟨rc, answered, same⟩ := process_refused key
      simp only [key] at writing
      split at writing
      next => cases writing
      next noError =>
        cases writing
        have calm : (handled c).error = false := Bool.eq_false_iff.mpr noError
        rw [same]
        exact finalize_answers answered calm
  | finalize rc replies =>
    rw [writes] at writing
    split at writing
    next => cases writing
    next answers =>
      cases writing
      simp only [not_or, Int.not_lt, Bool.not_eq_true] at answers
      exact finalize_answers ⟨answers.1, answers.2.1, answers.2.2.1⟩ answers.2.2.2
  | write timedout replies =>
    rw [writes] at writing
    split at writing
    next ready =>
      cases writing
      obtain ⟨opened, handler, data, alive, unselected⟩ := ready
      rw [turn, if_pos ⟨opened, handler⟩, websocketRequestHandler, withRequest,
        if_pos ⟨data, alive⟩]
      simp [unselected]
    next => cases writing

theorem turn_spares (silent : writes c t = none) (turned : turn c t = some c') : Spares c c' := by
  cases t with
  | process io =>
    rw [writes] at silent
    cases key : (if c.request.upgrade ∧ c.request.secWebsocketKey then io.acceptKey else none) with
    | some key' => simp [key] at silent
    | none =>
      obtain ⟨rc, answered, same⟩ := process_refused key
      simp only [key] at silent
      split at silent
      next broken =>
        rw [same, finalize_broken answered (c := handled c) broken] at turned
        cases turned
        refine ⟨closeRequest_wire, fun reading => .inl ?_⟩
        have serving : Serving (handled c) := reading.serving
        exact (closeRequest_closed serving).notOpen
      next => cases silent
  | finalize rc replies =>
    rw [writes] at silent
    split at silent
    next closes =>
      rcases finalizeWith_cases turned with ⟨code, rfl⟩ | ⟨answered, noError, -⟩
      · exact closeRequest_spares code
      · rcases closes with low | late | left | broken
        · exact (Int.not_le.mpr low answered.1).elim
        · exact (answered.2.1 late).elim
        · exact (answered.2.2 left).elim
        · rw [broken] at noError
          cases noError
    next => cases silent
  | write timedout replies =>
    rw [turn] at turned
    rw [writes] at silent
    split at turned
    next ready =>
      rw [websocketRequestHandler, withRequest] at turned
      split at turned
      next alive =>
        split at turned
        next selected =>
          cases turned
          refine ⟨freeRequest_wire, fun reading => ?_⟩
          rw [reading.write] at ready
          cases ready.2
        next unselected =>
          rw [if_pos ⟨ready.1, ready.2, alive.1, alive.2, by simpa using unselected⟩] at silent
          cases silent
      next =>
        cases turned
        exact ⟨rfl, fun reading => .inr reading.write⟩
    next =>
      cases turned
      exact ⟨rfl, fun reading => .inr reading.write⟩

/-- What a turn finds: the request still being read, and nothing sent, where the answer begins;
later an answer on its way, or none to come. -/
def Expects (c : Connection) (turns : List Turn) : Prop :=
  (∃ start rest, turns = start :: rest ∧ start.starts = true ∧ (∀ t ∈ rest, t.starts = false) ∧
    Reading c ∧ c.accepted = []) ∨
  (∀ t ∈ turns, t.starts = false) ∧ (Sent c.wire ∨
    c.accepted = [] ∧ ¬ (c.isOpen = true ∧ c.writeHandler = .websocketRequest))

theorem respond_accounted {text : List UInt8} (response : Response text)
    (nothing : c.accepted = []) : Sent (respond text c).wire :=
  ⟨⟨text, 0⟩, rfl, response, .inl nothing⟩

/-- The writer is called with the response in the buffer that has been sent so far. -/
theorem writes_accounted {turns : List Turn} (expects : Expects c (t :: turns))
    (writing : writes c t = some (replies, d)) : Sent d.wire := by
  rcases expects with ⟨start, rest, same, starts, -, -, nothing⟩ | ⟨later, accounted⟩
  · obtain ⟨rfl, -⟩ := List.cons.inj same
    cases t with
    | process io =>
      rw [writes] at writing
      split at writing
      next key _ =>
        cases writing
        exact respond_accounted (.inr ⟨key, rfl⟩) nothing
      next =>
        split at writing
        next => cases writing
        next =>
          cases writing
          exact respond_accounted (.inl rfl) nothing
    | finalize rc replies =>
      rw [writes] at writing
      split at writing
      next => cases writing
      next =>
        cases writing
        exact respond_accounted (.inl rfl) nothing
    | write timedout replies => cases starts
  · cases t with
    | process io => cases later _ List.mem_cons_self
    | finalize rc replies => cases later _ List.mem_cons_self
    | write timedout replies =>
      rw [writes] at writing
      split at writing
      next ready =>
        cases writing
        exact accounted.resolve_right fun idle => idle.2 ⟨ready.1, ready.2.1⟩
      next => cases writing

theorem expects_after {turns : List Turn} (expects : Expects c (t :: turns))
    (after : Sent c'.wire ∨
      c'.accepted = [] ∧ ¬ (c'.isOpen = true ∧ c'.writeHandler = .websocketRequest)) :
    Expects c' turns := by
  refine .inr ⟨?_, after⟩
  rcases expects with ⟨start, rest, same, -, later, -⟩ | ⟨later, -⟩
  · obtain ⟨-, rfl⟩ := List.cons.inj same
    exact later
  · exact fun u member => later u (List.mem_cons_of_mem t member)

theorem spares_after {turns : List Turn} (expects : Expects c (t :: turns))
    (writing : writes c t = none) (turned : turn c t = some c') :
    Sent c'.wire ∨
      c'.accepted = [] ∧ ¬ (c'.isOpen = true ∧ c'.writeHandler = .websocketRequest) := by
  obtain ⟨wire, leaves⟩ := turn_spares writing turned
  rcases expects with ⟨-, -, -, -, -, reading, nothing⟩ | ⟨later, accounted | ⟨nothing, idle⟩⟩
  · have unsent : c'.accepted = c.accepted := congrArg Wire.accepted wire
    refine .inr ⟨unsent.trans nothing, ?_⟩
    rintro ⟨opened, writes⟩
    rcases leaves reading with closed | silent
    · rw [closed] at opened
      cases opened
    · rw [silent] at writes
      cases writes
  · exact .inl (wire ▸ accounted)
  · cases t with
    | process io => cases later _ List.mem_cons_self
    | finalize rc replies => cases later _ List.mem_cons_self
    | write timedout replies =>
      rw [turn, if_neg idle] at turned
      cases turned
      exact .inr ⟨nothing, idle⟩

theorem writes_moments (writing : writes c t = some (replies, d)) :
    moments c t = c :: (calls replies d ++ (turn c t).toList) := by
  rw [moments, writing]

theorem expects_one {turns : List Turn} (expects : Expects c turns) : OneResponse c := by
  rcases expects with ⟨-, -, -, -, -, -, nothing⟩ | ⟨-, sent | ⟨nothing, -⟩⟩
  · exact .inl nothing
  · exact sent.one
  · exact .inl nothing

theorem uninterrupted_sent {turns : List Turn} (expects : Expects c (t :: turns))
    (uninterrupted : ¬ Interrupted c t) (writing : writes c t = some (replies, d)) :
    ∀ e ∈ calls replies d, Sent e.wire :=
  calls_sent (writes_accounted expects writing) fun untroubled pending interrupts =>
    uninterrupted ⟨replies, d, writing, untroubled, pending, interrupts⟩

theorem expects_next {turns : List Turn} (expects : Expects c (t :: turns))
    (uninterrupted : ¬ Interrupted c t) (turned : turn c t = some c') : Expects c' turns := by
  cases writing : writes c t with
  | none => exact expects_after expects (spares_after expects writing turned)
  | some call =>
    obtain ⟨replies, d⟩ := call
    rw [turn_writes writing] at turned
    obtain ⟨e, member, same⟩ := writer_calls turned
    have sent := uninterrupted_sent expects uninterrupted writing e member
    exact expects_after expects (.inl (same ▸ sent))

/-- Exactly an interruption makes more than one response of what the socket takes in a turn. -/
theorem moments_iff {turns : List Turn} (expects : Expects c (t :: turns)) :
    (∀ d ∈ moments c t, OneResponse d) ↔ ¬ Interrupted c t := by
  constructor
  · rintro all ⟨replies, d, writing, untroubled, pending, interrupts⟩
    obtain ⟨e, member, ahead⟩ := calls_interrupted untroubled pending interrupts
    refine ahead.not_one (all e ?_)
    rw [writes_moments writing]
    exact List.mem_cons_of_mem c (List.mem_append_left _ member)
  · intro uninterrupted
    have after : ∀ e ∈ (turn c t).toList, OneResponse e := by
      intro e member
      exact expects_one (expects_next expects uninterrupted (Option.mem_toList.mp member))
    rw [moments]
    refine List.forall_mem_cons.mpr ⟨expects_one expects, List.forall_mem_append.mpr ⟨?_, after⟩⟩
    cases writing : writes c t with
    | none => simp
    | some call =>
      obtain ⟨replies, d⟩ := call
      exact fun e member => (uninterrupted_sent expects uninterrupted writing e member).one

end Turns

def Turn.replies : Turn → List Reply
  | .process io => io.replies
  | .finalize _ replies | .write _ replies => replies

theorem writes_replies {c d : Connection} {t : Turn} {replies : List Reply}
    (writing : writes c t = some (replies, d)) : replies = t.replies := by
  cases t with
  | process io =>
    rw [writes] at writing
    split at writing
    next => cases writing; rfl
    next =>
      split at writing
      next => cases writing
      next => cases writing; rfl
  | finalize rc replies =>
    rw [writes] at writing
    split at writing
    next => cases writing
    next => cases writing; rfl
  | write timedout replies =>
    rw [writes] at writing
    split at writing
    next => cases writing; rfl
    next => cases writing

theorem Interrupts.fails : ∀ {replies : List Reply} {out sent size : ℕ},
    Interrupts replies out sent size → out ≤ sent →
    ∃ reply ∈ replies, reply.send = .error ∨ reply.writeEvent = false
  | [], _, _, _, interrupts, _ => interrupts.elim
  | _ :: _, _, _, _, .inl ⟨behind, _⟩, level => absurd behind (Nat.not_lt.mpr level)
  | reply :: replies, _, _, size, .inr ⟨rejects, _⟩, _ => by
    refine ⟨reply, List.mem_cons_self, ?_⟩
    cases sent : reply.send with
    | again =>
      simp only [Reply.Rejects, sent] at rejects
      exact .inr rejects
    | error => exact .inl rfl
    | sent n =>
      simp only [Reply.Rejects, sent] at rejects
      exact .inr rejects.2.2

/-- From the moment a request is answered, what the socket has taken is the part before `pos` of
one response, or a part of one response before anything of another, at every moment of a run, also
inside turns that never end, if and only if no call of the writer takes bytes after one that failed
when a part of the response was out. In such a run it is always the beginning of one of the two
answers. -/
theorem one_response_iff (c : Connection) (reading : Reading c) (nothing : c.accepted = [])
    (start : Turn) (starts : start.starts = true) (turns : List Turn)
    (later : ∀ t ∈ turns, t.starts = false) :
    (Along turn (fun c t => ∀ d ∈ moments c t, OneResponse d) c (start :: turns) ↔
      Avoids turn Interrupted c (start :: turns)) ∧
    (Avoids turn Interrupted c (start :: turns) →
      Along turn (fun c t => ∀ d ∈ moments c t, ∃ text, Response text ∧ d.accepted <+: text) c
        (start :: turns)) := by
  have expects : Expects c (start :: turns) :=
    .inl ⟨start, turns, rfl, starts, later, reading, nothing⟩
  have single : ∀ c t turns, Expects c (t :: turns) →
      ((∀ d ∈ moments c t, OneResponse d) ↔ ¬ Interrupted c t) := fun _ _ _ => moments_iff
  have next : ∀ c t turns c', Expects c (t :: turns) → ¬ Interrupted c t → turn c t = some c' →
      Expects c' turns := fun _ _ _ _ => expects_next
  have exact_iff : Along turn (fun c t => ∀ d ∈ moments c t, OneResponse d) c (start :: turns) ↔
      Avoids turn Interrupted c (start :: turns) :=
    along_iff single next expects
  refine ⟨exact_iff, fun avoids => (exact_iff.mpr avoids).mono fun _ _ all d member => ?_⟩
  exact (all d member).isPrefix

def requested : Connection :=
  { Connection.fresh with
    data := .request
    readHandler := .processRequestHeaders
    writeHandler := .empty
    buffer := some ⟨[], 0⟩
    request := ⟨true, 0, false, true, true⟩ }

theorem requested_reading : Reading requested := ⟨rfl, .inr rfl, rfl⟩

/-- The socket takes the 101 answer in two parts. -/
theorem one_response_two_parts :
    Along turn (fun c t => ∀ d ∈ moments c t, OneResponse d) requested
      [.process (upgradeRequest (.sent 10)), .write false [⟨.sent 200, true, .linked⟩]] := by
  have calm (c : Connection) (t : Turn)
      (works : ∀ reply ∈ t.replies, reply.send ≠ .error ∧ reply.writeEvent = true)
      (level : ∀ replies d, writes c t = some (replies, d) → d.accepted.length ≤ d.sent) :
      ¬ Interrupted c t := by
    rintro ⟨replies, d, writing, -, -, interrupts⟩
    obtain ⟨reply, member, fails⟩ := interrupts.fails (level replies d writing)
    obtain ⟨sends, armed⟩ := works reply (writes_replies writing ▸ member)
    rcases fails with failed | unarmed
    · exact sends failed
    · rw [armed] at unarmed
      cases unarmed
  apply (one_response_iff requested requested_reading rfl _ rfl _ (by simp [Turn.starts])).1.mpr
  refine ⟨calm _ _ ?_ ?_, fun c turned => ⟨calm _ _ ?_ ?_, fun _ _ => trivial⟩⟩
  · simp [Turn.replies, upgradeRequest]
  · rintro replies d writing
    cases writing
    exact Nat.zero_le _
  · simp [Turn.replies]
  · rintro replies d writing
    have level : (turn requested (.process (upgradeRequest (.sent 10)))).map
        (fun c => decide (c.accepted.length ≤ c.sent)) = some true := by decide +kernel
    rw [turned, Option.map_some, Option.some.injEq, decide_eq_true_eq] at level
    rw [writes] at writing
    split at writing
    next =>
      cases writing
      exact level
    next => cases writing

/-- The socket takes ten bytes of the 101 answer, waiting for more room fails, and the whole 403
answer follows. -/
theorem second_response_follows :
    Reading requested ∧ requested.accepted = [] ∧
      ∃ c, turn requested (.process { upgradeRequest (.sent 10) with
          replies := [⟨.sent 10, false, .linked⟩, ⟨.sent 26, true, .linked⟩] }) = some c ∧
        c.accepted = ascii "HTTP/1.1 1" ++ forbidden ∧
        ¬ ∃ text, Response text ∧ c.accepted <+: text := by
  have sent : (turn requested (.process { upgradeRequest (.sent 10) with
      replies := [⟨.sent 10, false, .linked⟩, ⟨.sent 26, true, .linked⟩] })).map
      Connection.accepted = some (ascii "HTTP/1.1 1" ++ forbidden) := by
    decide +kernel
  obtain ⟨c, turned, taken⟩ := Option.map_eq_some_iff.mp sent
  refine ⟨requested_reading, rfl, c, turned, taken, ?_⟩
  rw [taken]
  rintro ⟨text, rfl | ⟨key, rfl⟩, starts⟩
  · exact absurd starts (by decide +kernel)
  · rw [switchingProtocols, List.append_assoc] at starts
    have inside := List.prefix_of_prefix_length_le starts (List.prefix_append _ _) (by decide +kernel)
    exact absurd inside (by decide +kernel)

end Ngx.Http
