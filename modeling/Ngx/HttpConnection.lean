import Ngx.HttpLifecycle
import Ngx.PartialRuns

/-! The events of a connection, in any order. -/
namespace Ngx.Http

open PartialRuns

/-- `ngx_websocket_request_handler`; `write` is `ev->write`. -/
def websocketRequestHandler (write : Bool) (replies : List Reply) :
    Connection → Option Connection :=
  withRequest fun c =>
    if c.close then finalizeRequest ngxOk replies c
    else if write then websocketWriter replies c
    else some c

def runHandler (write : Bool) (io : Io) (c : Connection) : Handler → Option Connection
  | .none => some { c with misused := true }
  | .waitRequest => httpWaitRequestHandler io c
  | .processRequestLine => httpProcessRequestLine io c
  | .processRequestHeaders => httpProcessRequestHeaders io c
  | .empty => some c
  | .websocketRequest => websocketRequestHandler write io.replies c
  | .waitFrame => some c
  | .sendMessage =>
    match io.replies with
    | [] => none
    | reply :: _ =>
      some (withWebsocket (fun c => (websocketSendMessageHandler reply io.channelFound c).1) c)

/-- Readiness reported by epoll, an expired timer, the choice of `ngx_drain_connections`, or a
message sent to the connection's channel. -/
inductive Event where
  | readable (io : Io)
  | writable (io : Io)
  | readTimedOut (io : Io)
  | writeTimedOut (io : Io)
  | drained (io : Io)
  | polled (message : List UInt8) (reply : Reply)

/-- One event. Those of a closed connection are stale and are dropped, only a reusable
connection can be drained, and messages go to the connections linked into the channel. There is
no result where the handler does not return. -/
def step (c : Connection) : Event → Option Connection
  | .readable io => if c.isOpen then runHandler false io c c.readHandler else some c
  | .writable io => if c.isOpen then runHandler true io c c.writeHandler else some c
  | .readTimedOut io =>
    if c.isOpen then runHandler false io { c with readTimedout := true } c.readHandler
    else some c
  | .writeTimedOut io =>
    if c.isOpen then runHandler true io { c with writeTimedout := true } c.writeHandler
    else some c
  | .drained io =>
    if c.reusable then runHandler false io { c with close := true } c.readHandler else some c
  | .polled message reply =>
    if c.isOpen ∧ c.data = .websocket ∧ c.websocket.inQueue then
      some (websocketMessageHandler message reply c).1
    else some c

variable {c c' : Connection} {io : Io}

/-- A write event that reaches `ngx_websocket_request_handler` on a connection that
`ngx_drain_connections` has selected. -/
def Disturbs (c : Connection) : Event → Prop
  | .writable _ | .writeTimedOut _ =>
    c.isOpen = true ∧ c.close = true ∧ c.writeHandler = .websocketRequest
  | _ => False

theorem readHandler_preserves (inv : Invariant c) (opened : c.isOpen = true)
    (handled : runHandler false io c c.readHandler = some c') : Invariant c' := by
  rcases inv with (closed | handedOver) | waiting | reading | answering
  · rw [closed.notOpen] at opened
    exact nomatch opened
  · rw [(Prod.mk.inj handedOver.handlers).1] at handled
    cases handled
    exact .inl (.inr handedOver)
  · rw [(Prod.mk.inj waiting.handlers).1] at handled
    exact waitRequestHandler_waiting waiting handled
  · rcases reading.read with read | read
    · rw [read] at handled
      exact processRequestLine_reading reading handled
    · rw [read] at handled
      exact processRequestHeaders_reading reading handled
  · rw [(Prod.mk.inj answering.handlers).1] at handled
    cases handled
    exact .inr (.inr (.inr answering))

theorem writeHandler_preserves (inv : Invariant c) (opened : c.isOpen = true)
    (undisturbed : c.close = false ∨ c.writeHandler ≠ .websocketRequest)
    (handled : runHandler true io c c.writeHandler = some c') : Invariant c' := by
  rcases inv with (closed | handedOver) | waiting | reading | answering
  · rw [closed.notOpen] at opened
    exact nomatch opened
  · rw [(Prod.mk.inj handedOver.handlers).2] at handled
    rw [runHandler] at handled
    cases replies : io.replies with
    | nil =>
      rw [replies] at handled
      cases handled
    | cons reply rest =>
      rw [replies] at handled
      cases handled
      have alive : c.data = .websocket ∧ c.websocket.poolDestroyed = 0 :=
        ⟨handedOver.fields.2.1, handedOver.record⟩
      rw [withWebsocket, if_pos alive]
      exact .inl (sendMessageHandler_handedOver io.channelFound handedOver)
  · rw [(Prod.mk.inj waiting.handlers).2] at handled
    cases handled
    exact .inr (.inl waiting)
  · rw [reading.write] at handled
    cases handled
    exact .inr (.inr (.inl reading))
  · have write : c.writeHandler = .websocketRequest := (Prod.mk.inj answering.handlers).2
    have unselected : ¬ c.close = true := by
      rcases undisturbed with h | h
      · simp [h]
      · exact (h write).elim
    rw [write, runHandler, websocketRequestHandler, withRequest_serving answering.serving,
      if_neg unselected, if_pos rfl] at handled
    rcases writer_serving answering.serving answering.pending handled with
      settled | ⟨serving, pending, same⟩
    · exact .inl settled
    · exact .inr (.inr (.inr ⟨serving, same.trans answering.handlers, pending⟩))

theorem Invariant.transfer {d : Connection} (inv : Invariant c) (life : d.life = c.life)
    (reusable : d.reusable = c.reusable) (record : d.websocket = c.websocket)
    (handlers : d.handlers = c.handlers) (buffer : d.pending = c.pending) : Invariant d := by
  rcases inv with (closed | handedOver) | waiting | reading | answering
  · simp only [Connection.life, Life.mk.injEq] at life
    obtain ⟨opened, -, -, destroyed, pool, clean⟩ := life
    exact .inl (.inl ⟨opened ▸ closed.notOpen, reusable ▸ closed.notReusable,
      pool ▸ closed.pool, destroyed ▸ closed.request, clean ▸ closed.clean⟩)
  · exact .inl (.inr (handedOver.transfer life record handlers))
  · exact .inr (.inl ⟨life.trans waiting.life, handlers.trans waiting.handlers⟩)
  · exact .inr (.inr (.inl (reading.transfer (life.trans reading.serving) handlers)))
  · exact .inr (.inr (.inr ⟨life.trans answering.serving, handlers.trans answering.handlers,
      buffer ▸ answering.pending⟩))

theorem Invariant.data (inv : Invariant c) (opened : c.isOpen = true) :
    HandedOver c ∨ c.data ≠ .websocket := by
  rcases inv with (closed | handedOver) | waiting | reading | answering
  · rw [closed.notOpen] at opened
    exact nomatch opened
  · exact .inl handedOver
  · exact .inr fun h => nomatch h.symm.trans waiting.fields.2.1
  · exact .inr fun h => nomatch h.symm.trans reading.serving.fields.2.1
  · exact .inr fun h => nomatch h.symm.trans answering.serving.fields.2.1

theorem Invariant.open_of_reusable (inv : Invariant c) (reusable : c.reusable = true) :
    c.isOpen = true := by
  rcases inv with (closed | handedOver) | waiting | reading | answering
  · rw [closed.notReusable] at reusable
    exact nomatch reusable
  · exact handedOver.fields.1
  · exact waiting.fields.1
  · exact reading.serving.fields.1
  · exact answering.serving.fields.1

theorem step_preserves {event : Event} (inv : Invariant c) (undisturbed : ¬ Disturbs c event)
    (moved : step c event = some c') : Invariant c' := by
  have unselected (opened : c.isOpen = true)
      (h : ¬ (c.isOpen = true ∧ c.close = true ∧ c.writeHandler = .websocketRequest)) :
      c.close = false ∨ c.writeHandler ≠ .websocketRequest := by
    by_cases selected : c.close = true
    · exact .inr fun write => h ⟨opened, selected, write⟩
    · exact .inl (by simpa using selected)
  cases event with
  | readable io =>
    rw [step] at moved
    split at moved
    next opened => exact readHandler_preserves inv opened moved
    next => exact Option.some.inj moved ▸ inv
  | writable io =>
    rw [step] at moved
    split at moved
    next opened =>
      exact writeHandler_preserves inv opened (unselected opened undisturbed) moved
    next => exact Option.some.inj moved ▸ inv
  | readTimedOut io =>
    rw [step] at moved
    split at moved
    next opened =>
      have late : Invariant { c with readTimedout := true } := inv.transfer rfl rfl rfl rfl rfl
      exact readHandler_preserves late opened moved
    next => exact Option.some.inj moved ▸ inv
  | writeTimedOut io =>
    rw [step] at moved
    split at moved
    next opened =>
      have late : Invariant { c with writeTimedout := true } := inv.transfer rfl rfl rfl rfl rfl
      exact writeHandler_preserves late opened (unselected opened undisturbed) moved
    next => exact Option.some.inj moved ▸ inv
  | drained io =>
    rw [step] at moved
    split at moved
    next reusable =>
      have selected : Invariant { c with close := true } := inv.transfer rfl rfl rfl rfl rfl
      exact readHandler_preserves selected (inv.open_of_reusable reusable) moved
    next => exact Option.some.inj moved ▸ inv
  | polled message reply =>
    rw [step] at moved
    split at moved
    next linked =>
      cases moved
      rcases inv.data linked.1 with handedOver | other
      · exact .inl (messageHandler_handedOver message handedOver)
      · exact (other linked.2.1).elim
    next => exact Option.some.inj moved ▸ inv

structure Lifecycle (c : Connection) : Prop where
  settled : c.request.freed → c.isOpen = false ∨
    c.data = .websocket ∧ c.readHandler = .waitFrame ∧ c.writeHandler = .sendMessage
  clean : c.misused = false
  request : c.request.poolDestroyed ≤ 1
  pool : c.poolDestroyed ≤ 1

theorem Lifecycle.of_alive (alive : c.request.poolDestroyed = 0) (pool : c.poolDestroyed = 0)
    (clean : c.misused = false) : Lifecycle c where
  settled freed := by
    rw [Request.freed, alive] at freed
    exact (Nat.lt_irrefl 0 freed).elim
  clean := clean
  request := alive ▸ Nat.zero_le 1
  pool := pool ▸ Nat.zero_le 1

theorem Invariant.lifecycle (inv : Invariant c) : Lifecycle c := by
  rcases inv with (closed | handedOver) | waiting | reading | answering
  · exact ⟨fun _ => .inl closed.notOpen, closed.clean, closed.request, le_of_eq closed.pool⟩
  · obtain ⟨-, data, -, destroyed, pool, clean⟩ := handedOver.fields
    obtain ⟨read, write⟩ := Prod.mk.inj handedOver.handlers
    exact ⟨fun _ => .inr ⟨data, read, write⟩, clean, le_of_eq destroyed, pool ▸ Nat.zero_le 1⟩
  · obtain ⟨-, -, -, destroyed, pool, clean⟩ := waiting.fields
    exact .of_alive destroyed pool clean
  · obtain ⟨-, -, -, destroyed, pool, clean⟩ := reading.serving.fields
    exact .of_alive destroyed pool clean
  · obtain ⟨-, -, -, destroyed, pool, clean⟩ := answering.serving.fields
    exact .of_alive destroyed pool clean

/-- The selected connection's request is freed, and the connection stays as it is. -/
theorem selected_request_freed (serving : Serving c) (selected : c.close = true)
    (write : c.writeHandler = .websocketRequest) :
    ∃ c', runHandler true io c c.writeHandler = some c' ∧ ¬ Lifecycle c' := by
  refine ⟨httpFreeRequest c, ?_, ?_⟩
  · rw [write, runHandler, websocketRequestHandler, withRequest_serving serving, if_pos selected]
    rfl
  · obtain ⟨opened, data, -, -, -, -⟩ := serving.fields
    rw [freeRequest_eq serving]
    intro lifecycle
    rcases lifecycle.settled Nat.one_pos with closed | ⟨other, -⟩
    · exact nomatch opened.symm.trans closed
    · exact nomatch data.symm.trans other

theorem Invariant.answering (inv : Invariant c) (opened : c.isOpen = true)
    (write : c.writeHandler = .websocketRequest) : Serving c := by
  rcases inv with (closed | handedOver) | waiting | reading | answering
  · exact nomatch opened.symm.trans closed.notOpen
  · exact nomatch write.symm.trans (Prod.mk.inj handedOver.handlers).2
  · exact nomatch write.symm.trans (Prod.mk.inj waiting.handlers).2
  · exact nomatch write.symm.trans reading.write
  · exact answering.serving

theorem disturbed_step {event : Event} (inv : Invariant c) (disturbs : Disturbs c event) :
    ∃ c', step c event = some c' ∧ ¬ Lifecycle c' := by
  cases event with
  | writable io =>
    obtain ⟨opened, selected, write⟩ := disturbs
    rw [step, if_pos opened]
    exact selected_request_freed (inv.answering opened write) selected write
  | writeTimedOut io =>
    obtain ⟨opened, selected, write⟩ := disturbs
    have serving : Serving { c with writeTimedout := true } := inv.answering opened write
    rw [step, if_pos opened]
    exact selected_request_freed serving selected write
  | readable io => exact disturbs.elim
  | readTimedOut io => exact disturbs.elim
  | drained io => exact disturbs.elim
  | polled message reply => exact disturbs.elim

theorem lifecycle_guarded : Guarded step Lifecycle Invariant Disturbs where
  holds _ inv := inv.lifecycle
  preserves _ _ _ inv undisturbed moved := step_preserves inv undisturbed moved
  breaks _ _ inv disturbs := disturbed_step inv disturbs

/-- Every request that is freed is out of reach of the handlers, in every state of a run, if and
only if no write event reaches `ngx_websocket_request_handler` on a connection selected by
`ngx_drain_connections`. -/
theorem freed_request_unused_iff (memory ready posted : Bool) (io : Io) (c : Connection)
    (started : httpInitConnection memory ready posted io .fresh = some c) (events : List Event) :
    Throughout step Lifecycle c events ↔ Avoids step Disturbs c events :=
  lifecycle_guarded.throughout_iff (initConnection_invariant started)

def quiet : Io := ⟨true, .again, true, true, true, [], [], none, [⟨.again, true, .linked⟩], true⟩

def opened : Connection := reusableConnection true (awaitRequest .fresh)

def upgradeRequest (send : SendResult) : Io :=
  let nothingMore : ReadReply := ⟨true, .again, true⟩
  { quiet with
    recv := .data (ascii
      "GET / HTTP/1.1\r\nUpgrade: websocket\r\nSec-WebSocket-Key: dGhlIHNhbXBsZSBub25jZQ==\r\n\r\n")
    lines := [⟨nothingMore, 16, .ok, true⟩]
    headers := [⟨nothingMore, 20, .header false true true false⟩,
      ⟨nothingMore, 45, .header false true false true⟩, ⟨nothingMore, 2, .headerDone⟩]
    acceptKey := some (ascii "s3pPLMBiTxaQ9kYGzzhZRbK+xOo=")
    replies := [⟨send, true, .linked⟩] }

/-- A client that takes the answer at once and later gets a frame. -/
theorem freed_request_unused_upgrade :
    Throughout step Lifecycle opened [.readable (upgradeRequest (.sent 156)), .drained quiet,
      .polled [129, 2, 104, 105] ⟨.sent 4, true, .linked⟩] :=
  (freed_request_unused_iff true false false quiet opened rfl _).mpr
    ⟨id, fun _ _ => ⟨id, fun _ _ => ⟨id, fun _ _ => trivial⟩⟩⟩

/-- A client that takes ten bytes of the answer is selected by `ngx_drain_connections`; the next
write event frees its request, and the one after that uses it. -/
theorem drained_request_used_after_free :
    httpInitConnection true false false quiet .fresh = some opened ∧
      ¬ Throughout step Lifecycle opened
        [.readable (upgradeRequest (.sent 10)), .drained quiet, .writable quiet] ∧
      (run step opened [.readable (upgradeRequest (.sent 10)), .drained quiet, .writable quiet,
        .writable quiet]).map Connection.misused = some true := by
  refine ⟨rfl, ?_, by decide +kernel⟩
  have ran : (run step opened [.readable (upgradeRequest (.sent 10)), .drained quiet,
      .writable quiet]).map Connection.life = some ⟨true, .request, false, 1, 0, false⟩ := by
    decide +kernel
  obtain ⟨c, ran, life⟩ := Option.map_eq_some_iff.mp ran
  simp only [Connection.life, Life.mk.injEq] at life
  obtain ⟨stillOpen, data, -, destroyed, -, -⟩ := life
  intro throughout
  have lifecycle := throughout.run ran
  rcases lifecycle.settled (by rw [Request.freed, destroyed]; exact Nat.one_pos) with
    closed | ⟨other, -⟩
  · exact absurd (stillOpen.symm.trans closed) (by decide)
  · exact absurd (data.symm.trans other) (by decide)

end Ngx.Http
