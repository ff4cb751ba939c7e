import Ngx.HttpRequest

/-! What the handlers leave behind: which stage of its life a connection is in after each of
them, whatever the environment answers. -/
namespace Ngx.Http

structure Life where
  isOpen : Bool
  data : Data
  requestPool : Bool
  requestDestroyed : Nat
  poolDestroyed : Nat
  misused : Bool
  deriving DecidableEq

def Connection.life (c : Connection) : Life :=
  ⟨c.isOpen, c.data, c.request.pool, c.request.poolDestroyed, c.poolDestroyed, c.misused⟩

def Connection.handlers (c : Connection) : Handler × Handler := (c.readHandler, c.writeHandler)

structure Closed (c : Connection) : Prop where
  notOpen : c.isOpen = false
  notReusable : c.reusable = false
  pool : c.poolDestroyed = 1
  request : c.request.poolDestroyed ≤ 1
  clean : c.misused = false

structure Waiting (c : Connection) : Prop where
  life : c.life = ⟨true, .http, false, 0, 0, false⟩
  handlers : c.handlers = (.waitRequest, .empty)

/-- `c->data` is a request that has not been freed. -/
def Serving (c : Connection) : Prop := c.life = ⟨true, .request, true, 0, 0, false⟩

/-- The request is being read, or its reading goes on under a response that could not be sent. -/
structure Reading (c : Connection) : Prop where
  serving : Serving c
  read : c.readHandler = .processRequestLine ∨ c.readHandler = .processRequestHeaders
  write : c.writeHandler = .empty

structure Answering (c : Connection) : Prop where
  serving : Serving c
  handlers : c.handlers = (.empty, .websocketRequest)
  pending : c.pending ≠ []

structure HandedOver (c : Connection) : Prop where
  life : c.life = ⟨true, .websocket, false, 1, 0, false⟩
  record : c.websocket.poolDestroyed = 0
  handlers : c.handlers = (.waitFrame, .sendMessage)

def Settled (c : Connection) : Prop := Closed c ∨ HandedOver c

def Answers (c c' : Connection) : Prop :=
  Settled c' ∨ Serving c' ∧ c'.pending ≠ [] ∧ c'.handlers = c.handlers

def Invariant (c : Connection) : Prop :=
  Settled c ∨ Waiting c ∨ Reading c ∨ Answering c

variable {c c' : Connection} {rc : Int} {io : Io} {reply : Reply} {replies : List Reply}

theorem closeConnection_closed (opened : c.isOpen = true) (pool : c.poolDestroyed = 0)
    (request : c.request.poolDestroyed ≤ 1) (clean : c.misused = false) :
    Closed (httpCloseConnection c) := by
  have closed : closeConnection c =
      { c with reusable := false, data := .freeList, isOpen := false } := if_pos opened
  refine ⟨?_, ?_, ?_, ?_, ?_⟩
  all_goals simp [httpCloseConnection, closed, pool, request, clean]

theorem Serving.fields (serving : Serving c) : c.isOpen = true ∧ c.data = .request ∧
    c.request.pool = true ∧ c.request.poolDestroyed = 0 ∧ c.poolDestroyed = 0 ∧
    c.misused = false := by
  simpa [Serving, Connection.life] using serving

theorem freeRequest_eq (serving : Serving c) : httpFreeRequest c =
    { c with request := { c.request with pool := false, poolDestroyed := 1 } } := by
  obtain ⟨-, -, pool, destroyed, -, -⟩ := serving.fields
  simp [httpFreeRequest, pool, destroyed]

theorem closeRequest_closed (serving : Serving c) (failed : rc ≠ ngxOk := by decide) :
    Closed (httpCloseRequest rc c) := by
  obtain ⟨opened, -, -, -, pool, clean⟩ := serving.fields
  rw [httpCloseRequest, if_neg failed, freeRequest_eq serving]
  exact closeConnection_closed opened pool (le_refl 1) clean

theorem finish_settled (init : WebsocketInit) (serving : Serving c) :
    Settled (finish init c) := by
  obtain ⟨opened, -, -, -, pool, clean⟩ := serving.fields
  by_cases succeeded : c.request.code = ngxOk
  · rw [finish, if_pos succeeded, succeeded, httpCloseRequest, if_pos rfl, freeRequest_eq serving]
    cases init with
    | noMemory => exact .inl (closeConnection_closed opened pool (le_refl 1) clean)
    | noQueue => exact .inl (closeConnection_closed opened pool (le_refl 1) clean)
    | linked =>
      refine .inr ⟨?_, rfl, rfl⟩
      simp [Connection.life, websocketInitConnection, opened, pool, clean]
  · rw [finish, if_neg succeeded]
    exact .inl (closeRequest_closed serving succeeded)

theorem Answers.transfer {d : Connection} (answers : Answers d c') (same : d.handlers = c.handlers) :
    Answers c c' := by
  rcases answers with settled | ⟨serving, pending, handlers⟩
  · exact .inl settled
  · exact .inr ⟨serving, pending, handlers.trans same⟩

theorem pending_advance {n : Nat} (incomplete : ¬ c.pending.length ≤ n) :
    (c.advance n).pending ≠ [] := by
  intro nothing
  apply incomplete
  cases buffer : c.buffer with
  | none => simp [Connection.pending, buffer]
  | some b =>
    simp only [Connection.pending, Connection.advance, Buf.pending, buffer, Option.map_some,
      Option.getD_some, List.drop_eq_nil_iff, List.length_drop] at nothing ⊢
    omega

/-- What one call of the writer does to a request with bytes to send. -/
theorem writerCall_serving (reply : Reply) (serving : Serving c) (pending : c.pending ≠ []) :
    match writerCall reply c with
    | .returned c' => Answers c c'
    | .finalize rc c' => rc ≠ ngxOk ∧ Serving c' ∧ c'.handlers = c.handlers := by
  have something : c.pending.length ≠ 0 := fun h => pending (List.length_eq_zero_iff.mp h)
  by_cases late : c.writeTimedout = true
  · rw [writerCall, if_pos late]
    exact ⟨by decide, serving, rfl⟩
  rw [writerCall, if_neg late, if_neg something]
  cases reply.send with
  | again =>
    by_cases armed : reply.writeEvent = true
    · simp only [if_pos armed]
      exact .inr ⟨serving, pending, rfl⟩
    · simp only [if_neg armed]
      exact ⟨by decide, serving, rfl⟩
  | error => exact ⟨by decide, serving, rfl⟩
  | sent n =>
    by_cases closed : n = 0
    · simp only [if_pos closed]
      exact ⟨by decide, serving, trivial⟩
    by_cases complete : c.pending.length ≤ n
    · simp only [if_neg closed, if_pos complete]
      exact .inl (finish_settled reply.init serving)
    by_cases armed : reply.writeEvent = true
    · simp only [if_neg closed, if_neg complete, if_pos armed]
      exact .inr ⟨serving, pending_advance complete, rfl⟩
    · simp only [if_neg closed, if_neg complete, if_neg armed]
      exact ⟨by decide, serving, rfl⟩

theorem finalizeWith_serving {writer : Connection → Option Connection} (serving : Serving c)
    (failed : rc ≠ ngxOk)
    (answers : ∀ d, Serving d → d.pending ≠ [] → writer d = some c' → Answers d c')
    (finalized : finalizeWith writer rc c = some c') : Answers c c' := by
  unfold finalizeWith at finalized
  rw [if_neg failed] at finalized
  split_ifs at finalized with ends special
  · cases finalized
    exact .inl (.inl (closeRequest_closed serving))
  · exact (answers (forbid c) serving forbidden_ne_nil finalized).transfer rfl
  · cases finalized
    exact .inl (.inl (closeRequest_closed serving))

theorem writer_serving : ∀ {c : Connection}, Serving c → c.pending ≠ [] →
    websocketWriter replies c = some c' → Answers c c' := by
  induction replies with
  | nil =>
    intro c _ _ written
    cases written
  | cons reply replies ih =>
    intro c serving pending written
    have call := writerCall_serving reply serving pending
    rw [websocketWriter] at written
    cases outcome : writerCall reply c with
    | returned d =>
      rw [outcome] at call written
      cases written
      exact call
    | finalize rc d =>
      rw [outcome] at call written
      obtain ⟨failed, alive, handlers⟩ := call
      exact (finalizeWith_serving alive failed (fun _ => ih) written).transfer handlers

theorem finalize_serving (serving : Serving c)
    (finalized : finalizeRequest rc replies c = some c') (failed : rc ≠ ngxOk := by decide) :
    Answers c c' :=
  finalizeWith_serving serving failed (fun _ => writer_serving) finalized

theorem Reading.transfer (reading : Reading c) (serving : Serving c')
    (same : c'.handlers = c.handlers) : Reading c' := by
  obtain ⟨read, write⟩ := Prod.mk.inj same
  exact ⟨serving, read ▸ reading.read, write.trans reading.write⟩

theorem Reading.of_answers (reading : Reading c) (answers : Answers c c') : Invariant c' := by
  rcases answers with settled | ⟨serving, -, handlers⟩
  · exact .inl settled
  · exact .inr (.inr (.inl (reading.transfer serving handlers)))

def ReadKeeps (c : Connection) : ReadOutcome → Prop
  | .bytes c' => Serving c' ∧ c'.handlers = c.handlers
  | .returned c' => Closed c' ∨ c' = c

theorem readRequestHeader_serving (reading : ReadReply) (serving : Serving c) :
    ReadKeeps c (httpReadRequestHeader reading c) := by
  by_cases something : c.pending ≠ []
  · rw [httpReadRequestHeader, if_pos something]
    exact ⟨serving, rfl⟩
  rw [httpReadRequestHeader, if_neg something]
  cases (if reading.ready then reading.recv else .again : RecvResult) with
  | again =>
    by_cases armed : reading.readEvent = true
    · simp only [if_pos armed]
      exact .inr rfl
    · simp only [if_neg armed]
      exact .inl (closeRequest_closed serving)
  | error =>
    have marked : Serving { c with error := true } := serving
    exact .inl (closeRequest_closed marked)
  | data bytes =>
    by_cases nothing : bytes.take (room c) = []
    · have marked : Serving { c with error := true } := serving
      simp only [if_pos nothing]
      exact .inl (closeRequest_closed marked)
    · simp only [if_neg nothing]
      exact ⟨serving, rfl⟩

/-- From here on the read handler does nothing and the write handler sends the response. -/
theorem websocketHandler_serving (serving : Serving c)
    (handlers : c.handlers = (.empty, .websocketRequest))
    (handled : websocketHandler io c = some c') : Invariant c' := by
  have answered : Answers c c' := by
    unfold websocketHandler at handled
    split at handled
    · exact finalize_serving serving handled
    · split at handled
      · exact finalize_serving serving handled
      next key _ =>
        have answer : switchingProtocols key ≠ [] := by simp [switchingProtocols, ascii]
        exact (writer_serving (c := respond (switchingProtocols key) c) serving answer
          handled).transfer rfl
  rcases answered with settled | ⟨alive, pending, same⟩
  · exact .inl settled
  · exact .inr (.inr (.inr ⟨alive, same.trans handlers, pending⟩))

/-- A read that ended the handler has closed the connection or left it as it was. -/
theorem Reading.returned (reading : Reading c) {d : Connection}
    (spec : ReadKeeps c (.returned d)) : Invariant d := by
  rcases spec with closed | rfl
  · exact .inl (.inl closed)
  · exact .inr (.inr (.inl reading))

theorem processRequest_serving (serving : Serving c)
    (processed : httpProcessRequest io c = some c') : Invariant c' := by
  have alive : Serving (setWriteHandler .websocketRequest (setReadHandler .empty c)) := serving
  exact websocketHandler_serving alive rfl processed

theorem headersLoop_reading : ∀ {turns : List HeaderTurn} {again : Bool} {c : Connection},
    Reading c → headersLoop io turns again c = some c' → Invariant c'
  | [], _, _, _, looped => nomatch looped
  | turn :: turns, again, c, reading, looped => by
    rw [headersLoop] at looped
    split at looped
    · exact reading.of_answers (finalize_serving reading.serving looped)
    have spec : ReadKeeps c (if again then httpReadRequestHeader turn.reading c else .bytes c) := by
      split
      · exact readRequestHeader_serving turn.reading reading.serving
      · exact ⟨reading.serving, rfl⟩
    cases outcome : (if again then httpReadRequestHeader turn.reading c else .bytes c) with
    | returned d =>
      rw [outcome] at looped spec
      cases looped
      exact reading.returned spec
    | bytes d =>
      rw [outcome] at looped spec
      obtain ⟨serving, same⟩ := spec
      have next : Reading (parsed turn.consumed d) := reading.transfer serving same
      cases result : turn.result with
      | header invalid stored upgrade key =>
        simp only [result] at looped
        split_ifs at looped with skipped memory
        · exact headersLoop_reading next looped
        · have noted : Reading (recognized upgrade key (parsed turn.consumed d)) :=
            reading.transfer serving same
          exact headersLoop_reading noted looped
        · cases looped
          exact .inl (.inl (closeRequest_closed next.serving))
      | headerDone =>
        simp only [result] at looped
        exact processRequest_serving next.serving looped
      | again =>
        simp only [result] at looped
        exact headersLoop_reading next looped
      | invalid =>
        simp only [result] at looped
        exact next.of_answers (finalize_serving next.serving looped)

theorem withRequest_serving {handler : Connection → Option Connection} (serving : Serving c) :
    withRequest handler c = handler c := by
  obtain ⟨-, data, -, destroyed, -, -⟩ := serving.fields
  rw [withRequest, if_pos]
  exact ⟨data, by simp [Request.freed, destroyed]⟩

theorem processRequestHeaders_reading (reading : Reading c)
    (processed : httpProcessRequestHeaders io c = some c') : Invariant c' := by
  rw [httpProcessRequestHeaders, withRequest_serving reading.serving] at processed
  split_ifs at processed
  · cases processed
    have marked : Serving { c with timedout := true } := reading.serving
    exact .inl (.inl (closeRequest_closed marked))
  · exact headersLoop_reading reading processed

theorem requestLineLoop_reading : ∀ {turns : List LineTurn} {c : Connection},
    Reading c → requestLineLoop io turns c = some c' → Invariant c'
  | [], _, _, looped => nomatch looped
  | turn :: turns, c, reading, looped => by
    rw [requestLineLoop] at looped
    have spec := readRequestHeader_serving turn.reading reading.serving
    cases outcome : httpReadRequestHeader turn.reading c with
    | returned d =>
      rw [outcome] at looped spec
      cases looped
      exact reading.returned spec
    | bytes d =>
      rw [outcome] at looped spec
      obtain ⟨serving, same⟩ := spec
      have next : Reading (parsed turn.consumed d) := reading.transfer serving same
      cases result : turn.result with
      | ok =>
        simp only [result] at looped
        split_ifs at looped
        · have headers : Reading (setReadHandler .processRequestHeaders
              (parsed turn.consumed d)) := ⟨serving, .inr rfl, next.write⟩
          exact processRequestHeaders_reading headers looped
        · cases looped
          exact .inl (.inl (closeRequest_closed next.serving))
      | invalidVersion =>
        simp only [result] at looped
        exact next.of_answers (finalize_serving next.serving looped)
      | invalid =>
        simp only [result] at looped
        exact next.of_answers (finalize_serving next.serving looped)
      | again =>
        simp only [result] at looped
        split_ifs at looped
        · cases looped
          exact .inl (.inl (closeRequest_closed next.serving))
        · exact requestLineLoop_reading next looped

theorem processRequestLine_reading (reading : Reading c)
    (processed : httpProcessRequestLine io c = some c') : Invariant c' := by
  rw [httpProcessRequestLine, withRequest_serving reading.serving] at processed
  split_ifs at processed
  · cases processed
    have marked : Serving { c with timedout := true } := reading.serving
    exact .inl (.inl (closeRequest_closed marked))
  · exact requestLineLoop_reading reading processed

theorem Waiting.fields (waiting : Waiting c) : c.isOpen = true ∧ c.data = .http ∧
    c.request.pool = false ∧ c.request.poolDestroyed = 0 ∧ c.poolDestroyed = 0 ∧
    c.misused = false := by
  simpa [Connection.life] using waiting.life

theorem Waiting.close_closed (waiting : Waiting c) : Closed (httpCloseConnection c) := by
  obtain ⟨opened, -, -, destroyed, pool, clean⟩ := waiting.fields
  exact closeConnection_closed opened pool (destroyed ▸ Nat.zero_le 1) clean

theorem receiveRequest_waiting (waiting : Waiting c) (handled : receiveRequest io c = some c') :
    Invariant c' := by
  obtain ⟨opened, -, -, destroyed, pool, clean⟩ := waiting.fields
  have reusable : Waiting (reusableConnection true c) := ⟨waiting.life, waiting.handlers⟩
  rw [receiveRequest] at handled
  cases result : io.recv with
  | again =>
    simp only [result] at handled
    split_ifs at handled
    · cases handled
      exact .inr (.inl ⟨waiting.life, waiting.handlers⟩)
    · cases handled
      exact .inr (.inl reusable)
    · cases handled
      exact .inl (.inl reusable.close_closed)
  | error =>
    simp only [result] at handled
    cases handled
    exact .inl (.inl waiting.close_closed)
  | data bytes =>
    simp only [result] at handled
    split_ifs at handled
    · cases handled
      exact .inl (.inl waiting.close_closed)
    · apply processRequestLine_reading ?_ handled
      refine ⟨?_, .inl rfl, (Prod.mk.inj waiting.handlers).2⟩
      simp [Serving, Connection.life, httpCreateRequest, received, reusableConnection,
        setReadHandler, opened, pool, clean]
    · cases handled
      exact .inl (.inl (closeConnection_closed opened pool (destroyed ▸ Nat.zero_le 1) clean))

theorem waitRequestHandler_waiting (waiting : Waiting c)
    (handled : httpWaitRequestHandler io c = some c') : Invariant c' := by
  rw [httpWaitRequestHandler] at handled
  split at handled
  · cases handled
    exact .inl (.inl waiting.close_closed)
  · split at handled
    · exact receiveRequest_waiting waiting handled
    · split at handled
      · have allocated : Waiting { c with buffer := some ⟨[], 0⟩ } :=
          ⟨waiting.life, waiting.handlers⟩
        exact receiveRequest_waiting allocated handled
      · cases handled
        exact .inl (.inl waiting.close_closed)

theorem initConnection_invariant {memory ready posted : Bool}
    (started : httpInitConnection memory ready posted io .fresh = some c) : Invariant c := by
  have waiting : Waiting (awaitRequest .fresh) := ⟨rfl, rfl⟩
  have reusable : Waiting (reusableConnection true (awaitRequest .fresh)) := ⟨rfl, rfl⟩
  rw [httpInitConnection] at started
  split at started
  · cases started
    exact .inl (.inl (closeConnection_closed rfl rfl (Nat.zero_le 1) rfl))
  split at started
  · split at started
    · cases started
      exact .inr (.inl waiting)
    · exact waitRequestHandler_waiting waiting started
  · split at started
    · cases started
      exact .inr (.inl reusable)
    · cases started
      exact .inl (.inl reusable.close_closed)

theorem HandedOver.fields (handedOver : HandedOver c) : c.isOpen = true ∧ c.data = .websocket ∧
    c.request.pool = false ∧ c.request.poolDestroyed = 1 ∧ c.poolDestroyed = 0 ∧
    c.misused = false := by
  simpa [Connection.life] using handedOver.life

theorem HandedOver.close_closed (handedOver : HandedOver c) :
    Closed (websocketCloseConnection c).1 := by
  obtain ⟨opened, -, -, destroyed, pool, clean⟩ := handedOver.fields
  exact closeConnection_closed opened pool (le_of_eq destroyed) clean

theorem HandedOver.setInQueue (handedOver : HandedOver c) (linked : Bool) :
    HandedOver (setInQueue linked c) :=
  ⟨handedOver.life, handedOver.record, handedOver.handlers⟩

/-- The fields the handlers of the websocket layer write are not about who owns what. -/
theorem HandedOver.transfer {d : Connection} (handedOver : HandedOver c) (life : d.life = c.life)
    (record : d.websocket = c.websocket) (handlers : d.handlers = c.handlers) : HandedOver d :=
  ⟨life.trans handedOver.life, record ▸ handedOver.record, handlers.trans handedOver.handlers⟩

theorem messageHandler_handedOver (message : List UInt8) (handedOver : HandedOver c) :
    Settled (websocketMessageHandler message reply c).1 := by
  have reusable : HandedOver (reusableConnection true c) := handedOver.transfer rfl rfl rfl
  unfold websocketMessageHandler
  split
  · have late : HandedOver { c with timedout := true } := handedOver.transfer rfl rfl rfl
    exact .inl late.close_closed
  split
  · exact .inr handedOver
  split
  · split
    · exact .inr (reusable.setInQueue false)
    · exact .inl reusable.close_closed
  · exact .inl handedOver.close_closed
  next n _ =>
    have sent : HandedOver { c with accepted := c.accepted ++ message.take n } :=
      handedOver.transfer rfl rfl rfl
    dsimp only
    split_ifs
    · exact .inl handedOver.close_closed
    · exact .inr (sent.setInQueue false)
    · exact .inl sent.close_closed
    · exact .inr sent

theorem sendMessageHandler_handedOver (found : Bool) (handedOver : HandedOver c) :
    Settled (websocketSendMessageHandler reply found c).1 := by
  have reusable : HandedOver (reusableConnection true c) := handedOver.transfer rfl rfl rfl
  unfold websocketSendMessageHandler
  dsimp only
  split
  · have late : HandedOver { c with timedout := true } := handedOver.transfer rfl rfl rfl
    exact .inl late.close_closed
  split
  · exact .inr handedOver
  split
  · split
    · exact .inr reusable
    · exact .inl reusable.close_closed
  · exact .inl handedOver.close_closed
  next n _ =>
    have sent : HandedOver { c with accepted :=
        c.accepted ++ (c.websocket.buffer.take c.websocket.messageSize).take n } :=
      handedOver.transfer rfl rfl rfl
    split_ifs
    · exact .inl handedOver.close_closed
    · exact .inl sent.close_closed
    · exact .inr (sent.setInQueue true)
    · exact .inl sent.close_closed

end Ngx.Http
