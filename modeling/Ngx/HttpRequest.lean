import Ngx.HttpResponse

/-! Reading a request. What the two parsers find in the buffer is part of the environment here,
one turn of a reading loop after the other, and so is the accept key; there is no result while
the turns are too few for the handler to return. -/
namespace Ngx.Http

def clientHeaderBufferSize : Nat := 2048

/-- The environment of one call of `ngx_http_read_request_header`: `rev->ready`, what `c->recv`
finds, and whether `ngx_handle_read_event` returns `NGX_OK`. -/
structure ReadReply where
  ready : Bool
  recv : RecvResult
  readEvent : Bool
  deriving DecidableEq, Repr

inductive LineResult where
  | ok
  | again
  | invalidVersion
  | invalid
  deriving DecidableEq, Repr

/-- A turn of the loop over the request line: the bytes the parser took, its result, and whether
the list of headers could be created. -/
structure LineTurn where
  reading : ReadReply
  consumed : Nat
  result : LineResult
  listInit : Bool
  deriving DecidableEq, Repr

/-- The result of `ngx_http_parse_header_line`. For a header: whether it is marked invalid,
whether the memory for it was there, and whether it was taken for the upgrade header or the key. -/
inductive HeaderResult where
  | header (invalid stored upgrade key : Bool)
  | headerDone
  | again
  | invalid
  deriving DecidableEq, Repr

structure HeaderTurn where
  reading : ReadReply
  consumed : Nat
  result : HeaderResult
  deriving DecidableEq, Repr

/-- The environment of one run of a handler: whether memory for the header buffer can be
had, the first `c->recv`, whether `ngx_handle_read_event` returns `NGX_OK` and `ngx_pfree` finds
the buffer, whether the request can be created, the turns of the two loops, the accept key if
there is memory for it, the replies to the writer, and whether the channel has a queue. -/
structure Io where
  bufferMemory : Bool
  recv : RecvResult
  readEvent : Bool
  bufferFreed : Bool
  requestMemory : Bool
  lines : List LineTurn
  headers : List HeaderTurn
  acceptKey : Option (List UInt8)
  replies : List Reply
  channelFound : Bool
  deriving DecidableEq, Repr

def received (bytes : List UInt8) (c : Connection) : Connection :=
  { c with buffer := c.buffer.map fun b => { b with content := b.content ++ bytes } }

def room (c : Connection) : Nat :=
  clientHeaderBufferSize - (c.buffer.map fun b => b.content.length).getD 0

def parsed (n : Nat) (c : Connection) : Connection :=
  { c with buffer := c.buffer.map fun b => { b with pos := min (b.pos + n) b.content.length } }

def bufferUsed (c : Connection) : Bool := c.buffer.map Buf.pos == some clientHeaderBufferSize

def setReadHandler (handler : Handler) (c : Connection) : Connection :=
  { c with readHandler := handler }

def setWriteHandler (handler : Handler) (c : Connection) : Connection :=
  { c with writeHandler := handler }

def websocketHandler (io : Io) (c : Connection) : Option Connection :=
  if ¬ c.request.upgrade ∨ ¬ c.request.secWebsocketKey then
    finalizeRequest httpBadRequest io.replies c
  else match io.acceptKey with
    | none => finalizeRequest httpInternalServerError io.replies c
    | some key => websocketWriter io.replies (respond (switchingProtocols key) c)

def httpProcessRequest (io : Io) (c : Connection) : Option Connection :=
  websocketHandler io (setWriteHandler .websocketRequest (setReadHandler .empty c))

def recognized (upgrade key : Bool) (c : Connection) : Connection :=
  { c with request :=
      { c.request with
        upgrade := c.request.upgrade || upgrade
        secWebsocketKey := c.request.secWebsocketKey || key } }

/-- What `ngx_http_read_request_header` leaves its caller with: bytes to parse, or a reason to
return. -/
inductive ReadOutcome where
  | bytes (c : Connection)
  | returned (c : Connection)

def httpReadRequestHeader (reading : ReadReply) (c : Connection) : ReadOutcome :=
  if c.pending ≠ [] then .bytes c
  else match (if reading.ready then reading.recv else .again) with
    | .again =>
      if reading.readEvent then .returned c
      else .returned (httpCloseRequest httpInternalServerError c)
    | .error => .returned (httpCloseRequest httpBadRequest { c with error := true })
    | .data bytes =>
      if bytes.take (room c) = [] then
        .returned (httpCloseRequest httpBadRequest { c with error := true })
      else .bytes (received (bytes.take (room c)) c)

/-- The loop of `ngx_http_process_request_headers`; `again` is `rc == NGX_AGAIN`. -/
def headersLoop (io : Io) : List HeaderTurn → Bool → Connection → Option Connection
  | [], _, _ => none
  | turn :: turns, again, c =>
    if again && bufferUsed c then finalizeRequest httpInternalServerError io.replies c
    else match (if again then httpReadRequestHeader turn.reading c else .bytes c) with
      | .returned c => some c
      | .bytes c =>
        match turn.result with
        | .header invalid stored upgrade key =>
          if invalid then headersLoop io turns false (parsed turn.consumed c)
          else if stored then
            headersLoop io turns false (recognized upgrade key (parsed turn.consumed c))
          else some (httpCloseRequest httpInternalServerError (parsed turn.consumed c))
        | .headerDone => httpProcessRequest io (parsed turn.consumed c)
        | .again => headersLoop io turns true (parsed turn.consumed c)
        | .invalid => finalizeRequest httpBadRequest io.replies (parsed turn.consumed c)

def httpProcessRequestHeaders (io : Io) : Connection → Option Connection :=
  withRequest fun c =>
    if c.readTimedout then some (httpCloseRequest httpRequestTimeOut { c with timedout := true })
    else headersLoop io io.headers true c

/-- The loop of `ngx_http_process_request_line`, which goes on only after `NGX_AGAIN`. -/
def requestLineLoop (io : Io) : List LineTurn → Connection → Option Connection
  | [], _ => none
  | turn :: turns, c =>
    match httpReadRequestHeader turn.reading c with
    | .returned c => some c
    | .bytes c =>
      match turn.result with
      | .ok =>
        if turn.listInit then
          httpProcessRequestHeaders io
            (setReadHandler .processRequestHeaders (parsed turn.consumed c))
        else some (httpCloseRequest httpInternalServerError (parsed turn.consumed c))
      | .invalidVersion =>
        finalizeRequest httpVersionNotSupported io.replies (parsed turn.consumed c)
      | .invalid => finalizeRequest httpBadRequest io.replies (parsed turn.consumed c)
      | .again =>
        if bufferUsed (parsed turn.consumed c) then
          some (httpCloseRequest httpInternalServerError (parsed turn.consumed c))
        else requestLineLoop io turns (parsed turn.consumed c)

def httpProcessRequestLine (io : Io) : Connection → Option Connection :=
  withRequest fun c =>
    if c.readTimedout then some (httpCloseRequest httpRequestTimeOut { c with timedout := true })
    else requestLineLoop io io.lines c

def httpCreateRequest (c : Connection) : Connection :=
  { c with data := .request, request := ⟨true, 0, false, false, false⟩ }

/-- The part of `ngx_http_wait_request_handler` after its header buffer is there. -/
def receiveRequest (io : Io) (c : Connection) : Option Connection :=
  match io.recv with
  | .again =>
    if ¬ io.readEvent then some (httpCloseConnection (reusableConnection true c))
    else if io.bufferFreed then some { reusableConnection true c with buffer := none }
    else some (reusableConnection true c)
  | .error => some (httpCloseConnection c)
  | .data bytes =>
    if bytes.take clientHeaderBufferSize = [] then some (httpCloseConnection c)
    else
      let received := reusableConnection false (received (bytes.take clientHeaderBufferSize) c)
      if io.requestMemory then
        httpProcessRequestLine io
          (setReadHandler .processRequestLine (httpCreateRequest received))
      else some (httpCloseConnection { received with data := .null })

def httpWaitRequestHandler (io : Io) (c : Connection) : Option Connection :=
  if c.readTimedout ∨ c.close then some (httpCloseConnection c)
  else match c.buffer with
    | some _ => receiveRequest io c
    | none =>
      if io.bufferMemory then receiveRequest io { c with buffer := some ⟨[], 0⟩ }
      else some (httpCloseConnection c)

/-- The connection with its `ngx_http_connection_t` and its first handlers. -/
def awaitRequest (c : Connection) : Connection :=
  { c with data := .http, readHandler := .waitRequest, writeHandler := .empty }

/-- `ngx_http_init_connection`: `memory` for its record, and where the read event is ready,
whether it is posted for later. -/
def httpInitConnection (memory ready posted : Bool) (io : Io) (c : Connection) :
    Option Connection :=
  if ¬ memory then some (httpCloseConnection c)
  else if ready then
    if posted then some (awaitRequest c) else httpWaitRequestHandler io (awaitRequest c)
  else if io.readEvent then some (reusableConnection true (awaitRequest c))
  else some (httpCloseConnection (reusableConnection true (awaitRequest c)))

end Ngx.Http
