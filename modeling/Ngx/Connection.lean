import Mathlib.Data.List.Basic

/-! An accepted connection as its handlers see it: which object `c->data` points to, the two
event handlers, the flags, and the pools that were destroyed. Memory that was released stays in
the model; a handler that uses it is recorded in `misused`. -/
namespace Ngx.Http

abbrev ngxOk : Int := 0
abbrev ngxError : Int := -1
abbrev ngxDone : Int := -4

abbrev httpSpecialResponse : Int := 300
abbrev httpBadRequest : Int := 400
abbrev httpRequestTimeOut : Int := 408
abbrev httpClientClosedRequest : Int := 499
abbrev httpInternalServerError : Int := 500
abbrev httpVersionNotSupported : Int := 505

/-- What `c->send` returned: `NGX_AGAIN`, `NGX_ERROR`, or the number of bytes accepted. -/
inductive SendResult where
  | again
  | error
  | sent (n : Nat)
  deriving DecidableEq, Repr

/-- What `c->recv` finds: `NGX_AGAIN`, `NGX_ERROR`, or the bytes that have arrived, none after
the client closed the connection. -/
inductive RecvResult where
  | again
  | error
  | data (bytes : List UInt8)
  deriving DecidableEq, Repr

/-- How far `ngx_websocket_init_connection` comes: no memory for the new connection record, no
channel queue, or a record linked into its queue. -/
inductive WebsocketInit where
  | noMemory
  | noQueue
  | linked
  deriving DecidableEq, Repr

/-- What the environment answers to one call of a sending function: the result of `c->send`,
whether `ngx_handle_write_event` returns `NGX_OK`, and the fate of the websocket record where
one is created. -/
structure Reply where
  send : SendResult
  writeEvent : Bool
  init : WebsocketInit
  deriving DecidableEq, Repr

inductive Handler where
  | none
  | waitRequest
  | processRequestLine
  | processRequestHeaders
  | empty
  | websocketRequest
  | waitFrame
  | sendMessage
  deriving DecidableEq, Repr

inductive Data where
  | null
  | http
  | request
  | websocket
  | freeList
  deriving DecidableEq, Repr

/-- `ngx_buf_t`: the bytes from `start` to `last`, and `pos` as an offset from `start`. -/
structure Buf where
  content : List UInt8
  pos : Nat
  deriving DecidableEq, Repr

def Buf.pending (b : Buf) : List UInt8 := b.content.drop b.pos

/-- `ngx_http_request_t`. Its `header_in` and `buffer` are both the connection's buffer;
`pool` says whether `r->pool` is set. -/
structure Request where
  pool : Bool
  poolDestroyed : Nat
  error : Bool
  upgrade : Bool
  secWebsocketKey : Bool
  deriving DecidableEq, Repr

structure Websocket where
  poolDestroyed : Nat
  buffer : List UInt8
  messageSize : Nat
  inQueue : Bool
  deriving DecidableEq, Repr

/-- `ngx_connection_t`. `isOpen` says that `fd` is not -1, `buffer` is empty while it has no
memory, and `accepted` collects the bytes the socket has taken. -/
structure Connection where
  data : Data
  readHandler : Handler
  writeHandler : Handler
  isOpen : Bool
  close : Bool
  error : Bool
  timedout : Bool
  reusable : Bool
  readTimedout : Bool
  writeTimedout : Bool
  buffer : Option Buf
  poolDestroyed : Nat
  request : Request
  websocket : Websocket
  misused : Bool
  accepted : List UInt8
  deriving DecidableEq, Repr

def Connection.fresh : Connection where
  data := .null
  readHandler := .none
  writeHandler := .none
  isOpen := true
  close := false
  error := false
  timedout := false
  reusable := false
  readTimedout := false
  writeTimedout := false
  buffer := none
  poolDestroyed := 0
  request := ⟨false, 0, false, false, false⟩
  websocket := ⟨0, [], 0, false⟩
  misused := false
  accepted := []

def Connection.pending (c : Connection) : List UInt8 := (c.buffer.map Buf.pending).getD []

def Connection.advance (c : Connection) (n : Nat) : Connection :=
  { c with
    buffer := c.buffer.map fun b => { b with pos := b.pos + n }
    accepted := c.accepted ++ c.pending.take n }

/-- `ngx_reusable_connection`, without the queue of reusable connections. -/
def reusableConnection (reusable : Bool) (c : Connection) : Connection := { c with reusable }

/-- `ngx_close_connection` with `ngx_free_connection`. -/
def closeConnection (c : Connection) : Connection :=
  if c.isOpen then { reusableConnection false c with data := .freeList, isOpen := false } else c

/-- `ngx_http_close_connection`. The pool is destroyed whether or not `fd` was still set. -/
def httpCloseConnection (c : Connection) : Connection :=
  let closed := closeConnection c
  { closed with poolDestroyed := closed.poolDestroyed + 1 }

def httpFreeRequest (c : Connection) : Connection :=
  if c.request.pool then
    { c with request :=
        { c.request with pool := false, poolDestroyed := c.request.poolDestroyed + 1 } }
  else c

/-- `ngx_http_close_request`; its two branches for other codes than `NGX_OK` are the same. -/
def httpCloseRequest (rc : Int) (c : Connection) : Connection :=
  if rc = ngxOk then httpFreeRequest c else httpCloseConnection (httpFreeRequest c)

def Request.freed (r : Request) : Prop := 0 < r.poolDestroyed

instance (r : Request) : Decidable r.freed := inferInstanceAs (Decidable (0 < r.poolDestroyed))

/-- A handler takes its request from `c->data`. Nothing is said about the program after a use
of freed memory, or of another object as a request: the use is recorded and the handler ends. -/
def withRequest (handler : Connection → Option Connection) (c : Connection) :
    Option Connection :=
  if c.data = .request ∧ ¬ c.request.freed then handler c else some { c with misused := true }

def withWebsocket (handler : Connection → Connection) (c : Connection) : Connection :=
  if c.data = .websocket ∧ c.websocket.poolDestroyed = 0 then handler c
  else { c with misused := true }

end Ngx.Http
