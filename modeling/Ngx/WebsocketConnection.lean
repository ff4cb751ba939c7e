import Ngx.Connection
import Ngx.WebsocketFrame

/-! A connection in the websocket layer. The handlers also say what they do to the queue of the
connection's channel, which is kept elsewhere. -/
namespace Ngx.Http

inductive QueueOp where
  | keep
  | remove
  | insertTail
  deriving DecidableEq, Repr

def Websocket.fresh : Websocket := ⟨0, List.replicate websocketMaxMessageLength 0, 0, false⟩

/-- `ngx_websocket_init_connection`. Where no queue can be had, the record's pool is left. -/
def websocketInitConnection (init : WebsocketInit) (c : Connection) : Connection :=
  match init with
  | .noMemory => httpCloseConnection c
  | .noQueue => httpCloseConnection { c with data := .websocket, websocket := .fresh }
  | .linked =>
    { c with
      data := .websocket
      websocket := { Websocket.fresh with inQueue := true }
      readHandler := .waitFrame
      writeHandler := .sendMessage }

def websocketCloseConnection (c : Connection) : Connection × QueueOp :=
  (httpCloseConnection { c with websocket :=
      { c.websocket with poolDestroyed := c.websocket.poolDestroyed + 1 } },
    if c.websocket.inQueue then .remove else .keep)

def setInQueue (linked : Bool) (c : Connection) : Connection :=
  { c with websocket := { c.websocket with inQueue := linked } }

/-- `ngx_websocket_message_handler` for the bytes of `ngx_websocket_message_send`. No timer is
ever set on the write event, so the connection always becomes reusable on `NGX_AGAIN`. -/
def websocketMessageHandler (message : List UInt8) (reply : Reply) (c : Connection) :
    Connection × QueueOp :=
  if c.writeTimedout then websocketCloseConnection { c with timedout := true }
  else if message.length = 0 then (c, .keep)
  else match reply.send with
    | .again =>
      if reply.writeEvent then (setInQueue false (reusableConnection true c), .remove)
      else websocketCloseConnection (reusableConnection true c)
    | .error => websocketCloseConnection c
    | .sent n =>
      let sent := { c with accepted := c.accepted ++ message.take n }
      if n = 0 then websocketCloseConnection c
      else if n < message.length then
        if reply.writeEvent then (setInQueue false sent, .remove)
        else websocketCloseConnection sent
      else (sent, .keep)

/-- `ngx_websocket_send_message_handler`; `channelFound` is the outcome of the lookup of the
channel's queue. -/
def websocketSendMessageHandler (reply : Reply) (channelFound : Bool) (c : Connection) :
    Connection × QueueOp :=
  let size := c.websocket.messageSize
  if c.writeTimedout then websocketCloseConnection { c with timedout := true }
  else if size = 0 then (c, .keep)
  else match reply.send with
    | .again =>
      if reply.writeEvent then (reusableConnection true c, .keep)
      else websocketCloseConnection (reusableConnection true c)
    | .error => websocketCloseConnection c
    | .sent n =>
      let sent := { c with accepted := c.accepted ++ (c.websocket.buffer.take size).take n }
      if n = 0 then websocketCloseConnection c
      else if n < size ∧ ¬ reply.writeEvent then websocketCloseConnection sent
      else if channelFound then (setInQueue true sent, .insertTail)
      else websocketCloseConnection sent

end Ngx.Http
