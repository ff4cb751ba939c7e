import Ngx.HttpRequest
import Ngx.HeaderGrammar
import Mathlib.Logic.Function.Basic

/-! The header section of a request, from the bytes in the buffer to the list of headers. The
loop writes a NUL behind each name and value into the buffer that it is still parsing. A read that
finds nothing ends the handler; the next read event enters it again at the top of its loop. -/
namespace Ngx.Http

open Resumable

structure Str where
  len : Nat
  data : Nat
  deriving DecidableEq, Repr

/-- `ngx_table_elt_t`; the memory of `lowcase_key` is its own. -/
structure TableElt where
  hash : UInt64
  key : Str
  value : Str
  lowcaseKey : Nat → UInt8

/-- `ngx_list_t`: the parts before the last one, and the last. -/
structure NgxList (α : Type) where
  full : List (List α)
  last : List α
  nalloc : Nat

def NgxList.elements {α : Type} (l : NgxList α) : List α := l.full.flatten ++ l.last

/-- `ngx_list_push`, with the element that is filled in afterwards; whether there is memory for a
new part. -/
def NgxList.push {α : Type} (memory : Bool) (x : α) (l : NgxList α) : Option (NgxList α) :=
  if l.last.length = l.nalloc then
    if memory then some { l with full := l.full ++ [l.last], last := [x] } else none
  else some { l with last := l.last ++ [x] }

/-- The fields of `ngx_http_request_t` that the header section is read into, with the parser's
and the buffer's. -/
structure HeaderRequest where
  start : Nat
  b : HeaderIn
  line : HeaderLine
  state : HeaderLineState
  headers : NgxList TableElt
  requestStart : Nat
  requestLength : Int
  upgrade : Bool
  secWebsocketKey : Option Nat

/-- `b->end`. -/
def HeaderRequest.stop (s : HeaderRequest) : Nat := s.start + clientHeaderBufferSize

/-- After a call for the request line that returned `NGX_OK`, in a buffer from `start` on. The
list has room for 20 headers in each part. -/
def HeaderRequest.enter (start : Nat) (call : RequestLineCall) : HeaderRequest where
  start := start
  b := call.b
  line := .fresh
  state := .start
  headers := ⟨[], [], 20⟩
  requestStart := call.r.requestStart
  requestLength := call.b.pos - call.r.requestStart
  upgrade := false
  secWebsocketKey := none

/-- `ngx_http_read_request_header` when the buffer is used up, and `rev->timedout` at the event
after it. -/
structure HeaderRead extends ReadReply where
  timedout : Bool
  deriving DecidableEq, Repr

def HeaderRead.found (read : HeaderRead) : RecvResult := if read.ready then read.recv else .again

/-- What the pool has for a header: memory for a new part of the list, and for the lower-case key
with what is in it. -/
structure HeaderMemory where
  part : Bool
  lowcaseKey : Option (Nat → UInt8)

inductive HeadersEnd where
  | waiting (s : HeaderRequest)
  | closed (rc : Int)
  | finalized (rc : Int) (s : HeaderRequest)
  | processed (s : HeaderRequest)

/-- `strncmp(p, s, strlen(s)) == 0` for an `s` without a NUL byte. -/
def startsWith (mem : Nat → UInt8) (p : Nat) (s : List UInt8) : Bool := cells mem p (p + s.length) = s

def upgradeName : List UInt8 := ascii "upgrade"
def upgradeValue : List UInt8 := ascii "websocket"
def keyName : List UInt8 := ascii "sec-websocket-key"

/-- `h->lowcase_key`: a copy of `r->lowcase_header` where that holds the whole name. -/
def lowcaseKey (block : Nat → UInt8) (r : HeaderLine) (key : Str) (mem : Nat → UInt8) (k : Nat) :
    UInt8 :=
  if k < key.len then
    if key.len = r.lowcaseIndex then r.lowcaseHeader[k]?.getD 0 else tolower (mem (key.data + k))
  else block k

/-- What is done with a header line that has been parsed successfully. There is no result where
memory is missing. -/
def HeaderRequest.store (memory : HeaderMemory) (s : HeaderRequest) : Option HeaderRequest :=
  let key : Str := ⟨s.line.headerNameEnd - s.line.headerNameStart, s.line.headerNameStart⟩
  let value : Str := ⟨s.line.headerEnd - s.line.headerStart, s.line.headerStart⟩
  let named := Function.update s.b.mem (key.data + key.len) 0
  let mem := Function.update named (value.data + value.len) 0
  memory.lowcaseKey.bind fun block =>
    let h : TableElt := ⟨s.line.headerHash, key, value, lowcaseKey block s.line key mem⟩
    (s.headers.push memory.part h).map fun headers =>
      { s with
        b := { s.b with mem := mem }
        headers := headers
        upgrade := s.upgrade ||
          (startsWith h.lowcaseKey 0 upgradeName && startsWith mem value.data upgradeValue)
        secWebsocketKey :=
          if startsWith h.lowcaseKey 0 keyName then some value.data else s.secWebsocketKey }

inductive HeaderInput where
  | bytes (s : HeaderRequest) (reads : List HeaderRead)
  | again (reads : List HeaderRead)
  | ends (e : HeadersEnd)

/-- The top of the loop after `NGX_AGAIN`, with `ngx_http_read_request_header`. -/
def HeaderRequest.read (s : HeaderRequest) (reads : List HeaderRead) : HeaderInput :=
  if s.b.pos = s.stop then .ends (.finalized httpInternalServerError s)
  else if s.b.pos < s.b.last then .bytes s reads
  else match reads with
    | [] => .ends (.waiting s)
    | read :: reads =>
      match read.found with
      | .again =>
        if ¬ read.readEvent then .ends (.closed httpInternalServerError)
        else if read.timedout then .ends (.closed httpRequestTimeOut)
        else .again reads
      | .error => .ends (.closed httpBadRequest)
      | .data bytes =>
        if bytes.take (s.stop - s.b.last) = [] then .ends (.closed httpBadRequest)
        else .bytes { s with b := s.b.received (bytes.take (s.stop - s.b.last)) } reads

inductive HeaderTurnEnd where
  | goesOn (again : Bool) (s : HeaderRequest)
  | ends (e : HeadersEnd)

def HeaderRequest.parse (memory : HeaderMemory) (s : HeaderRequest) : HeaderTurnEnd :=
  let call := parseHeaderLine s.line s.state s.b true
  let s := { s with line := call.r, state := call.state, b := call.b }
  let counted :=
    { s with requestLength := s.requestLength + (s.b.pos - s.line.headerNameStart : Int) }
  match call.code with
  | .ok =>
    if counted.line.invalidHeader then .goesOn false counted
    else match counted.store memory with
      | some s => .goesOn false s
      | none => .ends (.closed httpInternalServerError)
  | .headerDone => .ends (.processed counted)
  | .again => .goesOn true s
  | _ => .ends (.finalized httpBadRequest s)

/-- The loop of `ngx_http_process_request_headers`; `again` is `rc == NGX_AGAIN`, and
`memory k` is for the header with `k` headers before it. There is no result while the turns are
too few. -/
def processRequestHeaders (memory : Nat → HeaderMemory) :
    Nat → Bool → HeaderRequest → List HeaderRead → Option HeadersEnd
  | 0, _, _, _ => none
  | n + 1, again, s, reads =>
    match (if again then s.read reads else .bytes s reads) with
    | .ends e => some e
    | .again reads => processRequestHeaders memory n true s reads
    | .bytes s reads =>
      match s.parse (memory s.headers.elements.length) with
      | .ends e => some e
      | .goesOn again s => processRequestHeaders memory n again s reads

end Ngx.Http
