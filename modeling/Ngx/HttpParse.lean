import Ngx.ByteLoop
import Ngx.Decimal

/-! The two parsers of a request, in a buffer whose pointers are indices into a memory. The bytes
of the memory beyond `last` are arbitrary. -/
namespace Ngx.Http

def byte (c : Char) : UInt8 := c.toNat.toUInt8

def cr : UInt8 := 13
def lf : UInt8 := 10

structure HeaderIn where
  mem : Nat → UInt8
  pos : Nat
  last : Nat

def HeaderIn.received (b : HeaderIn) (piece : List UInt8) : HeaderIn :=
  { b with mem := Resumable.store b.mem b.last piece, last := b.last + piece.length }

inductive ParseCode where
  | ok
  | again
  | headerDone
  | invalidMethod
  | invalidRequest
  | invalidVersion
  | invalidHeader
  deriving DecidableEq, Repr

inductive RequestLineState where
  | start
  | method
  | spacesBeforeUri
  | afterSlashInUri
  | checkUriHttp09
  | httpH
  | httpHT
  | httpHTT
  | httpHTTP
  | firstMajorDigit
  | majorDigit
  | firstMinorDigit
  | minorDigit
  | spacesAfterDigit
  | almostDone
  deriving DecidableEq, Repr

inductive Method where
  | unknown
  | get
  deriving DecidableEq, Repr

/-- The fields of `ngx_http_request_t` that the request line is parsed into. Only `request_end`
and `http_protocol.data` are ever compared with `NULL`. -/
structure RequestLine where
  method : Method
  httpVersion : Nat
  httpProtocol : Option Nat
  requestStart : Nat
  requestEnd : Option Nat
  methodEnd : Nat
  uriStart : Nat
  uriEnd : Nat
  httpMinor : Nat
  httpMajor : Nat
  deriving DecidableEq, Repr

def RequestLine.fresh : RequestLine := ⟨.unknown, 1000, none, 0, none, 0, 0, 0, 0, 0⟩

structure RequestLineCursor where
  r : RequestLine
  state : RequestLineState
  p : Nat
  deriving DecidableEq, Repr

inductive RequestLineStop where
  | done (r : RequestLine) (p : Nat)
  | invalid (code : ParseCode) (r : RequestLine)
  deriving DecidableEq, Repr

def str3Cmp (mem : Nat → UInt8) (m : Nat) (c0 c1 c2 c3 : UInt8) : Bool :=
  mem m == c0 && mem (m + 1) == c1 && mem (m + 2) == c2 && mem (m + 3) == c3

def digitValue (ch : UInt8) : Nat := (ch - byte '0').toNat

def RequestLine.next (r : RequestLine) (state : RequestLineState) (p : Nat) :
    Except RequestLineStop RequestLineCursor := .ok ⟨r, state, p + 1⟩

def RequestLine.invalid (code : ParseCode) (r : RequestLine) :
    Except RequestLineStop RequestLineCursor := .error (.invalid code r)

def RequestLine.expect (expected : UInt8) (state : RequestLineState) (ch : UInt8) (r : RequestLine)
    (p : Nat) : Except RequestLineStop RequestLineCursor :=
  if ch = expected then r.next state p else r.invalid .invalidRequest

/-- One round of the loop, with the `p++`. Only `sw_method` looks further than at the byte under
`p`, and moves by two. -/
def requestLineRound (mem : Nat → UInt8) (c : RequestLineCursor) :
    Except RequestLineStop RequestLineCursor :=
  let r := c.r
  let ch := mem c.p
  match c.state with
  | .start =>
    let r := { r with requestStart := c.p }
    if ch = cr ∨ ch = lf then r.next .start c.p
    else if ch ≠ byte 'G' then r.invalid .invalidMethod
    else r.next .method c.p
  | .method =>
    if str3Cmp mem r.requestStart (byte 'G') (byte 'E') (byte 'T') (byte ' ') then
      { r with methodEnd := c.p + 2, method := .get }.next .spacesBeforeUri (c.p + 1)
    else r.invalid .invalidMethod
  | .spacesBeforeUri =>
    if ch = byte '/' then { r with uriStart := c.p }.next .afterSlashInUri c.p
    else r.expect (byte ' ') .spacesBeforeUri ch c.p
  | .afterSlashInUri =>
    if ch = byte ' ' then { r with uriEnd := c.p }.next .checkUriHttp09 c.p
    else if ch = cr then { r with uriEnd := c.p, httpMinor := 9 }.next .almostDone c.p
    else if ch = lf then .error (.done { r with uriEnd := c.p, httpMinor := 9 } c.p)
    else if ch = 0 then r.invalid .invalidRequest
    else r.next .afterSlashInUri c.p
  | .checkUriHttp09 =>
    if ch = byte ' ' then r.next .checkUriHttp09 c.p
    else if ch = cr then { r with httpMinor := 9 }.next .almostDone c.p
    else if ch = lf then .error (.done { r with httpMinor := 9 } c.p)
    else if ch = byte 'H' then { r with httpProtocol := some c.p }.next .httpH c.p
    else r.invalid .invalidRequest
  | .httpH => r.expect (byte 'T') .httpHT ch c.p
  | .httpHT => r.expect (byte 'T') .httpHTT ch c.p
  | .httpHTT => r.expect (byte 'P') .httpHTTP ch c.p
  | .httpHTTP => r.expect (byte '/') .firstMajorDigit ch c.p
  | .firstMajorDigit =>
    if ch < byte '1' ∨ byte '9' < ch then r.invalid .invalidRequest
    else
      let r := { r with httpMajor := digitValue ch }
      if 1 < r.httpMajor then r.invalid .invalidVersion else r.next .majorDigit c.p
  | .majorDigit =>
    if ch = byte '.' then r.next .firstMinorDigit c.p
    else if ¬ Decimal.isDigit ch then r.invalid .invalidRequest
    else
      let r := { r with httpMajor := r.httpMajor * 10 + digitValue ch }
      if 1 < r.httpMajor then r.invalid .invalidVersion else r.next .majorDigit c.p
  | .firstMinorDigit =>
    if ¬ Decimal.isDigit ch then r.invalid .invalidRequest
    else { r with httpMinor := digitValue ch }.next .minorDigit c.p
  | .minorDigit =>
    if ch = cr then r.next .almostDone c.p
    else if ch = lf then .error (.done r c.p)
    else if ch = byte ' ' then r.next .spacesAfterDigit c.p
    else if ¬ Decimal.isDigit ch then r.invalid .invalidRequest
    else if 99 < r.httpMinor then r.invalid .invalidRequest
    else { r with httpMinor := r.httpMinor * 10 + digitValue ch }.next .minorDigit c.p
  | .spacesAfterDigit =>
    if ch = byte ' ' then r.next .spacesAfterDigit c.p
    else if ch = cr then r.next .almostDone c.p
    else if ch = lf then .error (.done r c.p)
    else r.invalid .invalidRequest
  | .almostDone =>
    let r := { r with requestEnd := some (c.p - 1) }
    if ch = lf then .error (.done r c.p) else r.invalid .invalidRequest

/-- A call of `ngx_http_parse_request_line`: the return value, the fields, `r->state` and the
buffer. -/
structure RequestLineCall where
  code : ParseCode
  r : RequestLine
  state : RequestLineState
  b : HeaderIn

def requestLineDone (r : RequestLine) (p : Nat) : ParseCode × RequestLine :=
  let r := if r.requestEnd = none then { r with requestEnd := some p } else r
  let r := { r with httpVersion := r.httpMajor * 1000 + r.httpMinor }
  (if r.httpVersion < 1001 ∨ r.method ≠ .get then .invalidVersion else .ok, r)

def parseRequestLine (r : RequestLine) (state : RequestLineState) (b : HeaderIn) :
    RequestLineCall :=
  match ByteLoop.run (requestLineRound b.mem) RequestLineCursor.p b.last ⟨r, state, b.pos⟩ with
  | .ok c => ⟨.again, c.r, c.state, { b with pos := c.p }⟩
  | .error (.done r p) =>
    ⟨(requestLineDone r p).1, (requestLineDone r p).2, .start, { b with pos := p + 1 }⟩
  | .error (.invalid code r) => ⟨code, r, state, b⟩

inductive HeaderLineState where
  | start
  | name
  | spaceBeforeValue
  | value
  | spaceAfterValue
  | ignoreLine
  | almostDone
  | headerAlmostDone
  deriving DecidableEq, Repr

abbrev lcHeaderLen : Nat := 32

structure HeaderLine where
  invalidHeader : Bool
  headerHash : UInt64
  lowcaseIndex : Fin lcHeaderLen
  lowcaseHeader : Vector UInt8 lcHeaderLen
  headerNameStart : Nat
  headerNameEnd : Nat
  headerStart : Nat
  headerEnd : Nat
  deriving DecidableEq, Repr

def HeaderLine.fresh : HeaderLine := ⟨false, 0, 0, .replicate _ 0, 0, 0, 0, 0⟩

/-- The variables of the loop; `hash` and `i` are written back to the request on some of the ways
out. -/
structure HeaderLineCursor where
  r : HeaderLine
  state : HeaderLineState
  hash : UInt64
  i : Fin lcHeaderLen
  p : Nat
  deriving DecidableEq, Repr

inductive HeaderLineStop where
  | done (c : HeaderLineCursor)
  | headerDone (c : HeaderLineCursor)
  | invalid (c : HeaderLineCursor)
  deriving DecidableEq, Repr

def lowcase (ch : UInt8) : UInt8 :=
  if byte 'A' ≤ ch ∧ ch ≤ byte 'Z' then ch + 32
  else if byte 'a' ≤ ch ∧ ch ≤ byte 'z' ∨ Decimal.isDigit ch ∨ ch = byte '-' then ch
  else 0

def ngxHash (key : UInt64) (c : UInt8) : UInt64 := key * 31 + c.toUInt64

def HeaderLineCursor.next (c : HeaderLineCursor) (state : HeaderLineState) :
    Except HeaderLineStop HeaderLineCursor := .ok { c with state := state, p := c.p + 1 }

/-- A character of the name at index `i` of `lowcase_header`; `i &= 31` is addition in `Fin 32`. -/
def HeaderLineCursor.store (key : UInt64) (i : Fin lcHeaderLen) (ch : UInt8) (c : HeaderLineCursor) :
    HeaderLineCursor :=
  { c with
    r := { c.r with lowcaseHeader := c.r.lowcaseHeader.set i ch }
    hash := ngxHash key ch
    i := i + 1 }

def HeaderLineCursor.markInvalid (c : HeaderLineCursor) : HeaderLineCursor :=
  { c with r := { c.r with invalidHeader := true } }

/-- Name, value, or both end at `p`, where the value may be empty. -/
def HeaderLineCursor.endName (c : HeaderLineCursor) : HeaderLineCursor :=
  { c with r := { c.r with headerNameEnd := c.p } }

def HeaderLineCursor.startValue (c : HeaderLineCursor) : HeaderLineCursor :=
  { c with r := { c.r with headerStart := c.p } }

def HeaderLineCursor.endValue (c : HeaderLineCursor) : HeaderLineCursor :=
  { c with r := { c.r with headerEnd := c.p } }

/-- One round of the loop, with the `p++`. -/
def headerLineByte (allowUnderscores : Bool) (c : HeaderLineCursor) (ch : UInt8) :
    Except HeaderLineStop HeaderLineCursor :=
  match c.state with
  | .start =>
    let c := { c with r := { c.r with headerNameStart := c.p, invalidHeader := false } }
    if ch = cr then c.endValue.next .headerAlmostDone
    else if ch = lf then .error (.headerDone c.endValue)
    else if lowcase ch ≠ 0 then (c.store 0 0 (lowcase ch)).next .name
    else if ch = byte '_' then
      if allowUnderscores then (c.store 0 0 ch).next .name else c.markInvalid.next .name
    else if ch = 0 then .error (.invalid { c with state := .name })
    else c.markInvalid.next .name
  | .name =>
    if lowcase ch ≠ 0 then (c.store c.hash c.i (lowcase ch)).next .name
    else if ch = byte '_' then
      if allowUnderscores then (c.store c.hash c.i ch).next .name else c.markInvalid.next .name
    else if ch = byte ':' then c.endName.next .spaceBeforeValue
    else if ch = cr then c.endName.startValue.endValue.next .almostDone
    else if ch = lf then .error (.done c.endName.startValue.endValue)
    else if ch = 0 then .error (.invalid c)
    else c.markInvalid.next .name
  | .spaceBeforeValue =>
    if ch = byte ' ' then c.next .spaceBeforeValue
    else if ch = cr then c.startValue.endValue.next .almostDone
    else if ch = lf then .error (.done c.startValue.endValue)
    else if ch = 0 then .error (.invalid c)
    else c.startValue.next .value
  | .value =>
    if ch = byte ' ' then c.endValue.next .spaceAfterValue
    else if ch = cr then c.endValue.next .almostDone
    else if ch = lf then .error (.done c.endValue)
    else if ch = 0 then .error (.invalid c)
    else c.next .value
  | .spaceAfterValue =>
    if ch = byte ' ' then c.next .spaceAfterValue
    else if ch = cr then c.next .almostDone
    else if ch = lf then .error (.done c)
    else if ch = 0 then .error (.invalid c)
    else c.next .value
  | .ignoreLine => if ch = lf then c.next .start else c.next .ignoreLine
  | .almostDone =>
    if ch = lf then .error (.done c)
    else if ch = cr then c.next .almostDone
    else .error (.invalid c)
  | .headerAlmostDone => if ch = lf then .error (.headerDone c) else .error (.invalid c)

/-- A call of `ngx_http_parse_header_line`: the return value, the fields, `r->state` and the
buffer. -/
structure HeaderLineCall where
  code : ParseCode
  r : HeaderLine
  state : HeaderLineState
  b : HeaderIn

def HeaderLineCursor.written (c : HeaderLineCursor) : HeaderLine :=
  { c.r with headerHash := c.hash, lowcaseIndex := c.i }

def parseHeaderLine (r : HeaderLine) (state : HeaderLineState) (b : HeaderIn)
    (allowUnderscores : Bool) : HeaderLineCall :=
  match ByteLoop.run (fun c => headerLineByte allowUnderscores c (b.mem c.p)) HeaderLineCursor.p
      b.last ⟨r, state, r.headerHash, r.lowcaseIndex, b.pos⟩ with
  | .ok c => ⟨.again, c.written, c.state, { b with pos := c.p }⟩
  | .error (.done c) => ⟨.ok, c.written, .start, { b with pos := c.p + 1 }⟩
  | .error (.headerDone c) => ⟨.headerDone, c.r, .start, { b with pos := c.p + 1 }⟩
  | .error (.invalid c) => ⟨.invalidHeader, c.r, state, b⟩

end Ngx.Http
