import Ngx.BoundedText
import Ngx.Decimal
import Ngx.Positional

/-! `ngx_vslprintf` and its callers. A pointer is an address, the format a C string without its
NUL, and the arguments are the values that `va_arg` takes one after the other; there is no result
where the code would read past the format, an argument or the temporary array. -/
namespace Ngx.Sprintf

open BoundedText

def ascii (text : String) : List UInt8 := text.toList.map Char.toUInt8

/-- `sizeof("-9223372036854775808") - 1`, also `NGX_INT_T_LEN` and `NGX_ATOMIC_T_LEN`. -/
def int64Len : Nat := 20

def maxUint32Value : UInt64 := 0xffffffff

def hexDigits : List UInt8 := ascii "0123456789abcdef"

def upperHexDigits : List UInt8 := ascii "0123456789ABCDEF"

/-- `do *--p = digit(n); while (n = next(n));` with `p` bytes of `temp` left below the digits. -/
def fill {ν : Type} (digit : ν → UInt8) (next : ν → ν) (zero : ν → Bool) :
    Nat → ν → List UInt8 → Option (List UInt8)
  | 0, _, _ => none
  | p + 1, n, temp =>
    let temp := digit n :: temp
    if zero (next n) then some temp else fill digit next zero p (next n) temp

def decimal32 (ui32 : UInt32) : Option (List UInt8) :=
  fill (fun n => (n % 10).toUInt8 + '0'.toUInt8) (· / 10) (· == 0) int64Len ui32 []

def decimal64 (ui64 : UInt64) : Option (List UInt8) :=
  fill (fun n => (n % 10).toUInt8 + '0'.toUInt8) (· / 10) (· == 0) int64Len ui64 []

def hexadecimal (hex : List UInt8) (ui64 : UInt64) : Option (List UInt8) :=
  fill (fun n : UInt64 => hex[(n &&& 0xf).toNat]?.getD 0) (· >>> 4) (· == 0) int64Len ui64 []

def numberDigits (hex : UInt64) (ui64 : UInt64) : Option (List UInt8) :=
  if hex = 0 then
    if ui64 ≤ maxUint32Value then decimal32 ui64.toUInt32 else decimal64 ui64
  else if hex = 1 then hexadecimal hexDigits ui64
  else hexadecimal upperHexDigits ui64

/-- `while (len++ < width && buf < last) *buf++ = zero;` -/
def pad (zero : UInt8) (last : Nat) (len width : Nat) (o : Out) : Out :=
  if len < width ∧ o.buf < last then pad zero last (len + 1) width (o.put zero) else o
termination_by width - len

def sprintfNum (ui64 : UInt64) (zero : UInt8) (hex width : UInt64) (last : Nat) (o : Out) :
    Option Out :=
  (numberDigits hex ui64).map fun p =>
    let o := pad zero last p.length width.toNat o
    let len := if last < o.buf + p.length then last - o.buf else p.length
    o.copy (p.take len)

/-- An argument: a `ngx_str_t *`, a `u_char *` with the bytes that may be read there, a 64-bit
integer or pointer, or a 32-bit integer. -/
inductive Arg where
  | str (data : List UInt8)
  | chars (data : List UInt8)
  | word (w : UInt64)
  | int (w : UInt32)
  deriving DecidableEq, Repr

/-- The locals that a directive sets; `sign` and `max_width` are flags. -/
structure Locals where
  zero : UInt8
  width : UInt64
  sign : Bool
  hex : UInt64
  maxWidth : Bool
  slen : UInt64
  deriving DecidableEq, Repr

/-- `(size_t) -1`. -/
def noLen : UInt64 := 0xffffffffffffffff

/-- `while (*fmt >= '0' && *fmt <= '9') n = n * 10 + (*fmt++ - '0');` -/
def scanNumber (n : UInt64) : List UInt8 → UInt64 × List UInt8
  | [] => (n, [])
  | ch :: fmt =>
    if Decimal.isDigit ch then scanNumber (n * 10 + (ch - '0'.toUInt8).toUInt64) fmt
    else (n, ch :: fmt)

/-- The loop over the flags. The width after a point is read only by `%f`. -/
def scanFlags (l : Locals) (args : List Arg) :
    List UInt8 → Option (Locals × List UInt8 × List Arg)
  | [] => some (l, [], args)
  | ch :: fmt =>
    if ch = 'u'.toUInt8 then scanFlags { l with sign := false } args fmt
    else if ch = 'm'.toUInt8 then scanFlags { l with maxWidth := true } args fmt
    else if ch = 'X'.toUInt8 then scanFlags { l with hex := 2, sign := false } args fmt
    else if ch = 'x'.toUInt8 then scanFlags { l with hex := 1, sign := false } args fmt
    else if ch = '.'.toUInt8 then some (l, (scanNumber 0 fmt).2, args)
    else if ch = '*'.toUInt8 then
      match args with
      | .word slen :: args => scanFlags { l with slen := slen } args fmt
      | _ => none
    else some (l, ch :: fmt, args)

/-- A number to print: `i64` where `sign` is set, else `ui64`. -/
structure Number where
  i64 : Int64
  ui64 : UInt64
  locals : Locals

/-- The cases that take a number; none of them is `ch` where there is no result. -/
def takeNumber (l : Locals) (ch : UInt8) (args : List Arg) : Option (Number × List Arg) :=
  match args with
  | .word w :: args =>
    if ch = 'O'.toUInt8 ∨ ch = 'T'.toUInt8 ∨ ch = 'r'.toUInt8 then
      some (⟨w.toInt64, 0, { l with sign := true }⟩, args)
    else if ch = 'z'.toUInt8 ∨ ch = 'l'.toUInt8 ∨ ch = 'L'.toUInt8 then
      some (if l.sign then ⟨w.toInt64, 0, l⟩ else ⟨0, w, l⟩, args)
    else if ch = 'i'.toUInt8 ∨ ch = 'A'.toUInt8 then
      let l := if l.maxWidth then { l with width := int64Len.toUInt64 } else l
      some (if l.sign then ⟨w.toInt64, 0, l⟩ else ⟨0, w, l⟩, args)
    else if ch = 'p'.toUInt8 then
      some (⟨0, w, { l with hex := 2, sign := false, zero := '0'.toUInt8, width := 2 * 8 }⟩, args)
    else none
  | .int w :: args =>
    if ch = 'P'.toUInt8 then some (⟨w.toInt32.toInt64, 0, { l with sign := true }⟩, args)
    else if ch = 'd'.toUInt8 ∨ ch = 'D'.toUInt8 then
      some (if l.sign then ⟨w.toInt32.toInt64, 0, l⟩ else ⟨0, w.toUInt64, l⟩, args)
    else none
  | _ => none

def printNumber (n : Number) (last : Nat) (o : Out) : Option Out :=
  let l := n.locals
  if l.sign then
    if n.i64 < 0 then
      sprintfNum (-n.i64).toUInt64 l.zero l.hex l.width last (o.put '-'.toUInt8)
    else sprintfNum n.i64.toUInt64 l.zero l.hex l.width last o
  else sprintfNum n.ui64 l.zero l.hex l.width last o

/-- `while (*p && buf < last) *buf++ = *p++;` -/
def copyString (last : Nat) (o : Out) : List UInt8 → Option Out
  | [] => none
  | ch :: p => if ch ≠ 0 ∧ o.buf < last then copyString last (o.put ch) p else some o

/-- The `switch` on the letter of a directive, without `%f`. -/
def convert (l : Locals) (ch : UInt8) (args : List Arg) (last : Nat) (o : Out) :
    Option (Out × List Arg) :=
  if ch = 'V'.toUInt8 then
    match args with
    | .str v :: args => some (o.copy (v.take (min (last - o.buf) v.length)), args)
    | _ => none
  else if ch = 's'.toUInt8 then
    match args with
    | .chars p :: args =>
      if l.slen = noLen then (copyString last o p).map (·, args)
      else
        let len := min (last - o.buf) l.slen.toNat
        if p.length < len then none else some (o.copy (p.take len), args)
    | _ => none
  else if ch ∈ ascii "OPTzidlDLArp" then
    (takeNumber l ch args).bind fun (n, args) => (printNumber n last o).map (·, args)
  else if ch = 'f'.toUInt8 then none
  else if ch = 'c'.toUInt8 then
    match args with
    | .int d :: args => some (o.put (d &&& 0xff).toUInt8, args)
    | _ => none
  else if ch = 'Z'.toUInt8 then some (o.put 0, args)
  else if ch = 'N'.toUInt8 then some (o.put '\n'.toUInt8, args)
  else if ch = '%'.toUInt8 then some (o.put '%'.toUInt8, args)
  else some (o.put ch, args)

def scanDirective (fmt : List UInt8) (args : List Arg) : Option (Locals × List UInt8 × List Arg) :=
  let zero := if fmt.head? = some '0'.toUInt8 then '0'.toUInt8 else ' '.toUInt8
  let (width, fmt) := scanNumber 0 fmt
  scanFlags ⟨zero, width, true, 0, false, noLen⟩ args fmt

theorem scanNumber_length (n : UInt64) (fmt : List UInt8) :
    (scanNumber n fmt).2.length ≤ fmt.length := by
  fun_induction scanNumber n fmt with
  | case1 => exact Nat.le_refl _
  | case2 n ch fmt digit ih => exact Nat.le_succ_of_le ih
  | case3 => exact Nat.le_refl _

theorem scanFlags_length {l l' : Locals} {args args' : List Arg} {fmt fmt' : List UInt8}
    (scanned : scanFlags l args fmt = some (l', fmt', args')) : fmt'.length ≤ fmt.length := by
  fun_induction scanFlags l args fmt <;> grind [scanNumber_length]

/-- `ngx_vslprintf`. After a `%` the letter of the directive is the byte after its flags. -/
def vslprintf (fmt : List UInt8) (args : List Arg) (last : Nat) (o : Out) : Option Out :=
  match fmt with
  | [] => some o
  | ch :: fmt =>
    if ch = 0 ∨ last ≤ o.buf then some o
    else if ch = '%'.toUInt8 then
      match _scanned : scanDirective fmt args with
      | some (l, letter :: rest, args) =>
        (convert l letter args last o).bind fun (o, args) => vslprintf rest args last o
      | _ => none
    else vslprintf fmt args last (o.put ch)
termination_by fmt.length
decreasing_by
  · have shorter := scanFlags_length _scanned
    have digits := scanNumber_length 0 fmt
    simp only [List.length_cons] at *
    omega
  · simp

def noLast : Nat := 2 ^ 64 - 1

def sprintf (fmt : List UInt8) (args : List Arg) (o : Out) : Option Out := vslprintf fmt args noLast o

def slprintf (fmt : List UInt8) (args : List Arg) (last : Nat) (o : Out) : Option Out :=
  vslprintf fmt args last o

def snprintf (max : Nat) (fmt : List UInt8) (args : List Arg) (o : Out) : Option Out :=
  vslprintf fmt args (o.buf + max) o

end Ngx.Sprintf
