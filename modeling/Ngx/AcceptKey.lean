import Ngx.Base64
import Ngx.Sha1Digest
import Ngx.HttpResponse
import Ngx.HeaderSection

/-! The answer to an upgrade request. It is written over the request in the one buffer that a
connection has. -/
namespace Ngx.Http

open Resumable

def basisByte (basis : List UInt8) (i : UInt8) : UInt8 := basis[i.toNat]?.getD 0

def encodeBase64Internal (basis : List UInt8) (padding : Bool) : List UInt8 → List UInt8
  | s₀ :: s₁ :: s₂ :: s =>
    basisByte basis (s₀ >>> 2 &&& 0x3f) :: basisByte basis ((s₀ &&& 3) <<< 4 ||| s₁ >>> 4) ::
      basisByte basis ((s₁ &&& 0x0f) <<< 2 ||| s₂ >>> 6) :: basisByte basis (s₂ &&& 0x3f) ::
      encodeBase64Internal basis padding s
  | [s₀, s₁] =>
    basisByte basis (s₀ >>> 2 &&& 0x3f) :: basisByte basis ((s₀ &&& 3) <<< 4 ||| s₁ >>> 4) ::
      basisByte basis ((s₁ &&& 0x0f) <<< 2) :: if padding then [byte '='] else []
  | [s₀] =>
    basisByte basis (s₀ >>> 2 &&& 0x3f) :: basisByte basis ((s₀ &&& 3) <<< 4) ::
      if padding then [byte '=', byte '='] else []
  | [] => []

def basis64 : List UInt8 := ascii "ABCDEFGHIJKLMNOPQRSTUVWXYZabcdefghijklmnopqrstuvwxyz0123456789+/"

def encodeBase64 (src : List UInt8) : List UInt8 := encodeBase64Internal basis64 true src

def base64EncodedLength (len : Nat) : Nat := (len + 2) / 3 * 4

/-- The C string at `p` in an object that ends before `bound`; there is none where no NUL byte
ends it. -/
def cString (mem : Nat → UInt8) (p bound : Nat) : Option (List UInt8) :=
  let text := (cells mem p bound).takeWhile (· ≠ 0)
  if p + text.length < bound then some text else none

def websocketUuid : List UInt8 := ascii "258EAFA5-E914-47DA-95CA-C5AB0DC85B11"

/-- `ngx_websocket_build_accept_key`, with the context on its stack and the block that the pool
gives. -/
def websocketBuildAcceptKey (sha1 : Sha1Ctx) (block : Option (Nat → UInt8)) (key : List UInt8) :
    Option (Nat → UInt8) :=
  let digest := sha1Final (sha1Update (sha1Update (sha1Init sha1) key) websocketUuid)
  block.map fun data =>
    let zeroed := store data 0 (List.replicate (base64EncodedLength 20 + 1) 0)
    store zeroed 0 (encodeBase64 digest)

inductive HandlerEnd where
  /-- `ngx_http_finalize_request`. -/
  | finalized (rc : Int)
  /-- `ngx_websocket_writer`, with an answer in the buffer. -/
  | answered (s : HeaderRequest)

/-- `ngx_websocket_handler`; `r->buffer` is `r->header_in`. There is no result where a string has
no end. -/
def HeaderRequest.websocketHandler (sha1 : Sha1Ctx) (block : Option (Nat → UInt8))
    (s : HeaderRequest) : Option HandlerEnd :=
  match s.upgrade, s.secWebsocketKey with
  | true, some key =>
    (cString s.b.mem key s.stop).bind fun text =>
      match websocketBuildAcceptKey sha1 block text with
      | none => some (.finalized httpInternalServerError)
      | some data =>
        (cString data 0 (base64EncodedLength 20 + 1)).bind fun accept =>
          let mem := Resumable.store s.b.mem s.start (switchingProtocols accept ++ [0])
          (cString mem s.start s.stop).map fun answer =>
            .answered { s with b := ⟨mem, s.start, s.start + answer.length⟩ }
  | _, _ => some (.finalized httpBadRequest)

section Groups

theorem basisByte_digit {i : UInt8} {n : Nat} (same : i.toNat = n % 64) :
    basisByte basis64 i = Base64.digit n := by
  have table : i < 64 → basisByte basis64 i = Base64.digit i.toNat :=
    forall_byte (P := fun i => i < 64 → basisByte basis64 i = Base64.digit i.toNat)
      (by decide +kernel) i
  have below : i < 64 := by
    rw [UInt8.lt_iff_toNat_lt, same]
    exact Nat.mod_lt n (by decide)
  rw [table below, same, Base64.digit, Base64.digit, Nat.mod_mod]

/-- The high bits of one byte and the low bits of another. -/
theorem joined_toNat {x y : UInt8} {k : Nat} (short : k < 8) (high : x.toNat * 2 ^ k < 256)
    (low : y.toNat < 2 ^ k) : (x <<< k.toUInt8 ||| y).toNat = x.toNat * 2 ^ k + y.toNat := by
  have amount : k.toUInt8.toNat % 8 = k := by
    rw [Nat.toUInt8_eq, UInt8.toNat_ofNat']
    omega
  rw [UInt8.toNat_or, UInt8.toNat_shiftLeft, amount, Nat.shiftLeft_eq, Nat.mod_eq_of_lt high,
    ← Nat.shiftLeft_eq, ← Nat.shiftLeft_add_eq_or_of_lt low]

theorem sextets (a b : UInt8) :
    (a >>> 2 &&& 0x3f).toNat = a.toNat / 4 ∧ (a &&& 0x3f).toNat = a.toNat % 64 ∧
      ((a &&& 3) <<< 4).toNat = a.toNat % 4 * 16 ∧
      ((a &&& 3) <<< 4 ||| b >>> 4).toNat = a.toNat % 4 * 16 + b.toNat / 16 ∧
      ((a &&& 0x0f) <<< 2).toNat = a.toNat % 16 * 4 ∧
      ((a &&& 0x0f) <<< 2 ||| b >>> 6).toNat = a.toNat % 16 * 4 + b.toNat / 64 := by
  obtain ⟨first, last, two, four, high, low⟩ :=
    forall_byte (P := fun a => (a >>> 2 &&& 0x3f).toNat = a.toNat / 4 ∧
      (a &&& 0x3f).toNat = a.toNat % 64 ∧ (a &&& 3).toNat = a.toNat % 4 ∧
      (a &&& 0x0f).toNat = a.toNat % 16 ∧ ((a &&& 3) <<< 4).toNat = a.toNat % 4 * 16 ∧
      ((a &&& 0x0f) <<< 2).toNat = a.toNat % 16 * 4) (by decide +kernel) a
  have below := b.toNat_lt
  have nibble : (b >>> 4).toNat = b.toNat / 16 := by simp [Nat.shiftRight_eq_div_pow]
  have pair : (b >>> 6).toNat = b.toNat / 64 := by simp [Nat.shiftRight_eq_div_pow]
  refine ⟨first, last, high, ?_, low, ?_⟩
  · rw [← two, ← nibble]
    exact joined_toNat (k := 4) (by decide) (by omega) (by omega)
  · rw [← four, ← pair]
    exact joined_toNat (k := 2) (by decide) (by omega) (by omega)

theorem encodeBase64_eq (src : List UInt8) : encodeBase64 src = Base64.encode src := by
  unfold encodeBase64
  induction src using Base64.encode.induct with
  | case1 => rfl
  | case2 a =>
    have := a.toNat_lt
    obtain ⟨first, -, high, -⟩ := sextets a 0
    rw [encodeBase64Internal, Base64.encode,
      basisByte_digit (n := a.toNat * 2 ^ 4 / 64 ^ 1) (by omega),
      basisByte_digit (n := a.toNat * 2 ^ 4 / 64 ^ 0) (by omega)]
    rfl
  | case3 a b =>
    have := a.toNat_lt
    have := b.toNat_lt
    obtain ⟨first, -, -, second, -⟩ := sextets a b
    obtain ⟨-, -, -, -, third, -⟩ := sextets b 0
    rw [encodeBase64Internal, Base64.encode,
      basisByte_digit (n := (a.toNat * 2 ^ 8 + b.toNat) * 2 ^ 2 / 64 ^ 2) (by omega),
      basisByte_digit (n := (a.toNat * 2 ^ 8 + b.toNat) * 2 ^ 2 / 64 ^ 1) (by omega),
      basisByte_digit (n := (a.toNat * 2 ^ 8 + b.toNat) * 2 ^ 2 / 64 ^ 0) (by omega)]
    rfl
  | case4 a b c rest ih =>
    have := a.toNat_lt
    have := b.toNat_lt
    have := c.toNat_lt
    obtain ⟨first, -, -, second, -⟩ := sextets a b
    obtain ⟨-, -, -, -, -, third⟩ := sextets b c
    obtain ⟨-, fourth, -⟩ := sextets c 0
    rw [encodeBase64Internal, Base64.encode, ih,
      basisByte_digit (n := ((a.toNat * 2 ^ 8 + b.toNat) * 2 ^ 8 + c.toNat) / 64 ^ 3) (by omega),
      basisByte_digit (n := ((a.toNat * 2 ^ 8 + b.toNat) * 2 ^ 8 + c.toNat) / 64 ^ 2) (by omega),
      basisByte_digit (n := ((a.toNat * 2 ^ 8 + b.toNat) * 2 ^ 8 + c.toNat) / 64 ^ 1) (by omega),
      basisByte_digit (n := ((a.toNat * 2 ^ 8 + b.toNat) * 2 ^ 8 + c.toNat) / 64 ^ 0) (by omega)]
    rfl

/-- `ngx_encode_base64` with its destination: the memory it leaves, and `dst->len`. -/
def encodeBase64At (mem : Nat → UInt8) (data : Nat) (src : List UInt8) : (Nat → UInt8) × Nat :=
  let d := data + (encodeBase64 src).length
  (store mem data (encodeBase64 src), d - data)

/-- The text fills a destination of `ngx_base64_encoded_length` bytes and reads back as `src`. -/
theorem encodeBase64At_decodes (mem : Nat → UInt8) (data : Nat) (src : List UInt8) :
    ∃ memory len, encodeBase64At mem data src = (memory, len) ∧
      len = base64EncodedLength src.length ∧
      (∀ i, i < data ∨ data + base64EncodedLength src.length ≤ i → memory i = mem i) ∧
      (∃ ds pads, cells memory data (data + len) = ds ++ List.replicate pads (byte '=') ∧
        pads ≤ 2 ∧ ∀ d ∈ ds, d ∈ basis64) ∧
      Base64.decode (cells memory data (data + len)) = some src := by
  have length : (encodeBase64 src).length = base64EncodedLength src.length := by
    rw [encodeBase64_eq]
    exact Base64.encode_length src
  have whole : data + (encodeBase64 src).length - data = (encodeBase64 src).length :=
    Nat.add_sub_cancel_left data _
  have written : cells (store mem data (encodeBase64 src)) data
      (data + (data + (encodeBase64 src).length - data)) = Base64.encode src := by
    rw [whole, ← encodeBase64_eq]
    exact (store_holds mem data (encodeBase64 src)).cells_eq
  refine ⟨_, _, rfl, whole.trans length, fun i outside => ?_, ?_, ?_⟩
  · rw [← length] at outside
    rw [store]
    split
    · rw [List.getElem?_eq_none (by omega), Option.getD_none]
    · rfl
  · simp only [written]
    exact Base64.encode_shape src
  · simp only [written]
    exact Base64.decode_encode src

end Groups

section Answer

variable {mem : Nat → UInt8} {p bound : Nat} {text : List UInt8} {s : HeaderRequest}

theorem cString_eq (holds : Holds mem p (text ++ [0])) (no_nul : ∀ b ∈ text, b ≠ 0)
    (inside : p + text.length < bound) : cString mem p bound = some text := by
  have held : cells mem p bound = text ++ 0 :: cells mem (p + (text ++ [0]).length) bound := by
    have front := holds.cells_eq
    have reach : p + (text ++ [0]).length ≤ bound := by
      rw [List.length_append, List.length_singleton]
      omega
    rw [← cells_append mem (Nat.le_add_right p _) reach, front, List.append_assoc]
    rfl
  have taken : (cells mem p bound).takeWhile (· ≠ 0) = text := by
    rw [held, List.takeWhile_append_of_pos (by simpa using no_nul),
      List.takeWhile_cons_of_neg (by simp), List.append_nil]
  rw [cString, taken, if_pos inside]

theorem switchingProtocols_no_nul (no_nul : ∀ b ∈ text, b ≠ 0) :
    ∀ b ∈ switchingProtocols text, b ≠ 0 := by
  simp only [switchingProtocols, List.forall_mem_append]
  exact ⟨⟨by decide +kernel, no_nul⟩, by decide +kernel⟩

def acceptKey (key : List UInt8) : List UInt8 := Base64.encode (Sha1.hash (key ++ websocketUuid))

theorem acceptKey_length (key : List UInt8) : (acceptKey key).length = 28 := by
  rw [acceptKey, Base64.encode_length, Sha1.hash_length]
  rfl

theorem answer_short (key : List UInt8) :
    (switchingProtocols (acceptKey key)).length < clientHeaderBufferSize := by
  have around : (switchingProtocols (acceptKey key)).length =
      (switchingProtocols []).length + (acceptKey key).length := by
    simp only [switchingProtocols, List.length_append, List.length_nil]
    omega
  have fixed : (switchingProtocols []).length < 2000 := by decide +kernel
  rw [around, acceptKey_length]
  change _ < 2048
  omega

theorem build_holds {sha1 : Sha1Ctx} {block : Nat → UInt8} (key : List UInt8) :
    ∃ data, websocketBuildAcceptKey sha1 (some block) key = some data ∧
      Holds data 0 (acceptKey key ++ [0]) := by
  have digest : sha1Final (sha1Update (sha1Update (sha1Init sha1) key) websocketUuid) =
      Sha1.hash (key ++ websocketUuid) := by
    have pieces := sha1_digest sha1 [key, websocketUuid]
    rwa [List.flatten_cons, List.flatten_cons, List.flatten_nil, List.append_nil] at pieces
  refine ⟨_, rfl, ?_⟩
  rw [digest, encodeBase64_eq, ← acceptKey]
  have length := acceptKey_length key
  refine (store_holds _ 0 _).append (fun i inside => ?_)
  have last : i = 0 := by simpa using inside
  subst last
  simp [store, length, base64EncodedLength]

/-- The answer is put at the start of the buffer, and is made of the key that stands in it. -/
theorem handler_answers {sha1 : Sha1Ctx} {block : Nat → UInt8} (upgrade : s.upgrade = true)
    (key : s.secWebsocketKey = some p) (holds : Holds s.b.mem p (text ++ [0]))
    (no_nul : ∀ b ∈ text, b ≠ 0) (inside : p + text.length < s.stop) :
    ∃ t, s.websocketHandler sha1 (some block) = some (.answered t) ∧
      cells t.b.mem t.b.pos t.b.last = switchingProtocols (acceptKey text) := by
  obtain ⟨data, built, accept⟩ := @build_holds sha1 block text
  have short := answer_short text
  have text_eq : cString s.b.mem p s.stop = some text := cString_eq holds no_nul inside
  have accept_eq : cString data 0 (base64EncodedLength 20 + 1) = some (acceptKey text) := by
    refine cString_eq accept (Base64.encode_ne_zero _) ?_
    rw [acceptKey_length]
    decide
  have answer_eq : cString
      (Resumable.store s.b.mem s.start (switchingProtocols (acceptKey text) ++ [0])) s.start
      s.stop = some (switchingProtocols (acceptKey text)) := by
    refine cString_eq (store_holds _ _ _) (switchingProtocols_no_nul (Base64.encode_ne_zero _)) ?_
    rw [HeaderRequest.stop]
    omega
  rw [HeaderRequest.websocketHandler, upgrade, key]
  dsimp only
  rw [text_eq, Option.bind_some, built]
  dsimp only
  rw [accept_eq, Option.bind_some]
  rw [answer_eq, Option.map_some]
  exact ⟨_, rfl, cells_store _ _ _ [0]⟩

/-- No other request is answered. -/
theorem answered_requires {sha1 : Sha1Ctx} {block : Option (Nat → UInt8)} {t : HeaderRequest}
    (answered : s.websocketHandler sha1 block = some (.answered t)) :
    s.upgrade = true ∧ s.secWebsocketKey.isSome := by
  unfold HeaderRequest.websocketHandler at answered
  split at answered
  next upgrade key => exact ⟨upgrade, by rw [key]; rfl⟩
  next => cases answered

end Answer

end Ngx.Http
