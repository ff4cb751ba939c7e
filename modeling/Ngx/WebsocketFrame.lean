import Mathlib.Data.Nat.Bitwise

/-! The frames published for the websocket clients. -/
namespace Ngx

def websocketMaxMessageLength : Nat := 256

namespace Frame

def setFin (byte : UInt8) : UInt8 := (byte &&& 1) <<< 7
def setOpcode (byte : UInt8) : UInt8 := byte &&& 15
def setMask (byte : UInt8) : UInt8 := (byte &&& 1) <<< 7
def setLength (n idx : Nat) : UInt8 := (n >>> (idx * 8)).toUInt8

def opcodeText : UInt8 := 1

/-- `frame_header` with its `pos` bytes; the mask bit is never set. -/
def header (opcode finish : UInt8) (n : Nat) : List UInt8 :=
  let mask : UInt8 := 0
  (setFin finish ||| setOpcode opcode) ::
    if n < 126 then [setMask mask ||| setLength n 0]
    else if n < 65536 then [setMask mask ||| 126, setLength n 1, setLength n 0]
    else [setMask mask ||| 127, setLength n 7, setLength n 6, setLength n 5, setLength n 4,
      setLength n 3, setLength n 2, setLength n 1, setLength n 0]

/-- `ngx_websocket_frame_encode`: the bytes it writes to `buffer`, the last of them a NUL, and
the length it returns, which does not count the NUL. -/
def websocketFrameEncode (message : Nat → UInt8) (opcode finish : UInt8) (length : Nat) :
    List UInt8 × Nat :=
  let head := header opcode finish length
  (head ++ (List.range length).map message ++ [0], head.length + length)

theorem written_length (message : Nat → UInt8) (opcode finish : UInt8) (length : Nat) :
    (websocketFrameEncode message opcode finish length).1.length =
      (websocketFrameEncode message opcode finish length).2 + 1 := by
  simp only [websocketFrameEncode, List.length_append, List.length_map, List.length_range,
    List.length_cons, List.length_nil]

/-- What is written fits the array of a slot up to 251 bytes of payload. -/
theorem written_fits_iff (message : Nat → UInt8) (opcode finish : UInt8) (length : Nat) :
    (websocketFrameEncode message opcode finish length).1.length ≤ websocketMaxMessageLength ↔
      length ≤ 251 := by
  rw [written_length]
  simp only [websocketFrameEncode, header, websocketMaxMessageLength]
  split
  · simp
    omega
  · split
    · simp
      omega
    · simp
      omega

end Frame

end Ngx
