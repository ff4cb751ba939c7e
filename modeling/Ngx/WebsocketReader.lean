import Ngx.BigEndian
import Ngx.SelfDelimiting
import Ngx.WebsocketFrame

/-! The encoded frames as a reader of the websocket protocol takes them: unmasked frames, whose
length is in the second byte or, where that says 126 or 127, in the two or eight bytes after it.
This is the protocol's view and not a part of the program. -/
namespace Ngx.Frame

structure Message where
  fin : Bool
  opcode : Fin 16
  payload : List UInt8
  short : payload.length < 2 ^ 63

/-- The bytes of a frame as the caller sends them: as many as the encoder says it wrote. -/
def Message.encoded (m : Message) : List UInt8 :=
  let written := websocketFrameEncode (m.payload.getD · 0) (.ofNat m.opcode) (.ofNat m.fin.toNat)
    m.payload.length
  written.1.take written.2

inductive LengthForm where
  | seven
  | sixteen
  | sixtyFour
  deriving DecidableEq, Repr

def LengthForm.capacity : LengthForm → Nat
  | .seven => 126
  | .sixteen => 2 ^ 16
  | .sixtyFour => 2 ^ 63

def LengthForm.extended : LengthForm → Nat
  | .seven => 0
  | .sixteen => 2
  | .sixtyFour => 8

def LengthForm.ofByte (byte : UInt8) : LengthForm :=
  if byte &&& 127 = 126 then .sixteen else if byte &&& 127 = 127 then .sixtyFour else .seven

/-- The length in a frame with second byte `byte` and the bytes `after` it. -/
def payloadLength (byte : UInt8) (after : List UInt8) : Nat :=
  match LengthForm.ofByte byte with
  | .seven => (byte &&& 127).toNat
  | form => BigEndian.value (after.take form.extended)

/-- One frame off the input. There is none when the input ends early, a reserved bit or the mask
bit is set, or the length takes 64 bits. -/
def readFrame : List UInt8 → Option (Message × List UInt8)
  | first :: second :: after =>
    let extended := (LengthForm.ofByte second).extended
    let length := payloadLength second after
    let payload := (after.drop extended).take length
    if fits : first &&& 112 = 0 ∧ second &&& 128 = 0 ∧ extended + length ≤ after.length ∧
        length < 2 ^ 63 then
      some (⟨first &&& 128 ≠ 0, ⟨(first &&& 15).toNat % 16, Nat.mod_lt _ (by decide)⟩, payload,
        (List.length_take_le _ _).trans_lt fits.2.2.2⟩, after.drop (extended + length))
    else none
  | _ => none

def reader : SelfDelimiting.Reader Message UInt8 where
  read := readFrame
  shorter {bs m rest} read := by
    match bs with
    | [] | [_] => cases read
    | first :: second :: after =>
      rw [readFrame] at read
      split at read
      · cases read
        simp only [List.length_drop, List.length_cons]
        omega
      · cases read

def LengthForm.ofLength (n : Nat) : LengthForm :=
  if n < 126 then .seven else if n < 65536 then .sixteen else .sixtyFour

def LengthForm.byte (n : Nat) : LengthForm → UInt8
  | .seven => n.toUInt8
  | .sixteen => 126
  | .sixtyFour => 127

def firstByte (fin : Bool) (opcode : Fin 16) : UInt8 :=
  setFin (.ofNat fin.toNat) ||| setOpcode (.ofNat opcode)

theorem header_eq (fin : Bool) (opcode : Fin 16) (n : Nat) :
    header (.ofNat opcode) (.ofNat fin.toNat) n =
      firstByte fin opcode :: (LengthForm.ofLength n).byte n ::
        BigEndian.bytes (LengthForm.ofLength n).extended n := by
  have unmasked (b : UInt8) : setMask 0 ||| b = b := by
    rw [show setMask 0 = 0 by decide, UInt8.zero_or]
  simp only [header, LengthForm.ofLength, unmasked]
  split_ifs
  · simp [LengthForm.byte, LengthForm.extended, BigEndian.bytes, setLength, firstByte]
  · rfl
  · rfl

theorem encoded_eq (m : Message) :
    m.encoded = firstByte m.fin m.opcode :: (LengthForm.ofLength m.payload.length).byte m.payload.length ::
      (BigEndian.bytes (LengthForm.ofLength m.payload.length).extended m.payload.length ++ m.payload) := by
  have payload : (List.range m.payload.length).map (m.payload.getD · 0) = m.payload := by
    apply List.ext_getElem
    · simp
    · intro i _ inside
      simp [inside]
  simp only [Message.encoded, websocketFrameEncode, payload]
  rw [List.take_left' (by simp), header_eq]
  rfl

theorem firstByte_read (fin : Bool) (opcode : Fin 16) :
    firstByte fin opcode &&& 112 = 0 ∧ decide (firstByte fin opcode &&& 128 ≠ 0) = fin ∧
      (firstByte fin opcode &&& 15).toNat % 16 = opcode := by
  revert fin opcode
  decide

theorem small_byte (n : Fin 126) : LengthForm.ofByte n.val.toUInt8 = .seven ∧
    (n.val.toUInt8 &&& 127).toNat = n ∧ n.val.toUInt8 &&& 128 = 0 := by
  revert n
  decide +kernel

theorem ofLength_capacity {n : Nat} (short : n < 2 ^ 63) :
    n < (LengthForm.ofLength n).capacity := by
  rw [LengthForm.ofLength]
  split_ifs <;> simp only [LengthForm.capacity] <;> omega

/-- No form that can hold the length is shorter than the one chosen. -/
theorem ofLength_shortest {n : Nat} {form : LengthForm} (holds : n < form.capacity) :
    (LengthForm.ofLength n).extended ≤ form.extended := by
  rw [LengthForm.ofLength]
  cases form with
  | seven => rw [if_pos (show n < 126 from holds)]
  | sixteen =>
    have below : n < 65536 := holds
    split_ifs <;> simp [LengthForm.extended]
  | sixtyFour => split_ifs <;> simp [LengthForm.extended]

/-- The second byte says which form was chosen, and the length is read back from it. -/
theorem lengthForm_read {n : Nat} (short : n < 2 ^ 63) (rest : List UInt8) :
    let form := LengthForm.ofLength n
    LengthForm.ofByte (form.byte n) = form ∧ form.byte n &&& 128 = 0 ∧
      payloadLength (form.byte n) (BigEndian.bytes form.extended n ++ rest) = n := by
  intro form
  have capacity : n < form.capacity := ofLength_capacity short
  cases chosen : form with
  | seven =>
    rw [chosen] at capacity
    obtain ⟨which, length, unmasked⟩ := small_byte ⟨n, capacity⟩
    exact ⟨which, unmasked, by simp only [payloadLength, LengthForm.byte, which, length]⟩
  | sixteen =>
    rw [chosen] at capacity
    have which : LengthForm.ofByte 126 = .sixteen := by decide
    have unmasked : (126 : UInt8) &&& 128 = 0 := by decide
    refine ⟨which, unmasked, ?_⟩
    simp only [payloadLength, LengthForm.byte, which]
    rw [List.take_left' (BigEndian.bytes_length _ _)]
    exact BigEndian.value_bytes_of_lt capacity
  | sixtyFour =>
    rw [chosen] at capacity
    have which : LengthForm.ofByte 127 = .sixtyFour := by decide
    have unmasked : (127 : UInt8) &&& 128 = 0 := by decide
    refine ⟨which, unmasked, ?_⟩
    simp only [payloadLength, LengthForm.byte, which]
    rw [List.take_left' (BigEndian.bytes_length _ _)]
    exact BigEndian.value_bytes_of_lt (capacity.trans (by decide))

theorem readFrame_encoded (m : Message) (rest : List UInt8) :
    readFrame (m.encoded ++ rest) = some (m, rest) := by
  obtain ⟨reserved, fin, opcode⟩ := firstByte_read m.fin m.opcode
  obtain ⟨which, unmasked, length⟩ := lengthForm_read m.short (m.payload ++ rest)
  rw [encoded_eq, List.cons_append, List.cons_append, List.append_assoc, readFrame]
  simp only [which, length, reserved, unmasked]
  have bytes := BigEndian.bytes_length (LengthForm.ofLength m.payload.length).extended m.payload.length
  have payload : ((BigEndian.bytes (LengthForm.ofLength m.payload.length).extended m.payload.length ++
      (m.payload ++ rest)).drop (LengthForm.ofLength m.payload.length).extended).take
        m.payload.length = m.payload := by
    rw [List.drop_left' bytes, List.take_left]
  have after : (BigEndian.bytes (LengthForm.ofLength m.payload.length).extended m.payload.length ++
      (m.payload ++ rest)).drop ((LengthForm.ofLength m.payload.length).extended +
        m.payload.length) = rest := by
    rw [← List.append_assoc, List.drop_left' (by simp [bytes])]
  rw [dif_pos ⟨trivial, trivial, by simp [bytes], m.short⟩]
  simp only [payload, after, fin, opcode]

/-- Frames written one after the other are read back as the messages they were made of, each
in the shortest form its length allows. -/
theorem frames_read_back (ms : List Message) :
    reader.readAll (ms.flatMap Message.encoded) = some ms ∧
      ∀ m ∈ ms, ∃ form, (m.encoded[1]?).map LengthForm.ofByte = some form ∧
        m.encoded.length = 2 + form.extended + m.payload.length ∧
        m.payload.length < form.capacity ∧
        ∀ other : LengthForm, m.payload.length < other.capacity → form.extended ≤ other.extended := by
  refine ⟨reader.readAll_flatMap Message.encoded readFrame_encoded ms, fun m _ => ?_⟩
  refine ⟨.ofLength m.payload.length, ?_, ?_, ofLength_capacity m.short,
    fun _ holds => ofLength_shortest holds⟩
  · simp [encoded_eq, (lengthForm_read m.short []).1]
  · simp [encoded_eq, BigEndian.bytes_length]
    omega

end Ngx.Frame
