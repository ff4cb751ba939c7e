import Ngx.Sprintf

/-! Numbers as `ngx_sprintf_num` prints them. -/
namespace Ngx.Sprintf

open BoundedText Positional

def decimalDigits : List UInt8 := ascii "0123456789"

def digitsOf (hex : UInt64) : List UInt8 :=
  if hex = 0 then decimalDigits else if hex = 1 then hexDigits else upperHexDigits

section Filling

variable {ν : Type} {digit : ν → UInt8} {next : ν → ν} {zero : ν → Bool} (alphabet : List UInt8)
  (toNat : ν → Nat)

/-- The loop fills `temp` with the numeral from its last digit, and ends when the quotient is 0. -/
theorem fill_eq_numeral (base : 1 < alphabet.length)
    (digit_eq : ∀ n, digit n = Positional.digit alphabet (toNat n % alphabet.length))
    (next_eq : ∀ n, toNat (next n) = toNat n / alphabet.length)
    (zero_iff : ∀ n, zero n = true ↔ toNat n = 0) {p : Nat} (n : ν) (temp : List UInt8)
    (some_room : 0 < p) (room : toNat n < alphabet.length ^ p) :
    fill digit next zero p n temp = some (numeral alphabet (toNat n) ++ temp) := by
  induction p generalizing n temp with
  | zero => exact absurd some_room (Nat.lt_irrefl 0)
  | succ p ih =>
    rw [fill]
    by_cases last : toNat n < alphabet.length
    · have stops : zero (next n) = true := by
        rw [zero_iff, next_eq, Nat.div_eq_of_lt last]
      simp [stops, numeral_small last, digit_eq, Nat.mod_eq_of_lt last]
    · have large : alphabet.length ≤ toNat n := Nat.le_of_not_lt last
      have quotient : toNat (next n) ≠ 0 := by
        rw [next_eq]
        exact (Nat.div_pos large (by omega)).ne'
      have goes_on : zero (next n) = false := by
        rw [Bool.eq_false_iff, ne_eq, zero_iff]
        exact quotient
      have smaller : toNat (next n) < alphabet.length ^ p := by
        rw [next_eq]
        exact Nat.div_lt_of_lt_mul (by rwa [Nat.pow_succ'] at room)
      have more : 0 < p := by
        rcases Nat.eq_zero_or_pos p with rfl | more
        · exact absurd (Nat.lt_one_iff.mp smaller) quotient
        · exact more
      rw [numeral_step base large]
      simp [goes_on, ih (next n) _ more smaller, next_eq, digit_eq]

end Filling

theorem decimalDigits_byte {d : Nat} (small : d < 10) :
    d.toUInt8 + '0'.toUInt8 = Positional.digit decimalDigits d := by
  have all : ∀ d : Fin 10, d.val.toUInt8 + '0'.toUInt8 = Positional.digit decimalDigits d.val := by
    decide
  exact all ⟨d, small⟩

theorem decimal32_eq (ui32 : UInt32) :
    decimal32 ui32 = some (numeral decimalDigits ui32.toNat) := by
  have digit_eq : ∀ n : UInt32,
      (n % 10).toUInt8 + '0'.toUInt8 = Positional.digit decimalDigits (n.toNat % 10) := by
    intro n
    rw [← decimalDigits_byte (Nat.mod_lt _ (by decide))]
    congr 1
  have next_eq : ∀ n : UInt32, (n / 10).toNat = n.toNat / 10 := fun n => UInt32.toNat_div n 10
  have zero_iff : ∀ n : UInt32, (n == 0) = true ↔ n.toNat = 0 := by simp [← UInt32.toNat_inj]
  have room : ui32.toNat < 10 ^ int64Len := Nat.lt_trans ui32.toNat_lt (by decide)
  rw [decimal32, fill_eq_numeral decimalDigits UInt32.toNat (by decide) digit_eq next_eq zero_iff
    ui32 [] (by decide) room, List.append_nil]

theorem decimal64_eq (ui64 : UInt64) :
    decimal64 ui64 = some (numeral decimalDigits ui64.toNat) := by
  have digit_eq : ∀ n : UInt64,
      (n % 10).toUInt8 + '0'.toUInt8 = Positional.digit decimalDigits (n.toNat % 10) := by
    intro n
    rw [← decimalDigits_byte (Nat.mod_lt _ (by decide))]
    congr 1
  have next_eq : ∀ n : UInt64, (n / 10).toNat = n.toNat / 10 := fun n => UInt64.toNat_div n 10
  have zero_iff : ∀ n : UInt64, (n == 0) = true ↔ n.toNat = 0 := by simp [← UInt64.toNat_inj]
  have room : ui64.toNat < 10 ^ int64Len := Nat.lt_trans ui64.toNat_lt (by decide)
  rw [decimal64, fill_eq_numeral decimalDigits UInt64.toNat (by decide) digit_eq next_eq zero_iff
    ui64 [] (by decide) room, List.append_nil]

theorem hexadecimal_eq {hex : List UInt8} (sixteen : hex.length = 16) (ui64 : UInt64) :
    hexadecimal hex ui64 = some (numeral hex ui64.toNat) := by
  have digit_eq : ∀ n : UInt64,
      hex[(n &&& 0xf).toNat]?.getD 0 = Positional.digit hex (n.toNat % hex.length) := by
    intro n
    have low : (n &&& 0xf).toNat = n.toNat % 16 := by
      rw [UInt64.toNat_and]
      exact Nat.and_two_pow_sub_one_eq_mod n.toNat 4
    rw [low, sixteen]
    rfl
  have next_eq : ∀ n : UInt64, (n >>> 4).toNat = n.toNat / hex.length := by
    intro n
    rw [UInt64.toNat_shiftRight, sixteen]
    exact Nat.shiftRight_eq_div_pow n.toNat 4
  have zero_iff : ∀ n : UInt64, (n == 0) = true ↔ n.toNat = 0 := by simp [← UInt64.toNat_inj]
  have room : ui64.toNat < hex.length ^ int64Len :=
    Nat.lt_trans ui64.toNat_lt (by rw [sixteen]; decide)
  rw [hexadecimal, fill_eq_numeral hex UInt64.toNat (by omega) digit_eq next_eq zero_iff
    ui64 [] (by decide) room, List.append_nil]

theorem toUInt32_toNat {ui64 : UInt64} (small : ui64 ≤ maxUint32Value) :
    ui64.toUInt32.toNat = ui64.toNat :=
  Nat.mod_eq_of_lt (Nat.lt_succ_of_le (UInt64.le_iff_toNat_le.mp small))

/-- No value has more digits than `temp` has room for. -/
theorem numberDigits_eq (hex ui64 : UInt64) :
    numberDigits hex ui64 = some (numeral (digitsOf hex) ui64.toNat) := by
  rw [numberDigits, digitsOf]
  split
  · split
    · rename_i small
      rw [decimal32_eq, toUInt32_toNat small]
    · exact decimal64_eq ui64
  · split
    · exact hexadecimal_eq (by decide) ui64
    · exact hexadecimal_eq (by decide) ui64

theorem digitsOf_alphabet (hex : UInt64) : 1 < (digitsOf hex).length ∧
    2 ^ 64 ≤ (digitsOf hex).length ^ int64Len ∧ (digitsOf hex).Nodup := by
  rw [digitsOf]
  split
  · decide
  · split <;> decide

theorem pad_eq (zero : UInt8) (last len width : Nat) (o : Out) : pad zero last len width o =
    o.copy ((List.replicate (width - len) zero).take (last - o.buf)) := by
  fun_induction pad zero last len width o with
  | case1 len o more ih =>
    have left : width - len = width - (len + 1) + 1 := by omega
    have limit : last - o.buf = last - (o.put zero).buf + 1 := by
      rw [Out.put_buf]
      omega
    rw [ih, left, List.replicate_succ, limit, List.take_succ_cons, Out.copy_cons]
  | case2 len o past =>
    have nothing : (List.replicate (width - len) zero).take (last - o.buf) = [] := by
      rw [List.take_replicate, List.replicate_eq_nil_iff]
      omega
    rw [nothing, Out.copy_nil]

def numberText (ui64 : UInt64) (zero : UInt8) (hex width : UInt64) : List UInt8 :=
  let digits := numeral (digitsOf hex) ui64.toNat
  List.replicate (width.toNat - digits.length) zero ++ digits

/-- The copy of `len` bytes, cut off at the limit. -/
theorem clipped_prints (p : List UInt8) : Prints (fun last o =>
    some (o.copy (p.take (if last < o.buf + p.length then last - o.buf else p.length)))) p := by
  intro last o room
  have clip : p.take (if last < o.buf + p.length then last - o.buf else p.length) =
      p.take (last - o.buf) := by
    by_cases past : last < o.buf + p.length
    · rw [if_pos past]
    · rw [if_neg past, List.take_length, List.take_of_length_le (by omega)]
  exact congrArg (fun text => some (o.copy text)) clip

theorem sprintfNum_prints (ui64 : UInt64) (zero : UInt8) (hex width : UInt64) :
    Prints (sprintfNum ui64 zero hex width) (numberText ui64 zero hex width) := by
  intro last o room
  rw [sprintfNum, numberDigits_eq, Option.map_some]
  have padded : Prints (fun last o => some (pad zero last
      (numeral (digitsOf hex) ui64.toNat).length width.toNat o)) _ :=
    fun last o _ => congrArg some (pad_eq zero last _ width.toNat o)
  exact padded.append (clipped_prints _) last o room

/-- `ngx_sprintf_num` pads and appends the canonical numeral; `temp` holds the digits of every
value, and both divisions give the same digits. -/
theorem sprintfNum_appends_numeral (ui64 : UInt64) (zero : UInt8) (hex width : UInt64) :
    ∃ digits, Canonical (digitsOf hex) ui64.toNat digits ∧
      numberDigits hex ui64 = some digits ∧ digits.length ≤ int64Len ∧
      (∀ last o, o.buf + max width.toNat digits.length ≤ last →
        sprintfNum ui64 zero hex width last o =
          some (o.copy (List.replicate (width.toNat - digits.length) zero ++ digits))) ∧
      (ui64 ≤ maxUint32Value → decimal32 ui64.toUInt32 = decimal64 ui64) := by
  obtain ⟨base, large, distinct⟩ := digitsOf_alphabet hex
  refine ⟨numeral (digitsOf hex) ui64.toNat, numeral_canonical base distinct _,
    numberDigits_eq hex ui64, ?_, ?_, ?_⟩
  · exact numeral_length_le base (by decide) (Nat.lt_of_lt_of_le ui64.toNat_lt large)
  · intro last o room
    refine (sprintfNum_prints ui64 zero hex width).all ?_
    rw [numberText, List.length_append, List.length_replicate]
    omega
  · intro small
    rw [decimal32_eq, decimal64_eq, toUInt32_toNat small]

end Ngx.Sprintf
