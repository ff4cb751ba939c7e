import Ngx.BigEndian
import Mathlib.Data.List.Basic

/-! Hashing a message by blocks, and SHA-1 as such a hash. -/
namespace BlockHash

variable {σ α : Type*}

def blocks (f : σ → List α → σ) (n : Nat) : (k : Nat) → σ → List α → σ
  | 0, s, _ => s
  | k + 1, s, bs => blocks f n k (f s (bs.take n)) (bs.drop n)

def fold (f : σ → List α → σ) (n : Nat) (s : σ) (bs : List α) : σ := blocks f n (bs.length / n) s bs

structure Reads (f : σ → List α → σ) (n : Nat) (initial : σ) (bs : List α) (s : σ) (rest : List α) :
    Prop where
  split : ∃ whole, bs = whole ++ rest ∧ n ∣ whole.length ∧ s = fold f n initial whole
  short : rest.length < n

variable {f : σ → List α → σ} {n : Nat} {initial s : σ} {bs rest piece : List α}

theorem blocks_append {k j : Nat} {s : σ} {xs : List α} (ys : List α) (whole : xs.length = k * n) :
    blocks f n (k + j) s (xs ++ ys) = blocks f n j (blocks f n k s xs) ys := by
  induction k generalizing s xs with
  | zero =>
    rw [Nat.zero_mul] at whole
    rw [List.eq_nil_of_length_eq_zero whole, Nat.zero_add, List.nil_append, blocks]
  | succ k ih =>
    rw [Nat.succ_mul] at whole
    have first : n ≤ xs.length := by omega
    have later : (xs.drop n).length = k * n := by rw [List.length_drop]; omega
    rw [Nat.succ_add, blocks, blocks, List.take_append_of_le_length first,
      List.drop_append_of_le_length first, ih later]

theorem fold_append (positive : 0 < n) {xs : List α} (ys : List α) (whole : n ∣ xs.length) :
    fold f n s (xs ++ ys) = fold f n (fold f n s xs) ys := by
  obtain ⟨k, length⟩ := whole
  have count : (xs ++ ys).length / n = k + ys.length / n := by
    rw [List.length_append, length, Nat.mul_add_div positive]
  rw [fold, fold, fold, count, blocks_append ys (by rw [length, Nat.mul_comm]), length,
    Nat.mul_div_cancel_left k positive]

theorem blocks_congr {g : σ → List α → σ} (same : ∀ s block, block.length = n → f s block = g s block)
    {k : Nat} {s : σ} {bs : List α} (enough : k * n ≤ bs.length) :
    blocks f n k s bs = blocks g n k s bs := by
  induction k generalizing s bs with
  | zero => rfl
  | succ k ih =>
    rw [Nat.succ_mul] at enough
    rw [blocks, blocks, same s _ (List.length_take_of_le (by omega)),
      ih (by rw [List.length_drop]; omega)]

theorem fold_congr {g : σ → List α → σ} (same : ∀ s block, block.length = n → f s block = g s block) :
    fold f n s bs = fold g n s bs :=
  blocks_congr same (Nat.div_mul_le_self _ _)

theorem Reads.nil (positive : 0 < n) : Reads f n initial [] initial [] :=
  ⟨⟨[], rfl, by simp, by simp [fold, blocks]⟩, positive⟩

theorem Reads.length (reads : Reads f n initial bs s rest) : rest.length = bs.length % n := by
  obtain ⟨⟨whole, rfl, ⟨k, length⟩, -⟩, short⟩ := reads
  rw [List.length_append, length, Nat.mul_add_mod, Nat.mod_eq_of_lt short]

/-- A piece that does not complete a block is kept. -/
theorem Reads.keep (reads : Reads f n initial bs s rest) (short : rest.length + piece.length < n) :
    Reads f n initial (bs ++ piece) s (rest ++ piece) := by
  obtain ⟨⟨whole, rfl, multiple, state⟩, -⟩ := reads
  exact ⟨⟨whole, List.append_assoc _ _ _, multiple, state⟩, by simpa using short⟩

/-- A piece that completes blocks is read with what is kept. -/
theorem Reads.complete (reads : Reads f n initial bs s rest) (whole : n ∣ (rest ++ piece).length) :
    Reads f n initial (bs ++ piece) (fold f n s (rest ++ piece)) [] := by
  have positive : 0 < n := Nat.zero_lt_of_lt reads.short
  obtain ⟨⟨front, rfl, multiple, rfl⟩, -⟩ := reads
  refine ⟨⟨front ++ (rest ++ piece), by simp, ?_, (fold_append positive _ multiple).symm⟩, positive⟩
  rw [List.length_append]
  exact Nat.dvd_add multiple whole

theorem Reads.state (reads : Reads f n initial bs s []) : s = fold f n initial bs := by
  obtain ⟨⟨whole, rfl, -, state⟩, -⟩ := reads
  rw [state, List.append_nil]

end BlockHash

namespace Sha1

structure Chain where
  a : UInt32
  b : UInt32
  c : UInt32
  d : UInt32
  e : UInt32
  deriving DecidableEq

def initial : Chain := ⟨0x67452301, 0xefcdab89, 0x98badcfe, 0x10325476, 0xc3d2e1f0⟩

def rotl (n x : UInt32) : UInt32 := x <<< n ||| x >>> (32 - n)

def choose (b c d : UInt32) : UInt32 := (b &&& c) ^^^ (~~~b &&& d)

def parity (b c d : UInt32) : UInt32 := b ^^^ c ^^^ d

def majority (b c d : UInt32) : UInt32 := (b &&& c) ^^^ (b &&& d) ^^^ (c &&& d)

def function (t : Nat) : UInt32 → UInt32 → UInt32 → UInt32 :=
  if t < 20 then choose else if t < 40 then parity else if t < 60 then majority else parity

def constant (t : Nat) : UInt32 :=
  if t < 20 then 0x5a827999 else if t < 40 then 0x6ed9eba1 else if t < 60 then 0x8f1bbcdc
  else 0xca62c1d6

def word (block : List UInt8) (t : Nat) : UInt32 :=
  (BigEndian.value ((block.drop (4 * t)).take 4)).toUInt32

def schedule (block : List UInt8) : Nat → List UInt32
  | 0 => []
  | t + 1 =>
    let ws := schedule block t
    let w (back : Nat) := ws[t - back]?.getD 0
    ws ++ [if t < 16 then word block t else rotl 1 (w 3 ^^^ w 8 ^^^ w 14 ^^^ w 16)]

def nextRound (x : Chain) (w : UInt32 × Nat) : Chain where
  a := rotl 5 x.a + function w.2 x.b x.c x.d + x.e + constant w.2 + w.1
  b := x.a
  c := rotl 30 x.b
  d := x.c
  e := x.d

def compress (x : Chain) (block : List UInt8) : Chain :=
  let y := (schedule block 80).zipIdx.foldl nextRound x
  ⟨x.a + y.a, x.b + y.b, x.c + y.c, x.d + y.d, x.e + y.e⟩

def pad (message : List UInt8) : List UInt8 :=
  message ++ 0x80 :: (List.replicate ((119 - message.length % 64) % 64) 0 ++
    BigEndian.bytes 8 (message.length * 8))

def Chain.bytes (x : Chain) : List UInt8 :=
  [x.a, x.b, x.c, x.d, x.e].flatMap fun w => BigEndian.bytes 4 w.toNat

def hash (message : List UInt8) : List UInt8 :=
  (BlockHash.fold compress 64 initial (pad message)).bytes

theorem Chain.bytes_length (x : Chain) : x.bytes.length = 20 := by
  simp [Chain.bytes, BigEndian.bytes_length]

theorem hash_length (message : List UInt8) : (hash message).length = 20 := Chain.bytes_length _

end Sha1
