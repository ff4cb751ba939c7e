import Ngx.Sha1
import Ngx.Resumable
import Mathlib.Logic.Function.Basic

/-! The functions of `ngx_sha1.c`. Bytes that do not fill a block wait in the buffer. -/
namespace Ngx

open Resumable BlockHash Sha1

/-- `ngx_sha1_t`; the words `a` to `e` are those of the chain. -/
structure Sha1Ctx extends Chain where
  bytes : UInt64
  buffer : Nat → UInt8

def rotate (bits word : UInt32) : UInt32 := word <<< bits ||| word >>> (32 - bits)

def f1 (b c d : UInt32) : UInt32 := (b &&& c) ||| (~~~b &&& d)
def f2 (b c d : UInt32) : UInt32 := b ^^^ c ^^^ d
def f3 (b c d : UInt32) : UInt32 := (b &&& c) ||| (b &&& d) ||| (c &&& d)

def sha1Step (f : UInt32 → UInt32 → UInt32 → UInt32) (t : UInt32) (x : Chain) (w : UInt32) : Chain :=
  let temp := rotate 5 x.a + f x.b x.c x.d + x.e + w + t
  ⟨temp, x.a, rotate 30 x.b, x.c, x.d⟩

def sha1Get (p : List UInt8) (n : Nat) : UInt32 :=
  let byte (i : Nat) : UInt32 := (p[i]?.getD 0).toUInt32
  byte (n * 4 + 3) ||| byte (n * 4 + 2) <<< 8 ||| byte (n * 4 + 1) <<< 16 ||| byte (n * 4) <<< 24

/-- `words[i]` from the words before it. -/
def sha1Word (words : List UInt32) (i : Nat) : UInt32 :=
  let w (j : Nat) := words[j]?.getD 0
  rotate 1 (w (i - 3) ^^^ w (i - 8) ^^^ w (i - 14) ^^^ w (i - 16))

def sha1Words (p : List UInt8) : List UInt32 :=
  (List.range' 16 64).foldl (fun words i => words ++ [sha1Word words i])
    ((List.range 16).map (sha1Get p))

/-- One turn of the loop of `ngx_sha1_body`, twenty steps a line. -/
def sha1Block (saved : Chain) (p : List UInt8) : Chain :=
  let words := sha1Words p
  let x := ((words.drop 0).take 20).foldl (sha1Step f1 0x5a827999) saved
  let x := ((words.drop 20).take 20).foldl (sha1Step f2 0x6ed9eba1) x
  let x := ((words.drop 40).take 20).foldl (sha1Step f3 0x8f1bbcdc) x
  let x := ((words.drop 60).take 20).foldl (sha1Step f2 0xca62c1d6) x
  ⟨x.a + saved.a, x.b + saved.b, x.c + saved.c, x.d + saved.d, x.e + saved.e⟩

/-- `ngx_sha1_body`. It is called for one block or more. -/
def Sha1Ctx.body (ctx : Sha1Ctx) (data : List UInt8) : Sha1Ctx :=
  { ctx with toChain := fold sha1Block 64 ctx.toChain data }

def sha1Init (ctx : Sha1Ctx) : Sha1Ctx :=
  { ctx with
    a := 0x67452301
    b := 0xefcdab89
    c := 0x98badcfe
    d := 0x10325476
    e := 0xc3d2e1f0
    bytes := 0 }

def Sha1Ctx.used (ctx : Sha1Ctx) : Nat := (ctx.bytes &&& 0x3f).toNat

/-- `ngx_memcpy(&ctx->buffer[used], data, size)`. -/
def Sha1Ctx.fill (ctx : Sha1Ctx) (used : Nat) (data : List UInt8) : Sha1Ctx :=
  { ctx with buffer := store ctx.buffer used data }

/-- What `ngx_sha1_update` does with an empty buffer; `size & ~(size_t) 0x3f` bytes are whole
blocks. -/
def Sha1Ctx.bulk (ctx : Sha1Ctx) (data : List UInt8) : Sha1Ctx :=
  if 64 ≤ data.length then
    let whole := data.length - data.length % 64
    (ctx.body (data.take whole)).fill 0 (data.drop whole)
  else ctx.fill 0 data

def sha1Update (ctx : Sha1Ctx) (data : List UInt8) : Sha1Ctx :=
  let used := ctx.used
  let ctx := { ctx with bytes := ctx.bytes + data.length.toUInt64 }
  if used ≠ 0 then
    let free := 64 - used
    if data.length < free then ctx.fill used data
    else
      let ctx := ctx.fill used (data.take free)
      (ctx.body (cells ctx.buffer 0 64)).bulk (data.drop free)
  else ctx.bulk data

def wordBytes (w : UInt32) : List UInt8 :=
  [(w >>> 24).toUInt8, (w >>> 16).toUInt8, (w >>> 8).toUInt8, w.toUInt8]

def lengthBytes (n : UInt64) : List UInt8 :=
  [(n >>> 56).toUInt8, (n >>> 48).toUInt8, (n >>> 40).toUInt8, (n >>> 32).toUInt8,
    (n >>> 24).toUInt8, (n >>> 16).toUInt8, (n >>> 8).toUInt8, n.toUInt8]

/-- `ngx_sha1_final` up to where there is room for the length: the buffer, and how much of it is
used. -/
def Sha1Ctx.closeBlock (ctx : Sha1Ctx) : Sha1Ctx × Nat :=
  let used := ctx.used + 1
  let free := 64 - used
  let ctx := ctx.fill ctx.used [0x80]
  if free < 8 then
    let ctx := ctx.fill used (List.replicate free 0)
    (ctx.body (cells ctx.buffer 0 64), 0)
  else (ctx, used)

def sha1Final (ctx : Sha1Ctx) : List UInt8 :=
  let (ctx, used) := ctx.closeBlock
  let free := 64 - used
  let ctx := ctx.fill used (List.replicate (free - 8) 0)
  let ctx := ctx.fill 56 (lengthBytes (ctx.bytes <<< 3))
  let ctx := ctx.body (cells ctx.buffer 0 64)
  wordBytes ctx.a ++ wordBytes ctx.b ++ wordBytes ctx.c ++ wordBytes ctx.d ++ wordBytes ctx.e

section Block

variable {block : List UInt8} {x : Chain}

theorem f1_eq : f1 = choose := by
  funext b c d
  apply UInt32.eq_of_toBitVec_eq
  apply BitVec.eq_of_getLsbD_eq
  intro i inside
  simp only [f1, choose, UInt32.toBitVec_or, UInt32.toBitVec_and, UInt32.toBitVec_not,
    UInt32.toBitVec_xor, BitVec.getLsbD_or, BitVec.getLsbD_and, BitVec.getLsbD_not,
    BitVec.getLsbD_xor]
  cases b.toBitVec.getLsbD i <;> simp

theorem f2_eq : f2 = parity := rfl

theorem f3_eq : f3 = majority := by
  funext b c d
  apply UInt32.eq_of_toBitVec_eq
  apply BitVec.eq_of_getLsbD_eq
  intro i inside
  simp only [f3, majority, UInt32.toBitVec_or, UInt32.toBitVec_and, UInt32.toBitVec_xor,
    BitVec.getLsbD_or, BitVec.getLsbD_and, BitVec.getLsbD_xor]
  cases b.toBitVec.getLsbD i <;> cases c.toBitVec.getLsbD i <;> simp

theorem or_shiftLeft {a b i : Nat} (low : b < 2 ^ i) : b ||| a <<< i = a * 2 ^ i + b := by
  rw [Nat.or_comm, ← Nat.shiftLeft_add_eq_or_of_lt low, Nat.shiftLeft_eq]

theorem bytes_or (a b c d : UInt8) :
    d.toUInt32 ||| c.toUInt32 <<< 8 ||| b.toUInt32 <<< 16 ||| a.toUInt32 <<< 24 =
      (BigEndian.value [a, b, c, d]).toUInt32 := by
  have := a.toNat_lt
  have := b.toNat_lt
  have := c.toNat_lt
  have := d.toNat_lt
  have shift (b : UInt8) (i : Nat) (le : i ≤ 24) : b.toNat <<< i % 2 ^ 32 = b.toNat <<< i := by
    have below : b.toNat * 2 ^ i < 2 ^ 8 * 2 ^ i :=
      Nat.mul_lt_mul_of_pos_right b.toNat_lt (Nat.two_pow_pos i)
    rw [Nat.shiftLeft_eq]
    refine Nat.mod_eq_of_lt (Nat.lt_of_lt_of_le below ?_)
    rw [← Nat.pow_add]
    exact Nat.pow_le_pow_right (by decide) (by omega)
  apply UInt32.toNat_inj.mp
  simp only [UInt32.toNat_or, UInt32.toNat_shiftLeft, UInt8.toNat_toUInt32, UInt32.reduceToNat,
    Nat.reduceMod, BigEndian.value, List.foldl_cons, List.foldl_nil, Nat.toUInt32_eq,
    UInt32.toNat_ofNat', shift _ _ (by decide : 8 ≤ 24), shift _ _ (by decide : 16 ≤ 24),
    shift _ _ (by decide : 24 ≤ 24)]
  rw [or_shiftLeft (a := c.toNat) (by omega), or_shiftLeft (a := b.toNat) (by omega),
    or_shiftLeft (by omega)]
  omega

theorem sha1Get_eq {n : Nat} (inside : n * 4 + 4 ≤ block.length) : sha1Get block n = word block n := by
  have four : (block.drop (4 * n)).take 4 =
      [block[n * 4], block[n * 4 + 1], block[n * 4 + 2], block[n * 4 + 3]] := by
    rw [Nat.mul_comm, List.drop_eq_getElem_cons (by omega), List.drop_eq_getElem_cons (by omega),
      List.drop_eq_getElem_cons (by omega), List.drop_eq_getElem_cons (by omega)]
    rfl
  rw [sha1Get, word, four, ← bytes_or]
  simp only [List.getElem?_eq_getElem (show n * 4 < block.length by omega),
    List.getElem?_eq_getElem (show n * 4 + 1 < block.length by omega),
    List.getElem?_eq_getElem (show n * 4 + 2 < block.length by omega),
    List.getElem?_eq_getElem (show n * 4 + 3 < block.length by omega), Option.getD_some]

theorem schedule_length (t : Nat) : (schedule block t).length = t := by
  induction t with
  | zero => rfl
  | succ t ih => simp [schedule, ih]

theorem schedule_head (whole : block.length = 64) {t : Nat} (le : t ≤ 16) :
    schedule block t = (List.range t).map (sha1Get block) := by
  induction t with
  | zero => rfl
  | succ t ih =>
    rw [schedule, if_pos (by omega), ih (by omega), List.range_succ, List.map_append,
      List.map_singleton, sha1Get_eq (by omega)]

theorem sha1Words_eq (whole : block.length = 64) : sha1Words block = schedule block 80 := by
  have rest (k : Nat) : (List.range' 16 k).foldl (fun words i => words ++ [sha1Word words i])
      ((List.range 16).map (sha1Get block)) = schedule block (16 + k) := by
    induction k with
    | zero => exact (schedule_head whole (Nat.le_refl 16)).symm
    | succ k ih =>
      rw [List.range'_concat, List.foldl_append, ih, Nat.one_mul, ← Nat.add_assoc, schedule,
        if_neg (by omega)]
      rfl
  exact rest 64

/-- Rounds that use one function and one constant. -/
theorem steps_eq {f : UInt32 → UInt32 → UInt32 → UInt32} {k : UInt32} {ws : List UInt32} {n m : Nat}
    (count : ws.length ≤ m) (same : ∀ t, n ≤ t → t < n + m → function t = f ∧ constant t = k) :
    (ws.zipIdx n).foldl nextRound x = ws.foldl (sha1Step f k) x := by
  induction ws generalizing n m x with
  | nil => rfl
  | cons w ws ih =>
    rw [List.length_cons] at count
    obtain ⟨function_eq, constant_eq⟩ := same n (Nat.le_refl n) (by omega)
    have step : nextRound x (w, n) = sha1Step f k x w := by
      simp only [nextRound, function_eq, constant_eq, sha1Step, rotate, rotl, UInt32.add_assoc,
        UInt32.add_comm k w]
    have later : ∀ t, n + 1 ≤ t → t < n + 1 + (m - 1) → function t = f ∧ constant t = k :=
      fun t after before => same t (by omega) (by omega)
    rw [List.zipIdx_cons, List.foldl_cons, List.foldl_cons, step, ih (by omega) later]

theorem group_eq {f : UInt32 → UInt32 → UInt32 → UInt32} {k : UInt32} {ws : List UInt32} (n : Nat)
    {m : Nat} (enough : m ≤ ws.length)
    (same : ∀ t, n ≤ t → t < n + m → function t = f ∧ constant t = k) :
    (ws.zipIdx n).foldl nextRound x =
      ((ws.drop m).zipIdx (n + m)).foldl nextRound ((ws.take m).foldl (sha1Step f k) x) := by
  have count : (ws.take m).length = m := List.length_take_of_le enough
  have split : ws.zipIdx n = (ws.take m).zipIdx n ++ (ws.drop m).zipIdx (n + m) := by
    conv_lhs => rw [← List.take_append_drop m ws, List.zipIdx_append, count]
  rw [split, List.foldl_append, steps_eq (Nat.le_of_eq count) same]

/-- The four groups of twenty rounds. -/
theorem rounds_eq {ws : List UInt32} (count : ws.length = 80) :
    ws.zipIdx.foldl nextRound x =
      ((ws.drop 60).take 20).foldl (sha1Step f2 0xca62c1d6)
        (((ws.drop 40).take 20).foldl (sha1Step f3 0x8f1bbcdc)
          (((ws.drop 20).take 20).foldl (sha1Step f2 0x6ed9eba1)
            (((ws.drop 0).take 20).foldl (sha1Step f1 0x5a827999) x))) := by
  have first : ∀ t, 0 ≤ t → t < 0 + 20 → function t = choose ∧ constant t = 0x5a827999 := by
    intro t _ before
    simp [function, constant, show t < 20 by omega]
  have second : ∀ t, 20 ≤ t → t < 20 + 20 → function t = parity ∧ constant t = 0x6ed9eba1 := by
    intro t after before
    simp [function, constant, show ¬ t < 20 by omega, show t < 40 by omega]
  have third : ∀ t, 40 ≤ t → t < 40 + 20 → function t = majority ∧ constant t = 0x8f1bbcdc := by
    intro t after before
    simp [function, constant, show ¬ t < 20 by omega, show ¬ t < 40 by omega,
      show t < 60 by omega]
  have fourth : ∀ t, 60 ≤ t → t < 60 + 20 → function t = parity ∧ constant t = 0xca62c1d6 := by
    intro t after before
    simp [function, constant, show ¬ t < 20 by omega, show ¬ t < 40 by omega,
      show ¬ t < 60 by omega]
  have left (n : Nat) : (ws.drop n).length = 80 - n := by rw [List.length_drop, count]
  rw [List.drop_zero, f1_eq, f2_eq, f3_eq, group_eq 0 (by omega) first,
    group_eq 20 (by rw [left]; decide) second, List.drop_drop,
    group_eq 40 (by rw [left]; decide) third, List.drop_drop,
    steps_eq (Nat.le_of_eq (left 60)) fourth,
    List.take_of_length_le (Nat.le_of_eq (left 60))]

theorem sha1Block_eq (whole : block.length = 64) : sha1Block x block = compress x block := by
  have count : (schedule block 80).length = 80 := schedule_length 80
  rw [sha1Block, sha1Words_eq whole, ← rounds_eq count, compress]
  simp only [UInt32.add_comm]

end Block

structure Sha1Ctx.Holds (ctx : Sha1Ctx) (message : List UInt8) : Prop where
  bytes : ctx.bytes = message.length.toUInt64
  reads : Reads compress 64 initial message ctx.toChain (cells ctx.buffer 0 (message.length % 64))

section Messages

variable {ctx : Sha1Ctx} {message : List UInt8}

theorem sha1Body_eq (ctx : Sha1Ctx) (data : List UInt8) :
    (ctx.body data).toChain = fold compress 64 ctx.toChain data :=
  fold_congr fun _ _ => sha1Block_eq

theorem body_bytes (data : List UInt8) : (ctx.body data).bytes = ctx.bytes := rfl

theorem sha1Init_holds (ctx : Sha1Ctx) : (sha1Init ctx).Holds [] :=
  ⟨rfl, Reads.nil (by decide)⟩

theorem Sha1Ctx.Holds.used_eq (holds : ctx.Holds message) : ctx.used = message.length % 64 := by
  rw [Sha1Ctx.used, holds.bytes, UInt64.toNat_and]
  change _ &&& (2 ^ 6 - 1) = _
  rw [Nat.and_two_pow_sub_one_eq_mod, Nat.toUInt64_eq, UInt64.toNat_ofNat', Nat.mod_mod_of_dvd]
  decide

theorem bulk_bytes (data : List UInt8) : (ctx.bulk data).bytes = ctx.bytes := by
  unfold Sha1Ctx.bulk
  split <;> rfl

/-- A piece that stays in an empty buffer. -/
theorem fill_reads (reads : Reads compress 64 initial message ctx.toChain []) {data : List UInt8}
    (short : data.length < 64) :
    Reads compress 64 initial (message ++ data) (ctx.fill 0 data).toChain
      (cells (ctx.fill 0 data).buffer 0 ((message ++ data).length % 64)) := by
  have empty : message.length % 64 = 0 := reads.length.symm
  have kept : (message ++ data).length % 64 = 0 + data.length := by
    rw [List.length_append]
    omega
  rw [kept, Sha1Ctx.fill, cells_store_piece]
  exact reads.keep (by simpa using short)

theorem bulk_reads (reads : Reads compress 64 initial message ctx.toChain []) (data : List UInt8) :
    Reads compress 64 initial (message ++ data) (ctx.bulk data).toChain
      (cells (ctx.bulk data).buffer 0 ((message ++ data).length % 64)) := by
  unfold Sha1Ctx.bulk
  split
  next long =>
    have whole : (data.take (data.length - data.length % 64)).length =
        data.length - data.length % 64 := List.length_take_of_le (by omega)
    have rest : (data.drop (data.length - data.length % 64)).length < 64 := by
      rw [List.length_drop]
      omega
    have complete : Reads compress 64 initial (message ++ data.take (data.length - data.length % 64))
        (ctx.body (data.take (data.length - data.length % 64))).toChain [] := by
      rw [sha1Body_eq]
      refine reads.complete ?_
      rw [List.nil_append, whole]
      exact Nat.dvd_sub_mod _
    have kept := fill_reads complete rest
    rw [List.append_assoc, List.take_append_drop] at kept
    exact kept
  next short => exact fill_reads reads (by omega)

theorem sha1Update_holds (holds : ctx.Holds message) (data : List UInt8) :
    (sha1Update ctx data).Holds (message ++ data) := by
  have used := holds.used_eq
  have bytes : ctx.bytes + data.length.toUInt64 = (message ++ data).length.toUInt64 := by
    rw [holds.bytes, List.length_append]
    simp
  have reads := holds.reads
  unfold sha1Update
  dsimp only
  split
  next some =>
    rw [used] at some ⊢
    split
    next short =>
      have kept : (message ++ data).length % 64 = message.length % 64 + data.length := by
        rw [List.length_append]
        omega
      refine ⟨bytes, ?_⟩
      rw [kept, Sha1Ctx.fill, cells_store_through _ (Nat.zero_le _) rfl]
      exact reads.keep (by rw [cells_length]; omega)
    next long =>
      have first : (data.take (64 - message.length % 64)).length = 64 - message.length % 64 :=
        List.length_take_of_le (by omega)
      have block : cells (store ctx.buffer (message.length % 64)
          (data.take (64 - message.length % 64))) 0 64 =
          cells ctx.buffer 0 (message.length % 64) ++ data.take (64 - message.length % 64) :=
        cells_store_through _ (Nat.zero_le _) (by omega)
      have complete : Reads compress 64 initial (message ++ data.take (64 - message.length % 64))
          (fold compress 64 ctx.toChain (cells ctx.buffer 0 (message.length % 64) ++
            data.take (64 - message.length % 64))) [] := by
        refine reads.complete ?_
        rw [List.length_append, cells_length, first]
        omega
      rw [← block] at complete
      refine ⟨?_, ?_⟩
      · rw [bulk_bytes]
        exact bytes
      · have split : message ++ data = message ++ data.take (64 - message.length % 64) ++
            data.drop (64 - message.length % 64) := by
          rw [List.append_assoc, List.take_append_drop]
        rw [split]
        refine bulk_reads ?_ _
        rw [sha1Body_eq]
        exact complete
  next none =>
    rw [used, not_not] at none
    rw [none] at reads
    refine ⟨?_, ?_⟩
    · rw [bulk_bytes, bytes]
    · refine bulk_reads ?_ data
      exact reads

theorem wordBytes_eq (w : UInt32) : wordBytes w = BigEndian.bytes 4 w.toNat := by
  simp only [wordBytes, BigEndian.bytes, List.cons.injEq, and_true]
  refine ⟨?_, ?_, ?_, ?_⟩ <;>
  · apply UInt8.toNat_inj.mp
    simp

theorem lengthBytes_eq (n : Nat) : lengthBytes (n.toUInt64 <<< 3) = BigEndian.bytes 8 (n * 8) := by
  simp only [lengthBytes, BigEndian.bytes, List.cons.injEq, and_true]
  refine ⟨?_, ?_, ?_, ?_, ?_, ?_, ?_, ?_⟩ <;>
  · apply UInt8.toNat_inj.mp
    simp
    omega

/-- The message with one bit behind it, and room for the length. -/
theorem closeBlock_reads (holds : ctx.Holds message) :
    ∃ zeros, Reads compress 64 initial (message ++ 0x80 :: List.replicate zeros 0)
        ctx.closeBlock.1.toChain (cells ctx.closeBlock.1.buffer 0 ctx.closeBlock.2) ∧
      zeros + (56 - ctx.closeBlock.2) = (119 - message.length % 64) % 64 ∧
      ctx.closeBlock.2 ≤ 56 ∧ ctx.closeBlock.1.bytes = ctx.bytes := by
  have reads := holds.reads
  rw [Sha1Ctx.closeBlock, holds.used_eq]
  have short : message.length % 64 < 64 := Nat.mod_lt _ (by decide)
  generalize message.length % 64 = used at reads short ⊢
  have marked : cells (store ctx.buffer used [0x80]) 0 (used + 1) =
      cells ctx.buffer 0 used ++ [0x80] := cells_store_through _ (Nat.zero_le _) rfl
  dsimp only
  split
  next crowded =>
    have block : cells (store (store ctx.buffer used [0x80]) (used + 1)
        (List.replicate (64 - (used + 1)) 0)) 0 64 =
        cells ctx.buffer 0 used ++ 0x80 :: List.replicate (64 - (used + 1)) 0 := by
      rw [cells_store_through _ (Nat.zero_le _) (by rw [List.length_replicate]; omega), marked,
        List.append_assoc]
      rfl
    refine ⟨64 - (used + 1), ?_, by omega, by omega, body_bytes _⟩
    dsimp only
    rw [sha1Body_eq]
    dsimp only [Sha1Ctx.fill]
    rw [block]
    refine reads.complete ?_
    rw [← block, cells_length]
  next roomy =>
    refine ⟨0, ?_, by omega, by omega, rfl⟩
    dsimp only [Sha1Ctx.fill]
    rw [marked]
    refine reads.keep ?_
    rw [cells_length]
    change used - 0 + 1 < 64
    omega

theorem sha1Final_eq (holds : ctx.Holds message) : sha1Final ctx = Sha1.hash message := by
  obtain ⟨zeros, reads, count, room, bytes⟩ := closeBlock_reads holds
  rw [holds.bytes] at bytes
  rw [sha1Final]
  generalize ctx.closeBlock = closed at reads count room bytes ⊢
  obtain ⟨closed, used⟩ := closed
  dsimp only at reads count room bytes ⊢
  have length := BigEndian.bytes_length 8 (message.length * 8)
  have block : cells (store (store closed.buffer used (List.replicate (64 - used - 8) 0)) 56
      (BigEndian.bytes 8 (message.length * 8))) 0 64 =
      cells closed.buffer 0 used ++ (List.replicate (64 - used - 8) 0 ++
        BigEndian.bytes 8 (message.length * 8)) := by
    rw [cells_store_through _ (Nat.zero_le _) (by rw [length]),
      cells_store_through _ (Nat.zero_le _) (by rw [List.length_replicate]; omega),
      List.append_assoc]
  have whole : 64 ∣ (cells closed.buffer 0 used ++ (List.replicate (64 - used - 8) 0 ++
      BigEndian.bytes 8 (message.length * 8))).length := by
    rw [← block, cells_length]
  have complete := (reads.complete whole).state
  have padded : message ++ 0x80 :: List.replicate zeros 0 ++ (List.replicate (64 - used - 8) 0 ++
      BigEndian.bytes 8 (message.length * 8)) = pad message := by
    rw [pad, ← count, show 64 - used - 8 = 56 - used by omega, ← List.replicate_append_replicate]
    simp only [List.append_assoc, List.cons_append]
  rw [padded, ← block] at complete
  dsimp only [Sha1Ctx.fill]
  rw [Sha1.hash, ← complete, bytes, lengthBytes_eq, sha1Body_eq]
  simp only [wordBytes_eq, Chain.bytes, List.flatMap_cons, List.flatMap_nil, List.append_nil,
    List.append_assoc]

/-- The digest is the SHA-1 of the pieces put together, however the message was cut. -/
theorem sha1_digest (ctx : Sha1Ctx) (pieces : List (List UInt8)) :
    sha1Final (pieces.foldl sha1Update (sha1Init ctx)) = Sha1.hash pieces.flatten := by
  have holds {ctx : Sha1Ctx} {message : List UInt8} (pieces : List (List UInt8))
      (before : ctx.Holds message) : (pieces.foldl sha1Update ctx).Holds (message ++ pieces.flatten) := by
    induction pieces generalizing ctx message with
    | nil => simpa using before
    | cons piece pieces ih =>
      rw [List.foldl_cons, List.flatten_cons, ← List.append_assoc]
      exact ih (sha1Update_holds before piece)
  exact sha1Final_eq (holds pieces (sha1Init_holds ctx))

end Messages

end Ngx
