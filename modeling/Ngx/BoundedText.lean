import Mathlib.Logic.Function.Basic
import Mathlib.Data.List.Basic

/-! Writing text up to a limit. A printer that is cut off at any limit leaves a prefix of one text;
such printers compose, and the limit never shows in what is written before it. -/
namespace BoundedText

structure Out where
  mem : Nat → UInt8
  buf : Nat

def Out.put (o : Out) (ch : UInt8) : Out := ⟨Function.update o.mem o.buf ch, o.buf + 1⟩

def Out.copy (o : Out) (text : List UInt8) : Out := text.foldl Out.put o

@[simp] theorem Out.copy_nil (o : Out) : o.copy [] = o := rfl

@[simp] theorem Out.copy_cons (o : Out) (ch : UInt8) (text : List UInt8) :
    o.copy (ch :: text) = (o.put ch).copy text := rfl

theorem Out.copy_append (o : Out) (first second : List UInt8) :
    o.copy (first ++ second) = (o.copy first).copy second := List.foldl_append

@[simp] theorem Out.put_buf (o : Out) (ch : UInt8) : (o.put ch).buf = o.buf + 1 := rfl

@[simp] theorem Out.copy_buf (o : Out) (text : List UInt8) :
    (o.copy text).buf = o.buf + text.length := by
  induction text generalizing o with
  | nil => rfl
  | cons ch text ih =>
    rw [copy_cons, ih, put_buf, List.length_cons]
    omega

/-- Nothing else is written. -/
theorem Out.copy_outside {o : Out} {text : List UInt8} {a : Nat}
    (outside : a < o.buf ∨ o.buf + text.length ≤ a) : (o.copy text).mem a = o.mem a := by
  induction text generalizing o with
  | nil => rfl
  | cons ch text ih =>
    have other : a ≠ o.buf := by
      simp only [List.length_cons] at outside
      omega
    rw [copy_cons, ih (by simp only [List.length_cons, put_buf] at *; omega)]
    exact Function.update_of_ne other _ _

theorem Out.copy_inside {o : Out} {text : List UInt8} {i : Nat} (inside : i < text.length) :
    (o.copy text).mem (o.buf + i) = text[i] := by
  induction text generalizing o i with
  | nil => simp at inside
  | cons ch text ih =>
    cases i with
    | zero =>
      rw [copy_cons, copy_outside (.inl (by simp))]
      exact Function.update_self _ _ _
    | succ i =>
      have later := ih (o := o.put ch) (Nat.lt_of_succ_lt_succ inside)
      rw [put_buf, Nat.add_right_comm, Nat.add_assoc] at later
      exact later

/-- Whatever the memory, and wherever the limit is, the printer writes the text up to the limit. -/
def Prints (print : Nat → Out → Option Out) (text : List UInt8) : Prop :=
  ∀ last o, o.buf ≤ last → print last o = some (o.copy (text.take (last - o.buf)))

/-- The same for a printer that is called only before the limit and need not look at it first. -/
def PrintsBefore (print : Nat → Out → Option Out) (text : List UInt8) : Prop :=
  ∀ last o, o.buf < last → print last o = some (o.copy (text.take (last - o.buf)))

variable {print next : Nat → Out → Option Out} {text rest : List UInt8} {last : Nat} {o : Out}

theorem Prints.before (prints : Prints print text) : PrintsBefore print text :=
  fun last o room => prints last o (Nat.le_of_lt room)

theorem Prints.nil : Prints (fun _ o => some o) [] := by
  simp [Prints]

/-- There is room for all of it. -/
theorem Prints.all (prints : Prints print text) (room : o.buf + text.length ≤ last) :
    print last o = some (o.copy text) := by
  rw [prints last o (by omega), List.take_of_length_le (by omega)]

/-- A byte that is written without a look at the limit, and a printer after it. -/
theorem Prints.cons (prints : Prints print text) (ch : UInt8) :
    PrintsBefore (fun last o => print last (o.put ch)) (ch :: text) := by
  intro last o room
  have left : last - o.buf = last - (o.put ch).buf + 1 := by
    rw [Out.put_buf]
    omega
  rw [left, List.take_succ_cons, Out.copy_cons]
  exact prints last (o.put ch) room

theorem Prints.after (second : Prints next rest) (room : o.buf ≤ last)
    (first : print last o = some (o.copy (text.take (last - o.buf)))) :
    (print last o).bind (next last) = some (o.copy ((text ++ rest).take (last - o.buf))) := by
  have written : (o.copy (text.take (last - o.buf))).buf ≤ last := by
    rw [Out.copy_buf, List.length_take]
    omega
  have left : last - (o.copy (text.take (last - o.buf))).buf = last - o.buf - text.length := by
    rw [Out.copy_buf, List.length_take]
    omega
  rw [first, Option.bind_some, second _ _ written, left, ← Out.copy_append, ← List.take_append]

/-- One printer after the other. -/
theorem Prints.append (first : Prints print text) (second : Prints next rest) :
    Prints (fun last o => (print last o).bind (next last)) (text ++ rest) :=
  fun last o room => second.after room (first last o room)

theorem PrintsBefore.append (first : PrintsBefore print text) (second : Prints next rest) :
    PrintsBefore (fun last o => (print last o).bind (next last)) (text ++ rest) :=
  fun last o room => second.after (Nat.le_of_lt room) (first last o room)

/-- A loop that looks at the limit before each round writes nothing more once it is reached. -/
theorem PrintsBefore.guarded (begins : PrintsBefore print text) :
    Prints (fun last o => if o.buf < last then print last o else some o) text := by
  intro last o room
  by_cases before : o.buf < last
  · simp only [before, if_true]
    exact begins last o before
  · have full : last - o.buf = 0 := by omega
    simp [before, full]

end BoundedText
