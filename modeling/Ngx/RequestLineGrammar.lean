import Ngx.RequestLine

/-! The request lines that are accepted, as a grammar, and what is found in them. A line ends with
its first line feed, so that a state is described by what it accepts before a line feed. -/
namespace Ngx.Http

open ByteLoop Resumable

/-- `(CR|LF)* 'GET' SP+ '/' U* SP+ 'HTTP/1.' D+ SP* CR?` with a minor version that the parser can
hold. The counts of spaces that cannot be missing are those of the further ones. -/
structure HttpLine where
  breaks : List UInt8
  spaces : Nat
  uri : List UInt8
  uriSpaces : Nat
  minor : List UInt8
  trailing : Nat
  endsCr : Bool
  only_breaks : ∀ b ∈ breaks, b = cr ∨ b = lf
  uri_bytes : ∀ b ∈ uri, b ≠ byte ' ' ∧ b ≠ cr ∧ b ≠ lf ∧ b ≠ 0
  minor_nonempty : minor ≠ []
  minor_digits : ∀ b ∈ minor, Decimal.isDigit b = true
  minor_le : Decimal.value minor ≤ 999

structure GetLine extends HttpLine where
  minor_positive : 1 ≤ Decimal.value minor

def spaceRun (n : Nat) : List UInt8 := List.replicate n (byte ' ')

/-- `SP* CR?`. -/
def lineEnd (n : Nat) (endsCr : Bool) : List UInt8 := spaceRun n ++ if endsCr then [cr] else []

def HttpLine.text (l : HttpLine) : List UInt8 :=
  l.breaks ++ ascii "GET" ++ spaceRun (l.spaces + 1) ++ byte '/' :: l.uri ++
    spaceRun (l.uriSpaces + 1) ++ ascii "HTTP/1." ++ l.minor ++ lineEnd l.trailing l.endsCr

def Accepts (c : RequestLineCursor) (xs : List UInt8) : Prop :=
  ∃ r p, (xs ++ [lf]).foldlM lineByte c = .error (.done r p) ∧ (requestLineDone r p).1 = .ok

section States

variable {r : RequestLine} {state state' : RequestLineState} {q : Nat} {xs : List UInt8}
  {c : RequestLineCursor} {x : UInt8}

theorem done_lf {p : Nat} (done : lineByte c x = .error (.done r p)) : x = lf := by
  by_cases method : c.state = .method
  · rw [lineByte, if_neg (not_ne_iff.mpr method)] at done
    repeat' split at done
    all_goals cases done
  · rw [lineByte, if_pos method] at done
    obtain ⟨r₀, state, p₀⟩ := c
    cases state with
    | method => exact (method rfl).elim
    | _ =>
      simp only [requestLineRound, RequestLine.expect] at done
      repeat' split at done
      all_goals cases done
      all_goals assumption

theorem accepts_nil (accepts : Accepts c []) :
    ∃ r p, lineByte c lf = .error (.done r p) ∧ (requestLineDone r p).1 = .ok := by
  obtain ⟨r, p, folded, code⟩ := accepts
  refine ⟨r, p, ?_, code⟩
  rw [List.nil_append, List.foldlM_cons] at folded
  cases moved : lineByte c lf with
  | error e =>
    rw [moved] at folded
    exact folded
  | ok c₁ =>
    rw [moved] at folded
    cases folded

theorem accepts_cons (other : x ≠ lf) (accepts : Accepts c (x :: xs)) :
    ∃ c₁, lineByte c x = .ok c₁ ∧ Accepts c₁ xs := by
  obtain ⟨r, p, folded, code⟩ := accepts
  rw [List.cons_append, List.foldlM_cons] at folded
  cases moved : lineByte c x with
  | error e =>
    rw [moved] at folded
    cases folded
    exact (other (done_lf moved)).elim
  | ok c₁ =>
    rw [moved] at folded
    exact ⟨c₁, rfl, r, p, folded, code⟩

theorem almostDone_sound (clear : lf ∉ xs) (accepts : Accepts ⟨r, .almostDone, q⟩ xs) : xs = [] := by
  cases xs with
  | nil => rfl
  | cons x xs =>
    have other : x ≠ lf := fun same => clear (same ▸ List.mem_cons_self)
    obtain ⟨c₁, moved, -⟩ := accepts_cons other accepts
    change (if x = lf then _ else _) = _ at moved
    rw [if_neg other] at moved
    cases moved

theorem spacesAfterDigit_sound (clear : lf ∉ xs) (accepts : Accepts ⟨r, .spacesAfterDigit, q⟩ xs) :
    ∃ n endsCr, xs = lineEnd n endsCr := by
  induction xs generalizing q with
  | nil => exact ⟨0, false, rfl⟩
  | cons x xs ih =>
    rw [List.mem_cons, not_or] at clear
    obtain ⟨c₁, moved, rest⟩ := accepts_cons (Ne.symm clear.1) accepts
    change (if x = byte ' ' then _ else if x = cr then _ else if x = lf then _ else _) = _ at moved
    split at moved
    next space =>
      cases moved
      obtain ⟨n, endsCr, rfl⟩ := ih clear.2 rest
      exact ⟨n + 1, endsCr, by rw [space]; rfl⟩
    · split at moved
      next carriage =>
        cases moved
        rw [carriage, almostDone_sound clear.2 rest]
        exact ⟨0, true, rfl⟩
      · split at moved <;> cases moved

def valueFrom (n : Nat) (ds : List UInt8) : Nat := ds.foldl (fun n ch => 10 * n + (ch.toNat - 48)) n

theorem digitValue_eq (digit : Decimal.isDigit x = true) : digitValue x = x.toNat - 48 := by
  rw [Decimal.isDigit, Bool.and_eq_true, decide_eq_true_eq, decide_eq_true_eq] at digit
  exact UInt8.toNat_sub_of_le _ _ digit.1

theorem digitValue_le (digit : Decimal.isDigit x = true) : x.toNat - 48 ≤ 9 := by
  rw [Decimal.isDigit, Bool.and_eq_true, decide_eq_true_eq, decide_eq_true_eq,
    UInt8.le_iff_toNat_le, UInt8.le_iff_toNat_le] at digit
  have upper : x.toNat ≤ 57 := digit.2
  omega

theorem minorDigit_sound (clear : lf ∉ xs) (accepts : Accepts ⟨r, .minorDigit, q⟩ xs) :
    ∃ ds n endsCr, xs = ds ++ lineEnd n endsCr ∧ (∀ d ∈ ds, Decimal.isDigit d = true) ∧
      (ds ≠ [] → valueFrom r.httpMinor ds ≤ 999) := by
  induction xs generalizing q r with
  | nil => exact ⟨[], 0, false, rfl, nofun, nofun⟩
  | cons x xs ih =>
    rw [List.mem_cons, not_or] at clear
    obtain ⟨c₁, moved, rest⟩ := accepts_cons (Ne.symm clear.1) accepts
    change (if x = cr then _ else if x = lf then _ else if x = byte ' ' then _
      else if ¬ Decimal.isDigit x = true then _ else if 99 < r.httpMinor then _ else _) = _ at moved
    split at moved
    next carriage =>
      cases moved
      rw [carriage, almostDone_sound clear.2 rest]
      exact ⟨[], 0, true, rfl, nofun, nofun⟩
    split at moved
    · cases moved
    split at moved
    next space =>
      cases moved
      obtain ⟨n, endsCr, rfl⟩ := spacesAfterDigit_sound clear.2 rest
      exact ⟨[], n + 1, endsCr, by rw [space]; rfl, nofun, nofun⟩
    split at moved
    · cases moved
    next digit =>
      rw [Bool.not_eq_true, Bool.not_eq_false] at digit
      split at moved
      · cases moved
      next small =>
        cases moved
        obtain ⟨ds, n, endsCr, rfl, digits, bound⟩ := ih clear.2 rest
        refine ⟨x :: ds, n, endsCr, rfl, List.forall_mem_cons.mpr ⟨digit, digits⟩, fun _ => ?_⟩
        have le := digitValue_le digit
        rw [digitValue_eq digit] at bound
        change valueFrom (10 * r.httpMinor + (x.toNat - 48)) ds ≤ 999
        cases ds with
        | nil =>
          change 10 * r.httpMinor + (x.toNat - 48) ≤ 999
          omega
        | cons d ds =>
          rw [Nat.mul_comm 10]
          exact bound (List.cons_ne_nil _ _)

/-- A state that lets one byte through. -/
theorem expect_sound {expected : UInt8} (clear : lf ∉ xs) (other : expected ≠ lf)
    (expects : ∀ ch, lineByte ⟨r, state, q⟩ ch = r.expect expected state' ch q)
    (accepts : Accepts ⟨r, state, q⟩ xs) :
    ∃ ys, xs = expected :: ys ∧ Accepts ⟨r, state', q + 1⟩ ys := by
  cases xs with
  | nil =>
    obtain ⟨r', p, done, -⟩ := accepts_nil accepts
    rw [expects, RequestLine.expect, if_neg (Ne.symm other)] at done
    cases done
  | cons x xs =>
    rw [List.mem_cons, not_or] at clear
    obtain ⟨c₁, moved, rest⟩ := accepts_cons (Ne.symm clear.1) accepts
    rw [expects, RequestLine.expect] at moved
    split at moved
    next same =>
      cases moved
      exact ⟨xs, by rw [same], rest⟩
    · cases moved

theorem firstMinorDigit_sound (clear : lf ∉ xs) (accepts : Accepts ⟨r, .firstMinorDigit, q⟩ xs) :
    ∃ ds n endsCr, xs = ds ++ lineEnd n endsCr ∧ ds ≠ [] ∧
      (∀ d ∈ ds, Decimal.isDigit d = true) ∧ Decimal.value ds ≤ 999 := by
  cases xs with
  | nil =>
    obtain ⟨r', p, done, -⟩ := accepts_nil accepts
    cases done
  | cons x xs =>
    rw [List.mem_cons, not_or] at clear
    obtain ⟨c₁, moved, rest⟩ := accepts_cons (Ne.symm clear.1) accepts
    change (if ¬ Decimal.isDigit x = true then _ else _) = _ at moved
    split at moved
    · cases moved
    next digit =>
      rw [Bool.not_eq_true, Bool.not_eq_false] at digit
      cases moved
      obtain ⟨ds, n, endsCr, rfl, digits, bound⟩ := minorDigit_sound clear.2 rest
      refine ⟨x :: ds, n, endsCr, rfl, List.cons_ne_nil _ _,
        List.forall_mem_cons.mpr ⟨digit, digits⟩, ?_⟩
      change valueFrom (10 * 0 + (x.toNat - 48)) ds ≤ 999
      have le := digitValue_le digit
      cases ds with
      | nil =>
        change 10 * 0 + (x.toNat - 48) ≤ 999
        omega
      | cons d ds =>
        rw [Nat.mul_zero, Nat.zero_add, ← digitValue_eq digit]
        exact bound (List.cons_ne_nil _ _)

theorem majorDigit_sound (clear : lf ∉ xs) (one : r.httpMajor = 1)
    (accepts : Accepts ⟨r, .majorDigit, q⟩ xs) :
    ∃ ys, xs = byte '.' :: ys ∧ Accepts ⟨r, .firstMinorDigit, q + 1⟩ ys := by
  cases xs with
  | nil =>
    obtain ⟨r', p, done, -⟩ := accepts_nil accepts
    cases done
  | cons x xs =>
    rw [List.mem_cons, not_or] at clear
    obtain ⟨c₁, moved, rest⟩ := accepts_cons (Ne.symm clear.1) accepts
    change (if x = byte '.' then _ else if ¬ Decimal.isDigit x = true then _
      else if 1 < r.httpMajor * 10 + digitValue x then _ else _) = _ at moved
    split at moved
    next dot =>
      cases moved
      exact ⟨xs, by rw [dot], rest⟩
    · rw [one, if_pos (show 1 < 1 * 10 + digitValue x by omega)] at moved
      split at moved <;> cases moved

theorem firstMajorDigit_sound (clear : lf ∉ xs) (accepts : Accepts ⟨r, .firstMajorDigit, q⟩ xs) :
    ∃ ys, xs = byte '1' :: ys ∧ Accepts ⟨{ r with httpMajor := 1 }, .majorDigit, q + 1⟩ ys := by
  cases xs with
  | nil =>
    obtain ⟨r', p, done, -⟩ := accepts_nil accepts
    cases done
  | cons x xs =>
    rw [List.mem_cons, not_or] at clear
    obtain ⟨c₁, moved, rest⟩ := accepts_cons (Ne.symm clear.1) accepts
    change (if x < byte '1' ∨ byte '9' < x then _ else if 1 < digitValue x then _ else _) = _ at moved
    split at moved
    · cases moved
    next digit =>
      split at moved
      · cases moved
      next small =>
        rw [not_or, UInt8.not_lt, UInt8.not_lt] at digit
        have le : byte '0' ≤ x := UInt8.le_trans (by decide) digit.1
        have value : digitValue x = x.toNat - 48 := UInt8.toNat_sub_of_le _ _ le
        have lower : 49 ≤ x.toNat := UInt8.le_iff_toNat_le.mp digit.1
        have same : x = byte '1' := by
          apply UInt8.toNat_inj.mp
          change x.toNat = 49
          omega
        have one : digitValue x = 1 := by omega
        cases moved
        simp only [one] at rest
        exact ⟨xs, by rw [same], rest⟩

theorem httpH_sound (clear : lf ∉ xs) (accepts : Accepts ⟨r, .httpH, q⟩ xs) :
    ∃ ds n endsCr, xs = ascii "TTP/1." ++ ds ++ lineEnd n endsCr ∧ ds ≠ [] ∧
      (∀ d ∈ ds, Decimal.isDigit d = true) ∧ Decimal.value ds ≤ 999 := by
  have tail {ys zs : List UInt8} {e : UInt8} (clear : lf ∉ ys) (same : ys = e :: zs) : lf ∉ zs :=
    fun member => clear (same ▸ List.mem_cons_of_mem _ member)
  obtain ⟨ys₁, first, rest⟩ := expect_sound clear (by decide) (fun _ => rfl) accepts
  obtain ⟨ys₂, second, rest⟩ := expect_sound (tail clear first) (by decide) (fun _ => rfl) rest
  have clear₂ := tail (tail clear first) second
  obtain ⟨ys₃, third, rest⟩ := expect_sound clear₂ (by decide) (fun _ => rfl) rest
  obtain ⟨ys₄, fourth, rest⟩ := expect_sound (tail clear₂ third) (by decide) (fun _ => rfl) rest
  have clear₄ := tail (tail clear₂ third) fourth
  obtain ⟨ys₅, fifth, rest⟩ := firstMajorDigit_sound clear₄ rest
  obtain ⟨ys₆, sixth, rest⟩ := majorDigit_sound (tail clear₄ fifth) rfl rest
  obtain ⟨ds, n, endsCr, last, all⟩ := firstMinorDigit_sound (tail (tail clear₄ fifth) sixth) rest
  refine ⟨ds, n, endsCr, ?_, all⟩
  rw [first, second, third, fourth, fifth, sixth, last]
  rfl

theorem requestLineDone_iff {p : Nat} :
    (requestLineDone r p).1 = .ok ↔
      1001 ≤ r.httpMajor * 1000 + r.httpMinor ∧ r.method = .get := by
  have code (r' : RequestLine) :
      (if r'.httpMajor * 1000 + r'.httpMinor < 1001 ∨ r'.method ≠ .get then ParseCode.invalidVersion
        else .ok) = .ok ↔ 1001 ≤ r'.httpMajor * 1000 + r'.httpMinor ∧ r'.method = .get := by
    split
    next wrong =>
      refine iff_of_false nofun fun right => ?_
      rcases wrong with old | other
      · omega
      · exact other right.2
    next right =>
      rw [not_or, not_ne_iff, Nat.not_lt] at right
      exact iff_of_true rfl right
  unfold requestLineDone
  dsimp only
  split
  · exact code _
  · exact code _

/-- A line without a version is one of HTTP/0.9, which is refused. -/
theorem old_version {p : Nat} (major : r.httpMajor = 0) (minor : r.httpMinor = 9) :
    (requestLineDone r p).1 ≠ .ok := by
  intro code
  have version := (requestLineDone_iff.mp code).1
  omega

theorem almostDone_refused (clear : lf ∉ xs) (major : r.httpMajor = 0) (minor : r.httpMinor = 9) :
    ¬ Accepts ⟨r, .almostDone, q⟩ xs := by
  intro accepts
  have nothing := almostDone_sound clear accepts
  subst nothing
  obtain ⟨r', p, done, code⟩ := accepts_nil accepts
  cases done
  exact old_version (by exact major) (by exact minor) code

theorem checkUriHttp09_sound (clear : lf ∉ xs) (major : r.httpMajor = 0)
    (accepts : Accepts ⟨r, .checkUriHttp09, q⟩ xs) :
    ∃ k ds n endsCr, xs = spaceRun k ++ ascii "HTTP/1." ++ ds ++ lineEnd n endsCr ∧ ds ≠ [] ∧
      (∀ d ∈ ds, Decimal.isDigit d = true) ∧ Decimal.value ds ≤ 999 := by
  induction xs generalizing q with
  | nil =>
    obtain ⟨r', p, done, code⟩ := accepts_nil accepts
    cases done
    exact (old_version (by exact major) rfl code).elim
  | cons x xs ih =>
    rw [List.mem_cons, not_or] at clear
    obtain ⟨c₁, moved, rest⟩ := accepts_cons (Ne.symm clear.1) accepts
    change (if x = byte ' ' then _ else if x = cr then _ else if x = lf then _
      else if x = byte 'H' then _ else _) = _ at moved
    split at moved
    next space =>
      cases moved
      obtain ⟨k, ds, n, endsCr, rfl, all⟩ := ih clear.2 rest
      exact ⟨k + 1, ds, n, endsCr, by rw [space]; rfl, all⟩
    split at moved
    · cases moved
      exact (almostDone_refused clear.2 (by exact major) rfl rest).elim
    split at moved
    · cases moved
    split at moved
    next letter =>
      cases moved
      obtain ⟨ds, n, endsCr, rfl, all⟩ := httpH_sound clear.2 rest
      exact ⟨0, ds, n, endsCr, by rw [letter]; rfl, all⟩
    · cases moved

theorem afterSlashInUri_sound (clear : lf ∉ xs) (major : r.httpMajor = 0)
    (accepts : Accepts ⟨r, .afterSlashInUri, q⟩ xs) :
    ∃ uri k ds n endsCr, xs = uri ++ spaceRun (k + 1) ++ ascii "HTTP/1." ++ ds ++ lineEnd n endsCr ∧
      (∀ b ∈ uri, b ≠ byte ' ' ∧ b ≠ cr ∧ b ≠ lf ∧ b ≠ 0) ∧ ds ≠ [] ∧
      (∀ d ∈ ds, Decimal.isDigit d = true) ∧ Decimal.value ds ≤ 999 := by
  induction xs generalizing q with
  | nil =>
    obtain ⟨r', p, done, code⟩ := accepts_nil accepts
    cases done
    exact (old_version (by exact major) rfl code).elim
  | cons x xs ih =>
    rw [List.mem_cons, not_or] at clear
    obtain ⟨c₁, moved, rest⟩ := accepts_cons (Ne.symm clear.1) accepts
    change (if x = byte ' ' then _ else if x = cr then _ else if x = lf then _
      else if x = 0 then _ else _) = _ at moved
    split at moved
    next space =>
      cases moved
      obtain ⟨k, ds, n, endsCr, rfl, all⟩ := checkUriHttp09_sound clear.2 (by exact major) rest
      exact ⟨[], k, ds, n, endsCr, by rw [space]; rfl, nofun, all⟩
    next space =>
    split at moved
    · cases moved
      exact (almostDone_refused clear.2 (by exact major) rfl rest).elim
    next carriage =>
    split at moved
    · cases moved
    split at moved
    · cases moved
    next nul =>
      cases moved
      obtain ⟨uri, k, ds, n, endsCr, rfl, bytes, all⟩ := ih clear.2 rest
      exact ⟨x :: uri, k, ds, n, endsCr, rfl,
        List.forall_mem_cons.mpr ⟨⟨space, carriage, Ne.symm clear.1, nul⟩, bytes⟩, all⟩

theorem spacesBeforeUri_sound (clear : lf ∉ xs) (accepts : Accepts ⟨r, .spacesBeforeUri, q⟩ xs) :
    ∃ k ys q', xs = spaceRun k ++ byte '/' :: ys ∧
      Accepts ⟨{ r with uriStart := q' }, .afterSlashInUri, q' + 1⟩ ys := by
  induction xs generalizing q with
  | nil =>
    obtain ⟨r', p, done, -⟩ := accepts_nil accepts
    cases done
  | cons x xs ih =>
    rw [List.mem_cons, not_or] at clear
    obtain ⟨c₁, moved, rest⟩ := accepts_cons (Ne.symm clear.1) accepts
    change (if x = byte '/' then _ else RequestLine.expect _ _ x r q) = _ at moved
    split at moved
    next slash =>
      cases moved
      exact ⟨0, xs, q, by rw [slash]; rfl, rest⟩
    · rw [RequestLine.expect] at moved
      split at moved
      next space =>
        cases moved
        obtain ⟨k, ys, q', rfl, later⟩ := ih clear.2 rest
        exact ⟨k + 1, ys, q', by rw [space]; rfl, later⟩
      · cases moved

theorem method_sound (clear : lf ∉ xs) (method : c.state = .method)
    (start : c.p = c.r.requestStart + 1) (accepts : Accepts c xs) :
    ∃ ys, xs = byte 'E' :: byte 'T' :: byte ' ' :: ys ∧ Accepts c.pastMethod ys := by
  obtain ⟨r', p, folded, code⟩ := accepts
  rcases xs with _ | ⟨e, _ | ⟨t, _ | ⟨s, ys⟩⟩⟩
  · rw [List.nil_append, one_byte method start, if_neg (by decide)] at folded
    cases folded
  · rw [List.cons_append, List.nil_append, two_bytes method start, if_neg fun both =>
      absurd both.2 (by decide)] at folded
    cases folded
  · rw [List.cons_append, List.cons_append, List.nil_append, three_bytes method start,
      if_neg fun all => absurd all.2.2 (by decide)] at folded
    cases folded
  · simp only [List.cons_append] at folded
    rw [three_bytes method start] at folded
    split at folded
    next all =>
      exact ⟨ys, by rw [all.1, all.2.1, all.2.2], r', p, folded, code⟩
    · cases folded

/-- What is accepted after the line breaks. -/
theorem line_sound (clear : lf ∉ xs) (major : r.httpMajor = 0) (first : xs.head? ≠ some cr)
    (accepts : Accepts ⟨r, .start, q⟩ xs) :
    ∃ spaces uri k ds n endsCr,
      xs = ascii "GET" ++ spaceRun (spaces + 1) ++ byte '/' :: uri ++ spaceRun (k + 1) ++
        ascii "HTTP/1." ++ ds ++ lineEnd n endsCr ∧
      (∀ b ∈ uri, b ≠ byte ' ' ∧ b ≠ cr ∧ b ≠ lf ∧ b ≠ 0) ∧ ds ≠ [] ∧
      (∀ d ∈ ds, Decimal.isDigit d = true) ∧ Decimal.value ds ≤ 999 := by
  cases xs with
  | nil =>
    obtain ⟨r', p, done, -⟩ := accepts_nil accepts
    cases done
  | cons x xs =>
    rw [List.mem_cons, not_or] at clear
    obtain ⟨c₁, moved, rest⟩ := accepts_cons (Ne.symm clear.1) accepts
    change (if x = cr ∨ x = lf then _ else if x ≠ byte 'G' then _ else _) = _ at moved
    split at moved
    next line_break =>
      rcases line_break with carriage | feed
      · exact (first (by rw [carriage]; rfl)).elim
      · exact (clear.1 feed.symm).elim
    split at moved
    · cases moved
    next letter =>
      rw [not_ne_iff] at letter
      cases moved
      obtain ⟨ys, rfl, past⟩ := method_sound clear.2 rfl rfl rest
      simp only [List.mem_cons, not_or] at clear
      obtain ⟨k, zs, q', rfl, found⟩ := spacesBeforeUri_sound clear.2.2.2.2 past
      have clear_zs : lf ∉ zs := fun member =>
        clear.2.2.2.2 (List.mem_append_right _ (List.mem_cons_of_mem _ member))
      obtain ⟨uri, k', ds, n, endsCr, rfl, all⟩ := afterSlashInUri_sound clear_zs (by exact major) found
      refine ⟨k, uri, k', ds, n, endsCr, ?_, all⟩
      rw [letter]
      simp [ascii, byte, spaceRun, List.replicate_succ]

end States

def HttpLine.requestStart (l : HttpLine) (p : Nat) : Nat := p + l.breaks.length
def HttpLine.uriStart (l : HttpLine) (p : Nat) : Nat := l.requestStart p + 4 + l.spaces
def HttpLine.uriEnd (l : HttpLine) (p : Nat) : Nat := l.uriStart p + 1 + l.uri.length
def HttpLine.protocol (l : HttpLine) (p : Nat) : Nat := l.uriEnd p + 1 + l.uriSpaces
def HttpLine.minorEnd (l : HttpLine) (p : Nat) : Nat := l.protocol p + 7 + l.minor.length

def HttpLine.parsed (l : HttpLine) (p : Nat) : RequestLine where
  method := .get
  httpVersion := 1000
  httpProtocol := some (l.protocol p)
  requestStart := l.requestStart p
  requestEnd := if l.endsCr then some (l.minorEnd p + l.trailing) else none
  methodEnd := l.requestStart p + 3
  uriStart := l.uriStart p
  uriEnd := l.uriEnd p
  httpMinor := Decimal.value l.minor
  httpMajor := 1

section Complete

variable {r : RequestLine} {state : RequestLineState} {q : Nat} {xs : List UInt8}

/-- Bytes that a state keeps. -/
theorem stays (keeps : ∀ q, ∀ x ∈ xs, lineByte ⟨r, state, q⟩ x = .ok ⟨r, state, q + 1⟩) :
    xs.foldlM lineByte ⟨r, state, q⟩ = .ok ⟨r, state, q + xs.length⟩ := by
  induction xs generalizing q with
  | nil => rfl
  | cons x xs ih =>
    refine foldlM_cons_ok.mpr ⟨_, keeps q x List.mem_cons_self, ?_⟩
    rw [ih fun q x member => keeps q x (List.mem_cons_of_mem _ member), List.length_cons,
      Nat.add_assoc, Nat.add_comm 1]

theorem spaces_stay (n : Nat)
    (keeps : ∀ q, lineByte ⟨r, state, q⟩ (byte ' ') = .ok ⟨r, state, q + 1⟩) :
    (spaceRun n).foldlM lineByte ⟨r, state, q⟩ = .ok ⟨r, state, q + n⟩ := by
  have folded : (spaceRun n).foldlM lineByte ⟨r, state, q⟩ =
      .ok ⟨r, state, q + (spaceRun n).length⟩ := stays fun q x member => by
    rw [List.eq_of_mem_replicate member]
    exact keeps q
  rwa [spaceRun, List.length_replicate] at folded

theorem le_valueFrom (n : Nat) (ds : List UInt8) : n ≤ valueFrom n ds := by
  induction ds generalizing n with
  | nil => exact Nat.le_refl n
  | cons d ds ih =>
    have le := ih (10 * n + (d.toNat - 48))
    change n ≤ valueFrom (10 * n + (d.toNat - 48)) ds
    omega

theorem minor_digits (digits : ∀ d ∈ xs, Decimal.isDigit d = true)
    (bound : valueFrom r.httpMinor xs ≤ 999) :
    xs.foldlM lineByte ⟨r, .minorDigit, q⟩ =
      .ok ⟨{ r with httpMinor := valueFrom r.httpMinor xs }, .minorDigit, q + xs.length⟩ := by
  induction xs generalizing r q with
  | nil => rfl
  | cons x xs ih =>
    obtain ⟨digit, rest⟩ := List.forall_mem_cons.mp digits
    change valueFrom (10 * r.httpMinor + (x.toNat - 48)) xs ≤ 999 at bound
    have le := le_valueFrom (10 * r.httpMinor + (x.toNat - 48)) xs
    have value := digitValue_eq digit
    have other (b : UInt8) (not_digit : Decimal.isDigit b = false) : x ≠ b := by
      rintro rfl
      rw [digit] at not_digit
      cases not_digit
    have step : lineByte ⟨r, .minorDigit, q⟩ x =
        .ok ⟨{ r with httpMinor := 10 * r.httpMinor + (x.toNat - 48) }, .minorDigit, q + 1⟩ := by
      change (if x = cr then _ else if x = lf then _ else if x = byte ' ' then _
        else if ¬ Decimal.isDigit x = true then _ else if 99 < r.httpMinor then _ else _) = _
      rw [if_neg (other cr (by decide)), if_neg (other lf (by decide)),
        if_neg (other (byte ' ') (by decide)), if_neg (not_not_intro digit), if_neg (by omega)]
      rw [← value, Nat.mul_comm 10]
      rfl
    refine foldlM_cons_ok.mpr ⟨_, step, ?_⟩
    rw [ih rest bound, List.length_cons, Nat.add_assoc, Nat.add_comm 1]
    rfl

/-- Further bytes behind some that lead to another cursor. -/
theorem foldlM_after {c c₁ : RequestLineCursor} {ys : List UInt8}
    (folded : xs.foldlM lineByte c = .ok c₁) :
    (xs ++ ys).foldlM lineByte c = ys.foldlM lineByte c₁ := by
  rw [List.foldlM_append, folded]
  rfl

theorem break_folds (endsCr : Bool) (digits : state = .minorDigit ∨ state = .spacesAfterDigit) :
    ((if endsCr then [cr] else []) ++ [lf]).foldlM lineByte ⟨r, state, q⟩ =
      .error (.done { r with requestEnd := if endsCr then some q else r.requestEnd }
        (q + (if endsCr then [cr] else []).length)) := by
  cases endsCr <;> rcases digits with rfl | rfl <;> rfl

theorem spaces_folds (n : Nat) (endsCr : Bool) :
    (lineEnd n endsCr ++ [lf]).foldlM lineByte ⟨r, .spacesAfterDigit, q⟩ =
      .error (.done { r with requestEnd := if endsCr then some (q + n) else r.requestEnd }
        (q + (lineEnd n endsCr).length)) := by
  rw [lineEnd, List.append_assoc, foldlM_after (spaces_stay n fun _ => rfl),
    break_folds endsCr (.inr rfl), List.length_append, spaceRun, List.length_replicate,
    Nat.add_assoc]

/-- The end of a line that has its version. -/
theorem lineEnd_folds (n : Nat) (endsCr : Bool) :
    (lineEnd n endsCr ++ [lf]).foldlM lineByte ⟨r, .minorDigit, q⟩ =
      .error (.done { r with requestEnd := if endsCr then some (q + n) else r.requestEnd }
        (q + (lineEnd n endsCr).length)) := by
  cases n with
  | zero => exact break_folds endsCr (.inl rfl)
  | succ n =>
    have first : [byte ' '].foldlM lineByte ⟨r, .minorDigit, q⟩ = .ok ⟨r, .spacesAfterDigit, q + 1⟩ :=
      rfl
    have more := spaces_folds (r := r) (q := q + 1) n endsCr
    have length : (lineEnd (n + 1) endsCr).length = 1 + (lineEnd n endsCr).length :=
      Nat.add_comm (lineEnd n endsCr).length 1
    rw [Nat.add_assoc, Nat.add_comm 1 n, Nat.add_assoc, ← length] at more
    rw [← more]
    exact foldlM_after first

theorem method_folds (breaks : ∀ b ∈ xs, b = cr ∨ b = lf) (spaces : Nat) :
    (xs ++ ascii "GET" ++ spaceRun (spaces + 1)).foldlM lineByte ⟨r, .start, q⟩ =
      .ok ⟨{ r with requestStart := q + xs.length, methodEnd := q + xs.length + 3, method := .get },
        .spacesBeforeUri, q + xs.length + 4 + spaces⟩ := by
  have split : xs ++ ascii "GET" ++ spaceRun (spaces + 1) =
      xs ++ [byte 'G'] ++ (byte 'E' :: byte 'T' :: byte ' ' :: spaceRun spaces) := by
    simp [ascii, byte, spaceRun, List.replicate_succ]
  rw [split, foldlM_after (breaks_method breaks), three_bytes rfl rfl, if_pos ⟨rfl, rfl, rfl⟩]
  exact spaces_stay spaces fun _ => rfl

theorem uri_folds (bytes : ∀ b ∈ xs, b ≠ byte ' ' ∧ b ≠ cr ∧ b ≠ lf ∧ b ≠ 0) (spaces : Nat) :
    (byte '/' :: xs ++ spaceRun (spaces + 1)).foldlM lineByte ⟨r, .spacesBeforeUri, q⟩ =
      .ok ⟨{ r with uriStart := q, uriEnd := q + 1 + xs.length }, .checkUriHttp09,
        q + 1 + xs.length + 1 + spaces⟩ := by
  have keeps (q : Nat) (x : UInt8) (member : x ∈ xs) (r : RequestLine) :
      lineByte ⟨r, .afterSlashInUri, q⟩ x = .ok ⟨r, .afterSlashInUri, q + 1⟩ := by
    obtain ⟨space, carriage, feed, nul⟩ := bytes x member
    change (if x = byte ' ' then _ else if x = cr then _ else if x = lf then _
      else if x = 0 then _ else _) = _
    rw [if_neg space, if_neg carriage, if_neg feed, if_neg nul]
    rfl
  have uri : (byte '/' :: xs).foldlM lineByte ⟨r, .spacesBeforeUri, q⟩ =
      .ok ⟨{ r with uriStart := q }, .afterSlashInUri, q + 1 + xs.length⟩ :=
    foldlM_cons_ok.mpr ⟨_, rfl, stays fun q x member => keeps q x member _⟩
  rw [foldlM_after uri]
  exact foldlM_cons_ok.mpr ⟨_, rfl, spaces_stay spaces fun _ => rfl⟩

theorem version_folds (nonempty : xs ≠ []) (digits : ∀ d ∈ xs, Decimal.isDigit d = true)
    (bound : Decimal.value xs ≤ 999) :
    (ascii "HTTP/1." ++ xs).foldlM lineByte ⟨r, .checkUriHttp09, q⟩ =
      .ok ⟨{ r with httpProtocol := some q, httpMajor := 1, httpMinor := Decimal.value xs },
        .minorDigit, q + 7 + xs.length⟩ := by
  have protocol : (ascii "HTTP/1.").foldlM lineByte ⟨r, .checkUriHttp09, q⟩ =
      .ok ⟨{ r with httpProtocol := some q, httpMajor := 1 }, .firstMinorDigit, q + 7⟩ := by
    have major (x : UInt8) (one : x = byte '1') :
        lineByte ⟨{ r with httpProtocol := some q }, .firstMajorDigit, q + 5⟩ x =
          .ok ⟨{ r with httpProtocol := some q, httpMajor := 1 }, .majorDigit, q + 6⟩ := by
      have value : digitValue x = 1 := by
        rw [one]
        decide
      change (if x < byte '1' ∨ byte '9' < x then _ else if 1 < digitValue x then _ else _) = _
      rw [if_neg (by rw [one]; decide), value, if_neg (by decide)]
      rfl
    have name : (ascii "HTTP/").foldlM lineByte ⟨r, .checkUriHttp09, q⟩ =
        .ok ⟨{ r with httpProtocol := some q }, .firstMajorDigit, q + 5⟩ := rfl
    rw [show ascii "HTTP/1." = ascii "HTTP/" ++ [byte '1', byte '.'] from rfl, foldlM_after name]
    exact foldlM_cons_ok.mpr ⟨_, major _ rfl, rfl⟩
  rw [foldlM_after protocol]
  cases xs with
  | nil => exact (nonempty rfl).elim
  | cons x xs =>
    obtain ⟨digit, rest⟩ := List.forall_mem_cons.mp digits
    change valueFrom (10 * 0 + (x.toNat - 48)) xs ≤ 999 at bound
    rw [Nat.mul_zero, Nat.zero_add, ← digitValue_eq digit] at bound
    have first : lineByte ⟨{ r with httpProtocol := some q, httpMajor := 1 }, .firstMinorDigit,
        q + 7⟩ x =
        .ok ⟨{ r with httpProtocol := some q, httpMajor := 1, httpMinor := digitValue x },
          .minorDigit, q + 8⟩ := by
      change (if ¬ Decimal.isDigit x = true then _ else _) = _
      rw [if_neg (not_not_intro digit)]
      rfl
    refine foldlM_cons_ok.mpr ⟨_, first, (minor_digits rest bound).trans ?_⟩
    have value : Decimal.value (x :: xs) = valueFrom (digitValue x) xs := by
      rw [digitValue_eq digit, ← Nat.zero_add (x.toNat - 48)]
      rfl
    rw [value, List.length_cons]
    simp only [Except.ok.injEq, RequestLineCursor.mk.injEq, true_and]
    omega

/-- Every line of the grammar is read to its line feed. -/
theorem text_folds (l : HttpLine) (p : Nat) :
    (l.text ++ [lf]).foldlM lineByte (.fresh p) =
      .error (.done (l.parsed p) (p + l.text.length)) := by
  have parts : l.text ++ [lf] =
      l.breaks ++ ascii "GET" ++ spaceRun (l.spaces + 1) ++
        (byte '/' :: l.uri ++ spaceRun (l.uriSpaces + 1) ++
          (ascii "HTTP/1." ++ l.minor ++ (lineEnd l.trailing l.endsCr ++ [lf]))) := by
    simp only [HttpLine.text, List.append_assoc, List.cons_append]
  have length : p + l.text.length = l.minorEnd p + (lineEnd l.trailing l.endsCr).length := by
    simp only [HttpLine.text, HttpLine.minorEnd, HttpLine.protocol, HttpLine.uriEnd, HttpLine.uriStart,
      HttpLine.requestStart, List.length_append, List.length_cons, spaceRun, List.length_replicate]
    have get : (ascii "GET").length = 3 := rfl
    have http : (ascii "HTTP/1.").length = 7 := rfl
    omega
  rw [parts, length, RequestLineCursor.fresh, foldlM_after (method_folds l.only_breaks l.spaces),
    foldlM_after (uri_folds l.uri_bytes l.uriSpaces),
    foldlM_after (version_folds l.minor_nonempty l.minor_digits l.minor_le), lineEnd_folds]
  rfl

end Complete

/-- The first byte at `g` that is not a line break, and the first line feed after it at `e`. -/
structure HeaderIn.CompleteLine (b : HeaderIn) (g e : Nat) : Prop where
  start : b.pos ≤ g
  breaks : ∀ i, b.pos ≤ i → i < g → b.mem i = cr ∨ b.mem i = lf
  first : b.mem g ≠ cr ∧ b.mem g ≠ lf
  after : g < e
  one_line : ∀ i, g < i → i < e → b.mem i ≠ lf
  feed : b.mem e = lf
  inside : e < b.last

section Line

variable {b : HeaderIn} {g e : Nat} {c c' : RequestLineCursor} {xs : List UInt8}

/-- No state but the first goes on after a line feed. -/
theorem feed_refused (moved : lineByte c lf = .ok c') : c.state = .start := by
  by_cases method : c.state = .method
  · rw [lineByte, if_neg (not_ne_iff.mpr method)] at moved
    split at moved
    · cases moved
    · split at moved
      · cases moved
      · cases moved
  · rw [lineByte, if_pos method] at moved
    obtain ⟨r, state, p⟩ := c
    cases state with
    | start => rfl
    | _ => cases moved

theorem HeaderIn.CompleteLine.stops (line : b.CompleteLine g e) :
    (cells b.mem b.pos (e + 1)).foldlM lineByte (.fresh b.pos) ≠ .ok c := by
  have le := line.start
  have after := line.after
  rw [cells_concat (by omega), line.feed]
  intro folded
  obtain ⟨c₁, before, moved⟩ := foldlM_concat_ok.mp folded
  have all := start_breaks before (feed_refused moved) (b.mem g) (mem_cells.mpr ⟨g, le, after, rfl⟩)
  rcases all with carriage | feed
  · exact line.first.1 carriage
  · exact line.first.2 feed

/-- The call stops at the line feed, and decides by the line alone. -/
theorem HeaderIn.CompleteLine.run_eq (line : b.CompleteLine g e) :
    run (requestLineRound b.mem) RequestLineCursor.p b.last (.fresh b.pos) =
      (cells b.mem b.pos (e + 1)).foldlM lineByte (.fresh b.pos) := by
  have le := line.start
  have after := line.after
  have inside := line.inside
  have whole : (cells b.mem b.pos b.last).foldlM lineByte (.fresh b.pos) =
      (cells b.mem b.pos (e + 1)).foldlM lineByte (.fresh b.pos) := by
    rw [← cells_append b.mem (show b.pos ≤ e + 1 by omega) (show e + 1 ≤ b.last by omega),
      List.foldlM_append]
    cases folded : (cells b.mem b.pos (e + 1)).foldlM lineByte (.fresh b.pos) with
    | ok c => exact (line.stops folded).elim
    | error e => rfl
  have ready : (RequestLineCursor.fresh b.pos).Ready b.mem := nofun
  rw [← whole]
  refine run_eq_lineByte ready fun c' folded => ?_
  exact (line.stops (whole.symm.trans folded)).elim

theorem HeaderIn.CompleteLine.code_ok (line : b.CompleteLine g e) :
    (parseRequestLine .fresh .start b).code = .ok ↔
      Accepts (.fresh b.pos) (cells b.mem b.pos e) := by
  have le := line.start
  have after := line.after
  have ran := line.run_eq
  rw [cells_concat (by omega), line.feed] at ran
  rw [Accepts, ← ran, parseRequestLine, RequestLineCursor.fresh]
  cases stopped : run (requestLineRound b.mem) RequestLineCursor.p b.last
      ⟨.fresh, .start, b.pos⟩ with
  | ok c =>
    refine iff_of_false (fun code => ?_) ?_
    · cases code
    · rintro ⟨r, p, same, -⟩
      cases same
  | error stop =>
    cases stop with
    | done r p =>
      constructor
      · exact fun code => ⟨r, p, rfl, code⟩
      · rintro ⟨r', p', same, code⟩
        cases same
        exact code
    | invalid code r =>
      refine iff_of_false (run_invalid stopped).1 ?_
      rintro ⟨r', p, same, -⟩
      cases same

/-- The breaks, the method with its spaces, the URI and the rest where the parser finds them. -/
theorem HttpLine.holds (l : HttpLine) {m : Nat → UInt8} {p : Nat} (holds : Holds m p l.text) :
    Holds m p l.breaks ∧ Holds m (l.requestStart p) (ascii "GET") ∧
      Holds m (l.uriStart p) (byte '/' :: l.uri) := by
  simp only [HttpLine.text, List.append_assoc] at holds
  obtain ⟨breaks, method⟩ := holds.split
  obtain ⟨get, spaces⟩ := method.split
  obtain ⟨-, uri⟩ := spaces.split
  have start : p + l.breaks.length + (ascii "GET").length + (spaceRun (l.spaces + 1)).length =
      l.uriStart p := by
    have get : (ascii "GET").length = 3 := rfl
    rw [get, spaceRun, List.length_replicate, HttpLine.uriStart, HttpLine.requestStart]
    omega
  rw [start] at uri
  exact ⟨breaks, get, uri.split.1⟩

/-- The line breaks of a line of the grammar are those before `g`. -/
theorem HeaderIn.CompleteLine.breaks_end (line : b.CompleteLine g e) (l : HttpLine)
    (text : l.text ++ [lf] = cells b.mem b.pos (e + 1)) :
    l.requestStart b.pos = g ∧ b.mem g = byte 'G' := by
  have le := line.start
  obtain ⟨breaks, get, -⟩ := l.holds (cells_holds text).split.1
  have letter : b.mem (l.requestStart b.pos) = byte 'G' := get 0 (by decide)
  have same : l.requestStart b.pos = g := by
    rcases Nat.lt_trichotomy g (l.requestStart b.pos) with before | same | behind
    · have at_break : g - b.pos < l.breaks.length := by
        rw [HttpLine.requestStart] at before
        omega
      have found := breaks (g - b.pos) at_break
      rw [Nat.add_sub_cancel' le] at found
      rcases l.only_breaks _ (List.getElem_mem at_break) with carriage | feed
      · exact (line.first.1 (found.trans carriage)).elim
      · exact (line.first.2 (found.trans feed)).elim
    · exact same.symm
    · rcases line.breaks _ (Nat.le_add_right _ _) behind with carriage | feed
      · exact absurd (letter.symm.trans carriage) (by decide)
      · exact absurd (letter.symm.trans feed) (by decide)
  exact ⟨same, same ▸ letter⟩

theorem accepts_text (l : HttpLine) (p : Nat) :
    Accepts (.fresh p) l.text ↔ 1 ≤ Decimal.value l.minor := by
  rw [Accepts, text_folds]
  have code : (requestLineDone (l.parsed p) (p + l.text.length)).1 = .ok ↔
      1 ≤ Decimal.value l.minor := by
    rw [requestLineDone_iff]
    change 1001 ≤ 1 * 1000 + Decimal.value l.minor ∧ Method.get = Method.get ↔ _
    rw [eq_self_iff_true, and_true]
    omega
  constructor
  · rintro ⟨r, p', same, accepted⟩
    cases same
    exact code.mp accepted
  · exact fun positive => ⟨_, _, rfl, code.mpr positive⟩

/-- What is accepted in a complete line is a line of the grammar. -/
theorem HeaderIn.CompleteLine.sound (line : b.CompleteLine g e)
    (accepts : Accepts (.fresh b.pos) (cells b.mem b.pos e)) :
    ∃ l : HttpLine, l.text = cells b.mem b.pos e := by
  have le := line.start
  have after := line.after
  have only_breaks : ∀ x ∈ cells b.mem b.pos g, x = cr ∨ x = lf := by
    intro x member
    obtain ⟨k, from_pos, before, rfl⟩ := mem_cells.mp member
    exact line.breaks k from_pos before
  have clear : lf ∉ cells b.mem g e := by
    intro member
    obtain ⟨k, from_g, before, feed⟩ := mem_cells.mp member
    rcases Nat.eq_or_lt_of_le from_g with rfl | behind
    · exact line.first.2 feed
    · exact line.one_line k behind before feed
  have first : (cells b.mem g e).head? ≠ some cr := by
    rw [cells_cons after]
    exact fun carriage => line.first.1 (Option.some.inj carriage)
  obtain ⟨r, p, folded, code⟩ := accepts
  obtain ⟨start, broken⟩ := breaks_start only_breaks (r := .fresh) (p := b.pos)
  rw [← cells_append b.mem le after.le, List.append_assoc, RequestLineCursor.fresh,
    foldlM_after broken] at folded
  obtain ⟨spaces, uri, k, ds, n, endsCr, text, uri_bytes, nonempty, digits, bound⟩ :=
    line_sound clear rfl first ⟨r, p, folded, code⟩
  refine ⟨⟨cells b.mem b.pos g, spaces, uri, k, ds, n, endsCr, only_breaks, uri_bytes, nonempty,
    digits, bound⟩, ?_⟩
  rw [← cells_append b.mem le after.le, text]
  simp only [HttpLine.text, List.append_assoc, List.cons_append]

theorem requestLineDone_eq (r : RequestLine) (p : Nat) :
    (requestLineDone r p).2 = { r with
      requestEnd := some (r.requestEnd.getD p)
      httpVersion := r.httpMajor * 1000 + r.httpMinor } := by
  unfold requestLineDone
  cases ends : r.requestEnd with
  | none => rfl
  | some q =>
    dsimp only
    rw [if_neg nofun, Option.getD_some, ← ends]

theorem HeaderIn.CompleteLine.parsed (line : b.CompleteLine g e) (l : HttpLine)
    (text : l.text ++ [lf] = cells b.mem b.pos (e + 1)) :
    (parseRequestLine .fresh .start b).r =
        { l.parsed b.pos with
          requestEnd := some ((l.parsed b.pos).requestEnd.getD e)
          httpVersion := 1000 + Decimal.value l.minor } ∧
      (parseRequestLine .fresh .start b).b.pos = e + 1 := by
  have le := line.start
  have after := line.after
  have length : b.pos + l.text.length = e := by
    have lengths := congrArg List.length text
    rw [List.length_append, List.length_singleton, cells_length] at lengths
    omega
  have ran := line.run_eq
  rw [← text, text_folds, length, RequestLineCursor.fresh] at ran
  rw [parseRequestLine, ran]
  dsimp only
  rw [requestLineDone_eq]
  have version : (l.parsed b.pos).httpMajor * 1000 + (l.parsed b.pos).httpMinor =
      1000 + Decimal.value l.minor := congrArg (· + Decimal.value l.minor) (Nat.one_mul 1000)
  exact ⟨by rw [version], rfl⟩

theorem HttpLine.uri_cells (l : HttpLine)
    (text : l.text ++ [lf] = cells b.mem b.pos (e + 1)) :
    cells b.mem (l.uriStart b.pos) (l.uriEnd b.pos) = byte '/' :: l.uri := by
  obtain ⟨-, -, uri⟩ := l.holds (cells_holds text).split.1
  have found := uri.cells_eq
  rwa [List.length_cons, ← Nat.add_assoc, Nat.add_right_comm] at found

end Line

/-- A complete request line is accepted exactly when it is one of the grammar, with the method's
start, the URI and the version where the grammar has them. -/
theorem request_line_grammar (b : HeaderIn) (g e : Nat) (line : b.CompleteLine g e) :
    let call := parseRequestLine .fresh .start b
    (call.code = .ok ↔ ∃ l : GetLine, l.text ++ [lf] = cells b.mem b.pos (e + 1)) ∧
      ∀ l : GetLine, l.text ++ [lf] = cells b.mem b.pos (e + 1) →
        cells b.mem call.r.uriStart call.r.uriEnd = byte '/' :: l.uri ∧
        call.r.httpVersion = 1000 + Decimal.value l.minor ∧
        call.r.requestStart = g ∧ b.mem g = byte 'G' ∧ call.b.pos = e + 1 := by
  intro call
  have le := line.start
  have after := line.after
  have whole : cells b.mem b.pos (e + 1) = cells b.mem b.pos e ++ [lf] := by
    rw [cells_concat (by omega), line.feed]
  refine ⟨?_, fun l text => ?_⟩
  · rw [line.code_ok]
    constructor
    · intro accepts
      obtain ⟨l, text⟩ := line.sound accepts
      rw [← text, accepts_text] at accepts
      exact ⟨⟨l, accepts⟩, by rw [whole, ← text]⟩
    · rintro ⟨l, text⟩
      rw [whole] at text
      rw [← List.append_cancel_right text, accepts_text]
      exact l.minor_positive
  · obtain ⟨r, pos⟩ := line.parsed l.toHttpLine text
    change (parseRequestLine .fresh .start b).r = _ at r
    rw [show call.r = _ from r]
    obtain ⟨start, letter⟩ := line.breaks_end l.toHttpLine text
    exact ⟨l.toHttpLine.uri_cells text, rfl, start, letter, pos⟩

theorem request_line_grammar_get :
    (parseRequestLine .fresh .start
      (HeaderIn.received ⟨fun _ => 0, 0, 0⟩ (ascii "GET / HTTP/1.1\r\n"))).code = .ok := by
  have line : (HeaderIn.received ⟨fun _ => 0, 0, 0⟩ (ascii "GET / HTTP/1.1\r\n")).CompleteLine
      0 15 := by
    refine ⟨by decide +kernel, fun i _ lt => absurd lt (Nat.not_lt_zero i), by decide +kernel, by decide +kernel, ?_,
      by decide +kernel, by decide +kernel⟩
    have clear : ∀ i < 15, 0 < i →
        (HeaderIn.received ⟨fun _ => 0, 0, 0⟩ (ascii "GET / HTTP/1.1\r\n")).mem i ≠ lf := by
      decide +kernel
    exact fun i after before => clear i before after
  refine (request_line_grammar _ 0 15 line).1.mpr
    ⟨⟨⟨[], 0, [], 0, [49], 0, true, nofun, nofun, nofun, by decide +kernel, by decide +kernel⟩, by decide +kernel⟩, ?_⟩
  decide +kernel

end Ngx.Http
