import Mathlib.Data.List.Basic

/-! Machines that read a growing input. A step of the machine looks a known distance ahead;
a run goes on while unread input is left and is resumed when more has arrived. Cutting the
input leaves the results unchanged when no run looks beyond the input received. -/
namespace Resumable

/-- A step at `c` looks at the cells from `pos c` on and before `reach c`, and moves there. -/
structure Machine (β κ ο ε : Type) where
  pos : κ → Nat
  reach : κ → Nat
  Valid : κ → Prop
  step : (Nat → β) → κ → Except ε (List ο × κ)
  forward : ∀ {c}, Valid c → pos c < reach c
  looks : ∀ {m m' : Nat → β} {c}, Valid c → (∀ i < reach c, m i = m' i) → step m c = step m' c
  moves : ∀ {m : Nat → β} {c out c'}, Valid c → step m c = .ok (out, c') →
    Valid c' ∧ pos c' = reach c

inductive End (κ ε : Type) where
  | waiting (c : κ)
  | halted (e : ε)

def End.error : End κ ε → Option ε
  | .waiting _ => none
  | .halted e => some e

/-- All steps that start before `last`, with what they put out. -/
inductive Run (M : Machine β κ ο ε) (m : Nat → β) (last : Nat) : κ → List ο → End κ ε → Prop where
  | wait (out : last ≤ M.pos c) : Run M m last c [] (.waiting c)
  | next (before : M.pos c < last) (step : M.step m c = .ok (out, c'))
      (rest : Run M m last c' os r) : Run M m last c (out ++ os) r
  | halt (before : M.pos c < last) (step : M.step m c = .error e) :
      Run M m last c [] (.halted e)

inductive Within (M : Machine β κ ο ε) (m : Nat → β) (last : Nat) : κ → Prop where
  | wait (out : last ≤ M.pos c) : Within M m last c
  | next (inside : M.reach c ≤ last) (step : M.step m c = .ok (out, c'))
      (rest : Within M m last c') : Within M m last c
  | halt (inside : M.reach c ≤ last) (step : M.step m c = .error e) : Within M m last c

section Runs

variable {M : Machine β κ ο ε} {m m' : Nat → β} {last : Nat} {c : κ}

theorem Run.valid {os : List ο} {c' : κ} (run : Run M m last c os (.waiting c'))
    (valid : M.Valid c) : M.Valid c' := by
  generalize h : End.waiting c' = r at run
  induction run with
  | wait => cases h; exact valid
  | next _ step _ ih => exact ih (M.moves valid step).1 h
  | halt => cases h

theorem Run.past {os : List ο} {c' : κ} (run : Run M m last c os (.waiting c')) :
    last ≤ M.pos c' := by
  generalize h : End.waiting c' = r at run
  induction run with
  | wait out => cases h; exact out
  | next _ _ _ ih => exact ih h
  | halt => cases h

theorem Run.deterministic {os os' : List ο} {r r' : End κ ε} (run : Run M m last c os r)
    (other : Run M m last c os' r') : os = os' ∧ r = r' := by
  induction run generalizing os' with
  | wait out =>
    cases other with
    | wait => exact ⟨rfl, rfl⟩
    | next before | halt before => omega
  | next before step _ ih =>
    cases other with
    | wait => omega
    | next _ step' rest =>
      cases step.symm.trans step'
      obtain ⟨rfl, rfl⟩ := ih rest
      exact ⟨rfl, rfl⟩
    | halt _ step' => cases step.symm.trans step'
  | halt before step =>
    cases other with
    | wait => omega
    | next _ step' => cases step.symm.trans step'
    | halt _ step' =>
      cases step.symm.trans step'
      exact ⟨rfl, rfl⟩

/-- A run up to `last` goes on from where an earlier part of the input left it. -/
theorem Run.extend {part : Nat} {os os' : List ο} {c' : κ} {r : End κ ε}
    (run : Run M m part c os (.waiting c')) (le : part ≤ last) (rest : Run M m last c' os' r) :
    Run M m last c (os ++ os') r := by
  generalize h : End.waiting c' = e at run
  induction run with
  | wait => cases h; exact rest
  | next before step _ ih =>
    rw [List.append_assoc]
    exact .next (Nat.lt_of_lt_of_le before le) step (ih h)
  | halt => cases h

theorem Run.halted_extend {part : Nat} {os : List ο} {e : ε}
    (run : Run M m part c os (.halted e)) (le : part ≤ last) : Run M m last c os (.halted e) := by
  generalize h : End.halted e = r at run
  induction run with
  | wait => cases h
  | next before step _ ih => exact .next (Nat.lt_of_lt_of_le before le) step (ih h)
  | halt before step => cases h; exact .halt (Nat.lt_of_lt_of_le before le) step

/-- Memories that agree on the input received give the same run when it stays within. -/
theorem Within.transfer (within : Within M m last c) (valid : M.Valid c)
    (same : ∀ i < last, m i = m' i) {os : List ο} {r : End κ ε} (run : Run M m' last c os r) :
    Run M m last c os r := by
  induction within generalizing os with
  | wait out =>
    cases run with
    | wait => exact .wait out
    | next before | halt before => omega
  | next inside step _ ih =>
    have before := Nat.lt_of_lt_of_le (M.forward valid) inside
    have moved := step
    rw [M.looks valid fun i lt => same i (by omega)] at moved
    cases run with
    | wait => omega
    | next _ step' rest =>
      cases moved.symm.trans step'
      exact .next before step (ih (M.moves valid step).1 rest)
    | halt _ step' => cases moved.symm.trans step'
  | halt inside step =>
    have before := Nat.lt_of_lt_of_le (M.forward valid) inside
    have moved := step
    rw [M.looks valid fun i lt => same i (by omega)] at moved
    cases run with
    | wait => omega
    | next _ step' => cases moved.symm.trans step'
    | halt _ step' =>
      cases moved.symm.trans step'
      exact .halt before step

/-- Past a part of the input the rest of the run stays within, too. -/
theorem Within.rest {part : Nat} {os : List ο} {c' : κ} (within : Within M m last c)
    (run : Run M m part c os (.waiting c')) (le : part ≤ last) : Within M m last c' := by
  generalize h : End.waiting c' = e at run
  induction run with
  | wait => cases h; exact within
  | next before step _ ih =>
    cases within with
    | wait => omega
    | next _ step' rest =>
      cases step.symm.trans step'
      exact ih rest h
    | halt _ step' => cases step.symm.trans step'
  | halt => cases h

/-- A run that stays within stops at the end of the input. -/
theorem Within.pos_le {os : List ο} {c' : κ} (within : Within M m last c) (valid : M.Valid c)
    (start : M.pos c ≤ last) (run : Run M m last c os (.waiting c')) : M.pos c' ≤ last := by
  induction within generalizing os with
  | wait out =>
    cases run with
    | wait => exact start
    | next before => omega
  | next inside step _ ih =>
    obtain ⟨next, pos⟩ := M.moves valid step
    cases run with
    | wait => exact start
    | next _ step' rest =>
      cases step.symm.trans step'
      exact ih next (pos ▸ inside) rest
  | halt inside step =>
    cases run with
    | wait => exact start
    | next _ step' => cases step.symm.trans step'

end Runs

inductive Path (M : Machine β κ ο ε) (m : Nat → β) : κ → List ο → κ → Prop where
  | refl : Path M m c [] c
  | cons (step : M.step m c = .ok (out, c')) (rest : Path M m c' os c'') :
      Path M m c (out ++ os) c''

/-- A path that can be interrupted at every cell it passes. -/
structure Crawl (M : Machine β κ ο ε) (m : Nat → β) (c : κ) (os : List ο) (c' : κ) : Prop where
  path : Path M m c os c'
  stops : ∀ t, M.pos c ≤ t → t ≤ M.pos c' → Within M m t c

section Paths

variable {M : Machine β κ ο ε} {m : Nat → β} {c c' c'' : κ} {os os' : List ο} {t : Nat}

theorem Path.trans (path : Path M m c os c') (later : Path M m c' os' c'') :
    Path M m c (os ++ os') c'' := by
  induction path with
  | refl => exact later
  | cons step _ ih =>
    rw [List.append_assoc]
    exact .cons step (ih later)

theorem Path.single {out : List ο} (step : M.step m c = .ok (out, c')) : Path M m c out c' := by
  have path : Path M m c (out ++ []) c' := .cons step .refl
  rwa [List.append_nil] at path

theorem Path.valid (path : Path M m c os c') (valid : M.Valid c) : M.Valid c' := by
  induction path with
  | refl => exact valid
  | cons step _ ih => exact ih (M.moves valid step).1

theorem Path.pos_le (path : Path M m c os c') (valid : M.Valid c) : M.pos c ≤ M.pos c' := by
  induction path with
  | refl => exact Nat.le_refl _
  | cons step _ ih =>
    obtain ⟨next, pos⟩ := M.moves valid step
    have forward := M.forward valid
    have := ih next
    omega

theorem Path.within (path : Path M m c os c') (valid : M.Valid c) (le : M.pos c' ≤ t)
    (within : Within M m t c') : Within M m t c := by
  induction path with
  | refl => exact within
  | cons step rest ih =>
    obtain ⟨next, pos⟩ := M.moves valid step
    have inside := rest.pos_le next
    exact .next (by omega) step (ih next le within)

theorem Path.run {r : End κ ε} (path : Path M m c os c') (valid : M.Valid c) (le : M.pos c' ≤ t)
    (run : Run M m t c' os' r) : Run M m t c (os ++ os') r := by
  induction path with
  | refl => exact run
  | cons step rest ih =>
    obtain ⟨next, pos⟩ := M.moves valid step
    have forward := M.forward valid
    have inside := rest.pos_le next
    rw [List.append_assoc]
    exact .next (by omega) step (ih next le run)

theorem Crawl.refl : Crawl M m c [] c :=
  ⟨.refl, fun _ le _ => .wait (by omega)⟩

theorem Crawl.byte {out : List ο} (valid : M.Valid c) (step : M.step m c = .ok (out, c'))
    (one : M.reach c = M.pos c + 1) : Crawl M m c out c' := by
  refine ⟨.single step, fun t le lt => ?_⟩
  obtain ⟨-, pos⟩ := M.moves valid step
  by_cases here : t = M.pos c
  · exact .wait (by omega)
  · exact .next (by omega) step (.wait (by omega))

theorem Crawl.trans (valid : M.Valid c) (crawl : Crawl M m c os c') (later : Crawl M m c' os' c'') :
    Crawl M m c (os ++ os') c'' := by
  refine ⟨crawl.path.trans later.path, fun t le lt => ?_⟩
  by_cases first : t ≤ M.pos c'
  · exact crawl.stops t le first
  · have beyond : M.pos c' ≤ t := by omega
    exact crawl.path.within valid beyond (later.stops t beyond lt)

end Paths

def store (m : Nat → β) (last : Nat) (piece : List β) : Nat → β :=
  fun i => if last ≤ i then (piece[i - last]?).getD (m i) else m i

def Holds (m : Nat → β) (p : Nat) (bs : List β) : Prop :=
  ∀ i (inside : i < bs.length), m (p + i) = bs[i]

def cells (m : Nat → β) (i j : Nat) : List β := (List.range (j - i)).map fun k => m (i + k)

def cuts : (last : Nat) → List (List β) → List Nat
  | _, [] => []
  | last, piece :: rest => (last + piece.length) :: cuts (last + piece.length) rest

/-- A run resumed after every piece, with all it puts out, where it stood after each piece
beside the end of the input then, and the error that ended it. -/
inductive Feed (M : Machine β κ ο ε) : (Nat → β) → (last : Nat) → κ → List (List β) →
    List ο → (marks : List (Nat × Nat)) → Option ε → Prop where
  | nil : Feed M m last c [] [] [] none
  | halted (run : Run M (store m last piece) (last + piece.length) c os (.halted e)) :
      Feed M m last c (piece :: rest) os [] (some e)
  | waiting (run : Run M (store m last piece) (last + piece.length) c os (.waiting c'))
      (later : Feed M (store m last piece) (last + piece.length) c' rest os' marks e) :
      Feed M m last c (piece :: rest) (os ++ os') ((M.pos c', last + piece.length) :: marks) e

theorem store_agrees {m whole : Nat → β} {last : Nat} {piece : List β}
    (same : ∀ i < last, whole i = m i) (holds : Holds whole last piece) :
    ∀ i < last + piece.length, whole i = store m last piece i := by
  intro i lt
  by_cases old : i < last
  · rw [store, if_neg (by omega)]
    exact same i old
  · have inside : i - last < piece.length := by omega
    have eq := holds (i - last) inside
    rw [store, if_pos (by omega), List.getElem?_eq_getElem inside, Option.getD_some, ← eq]
    congr 1
    omega

theorem store_same {m : Nat → β} {last : Nat} {piece : List β} (holds : Holds m last piece) :
    store m last piece = m := by
  funext i
  by_cases inside : last ≤ i ∧ i < last + piece.length
  · exact (store_agrees (fun _ _ => rfl) holds i inside.2).symm
  · by_cases before : last ≤ i
    · have out : piece[i - last]? = none := List.getElem?_eq_none (by omega)
      rw [store, if_pos before, out, Option.getD_none]
    · rw [store, if_neg before]

theorem cuts_ge {last cut : Nat} {pieces : List (List β)} (member : cut ∈ cuts last pieces) :
    last ≤ cut := by
  induction pieces generalizing last with
  | nil => cases member
  | cons piece rest ih =>
    rcases List.mem_cons.mp member with rfl | later
    · omega
    · have := ih later
      omega

theorem Holds.split {m : Nat → β} {p : Nat} {xs ys : List β} (h : Holds m p (xs ++ ys)) :
    Holds m p xs ∧ Holds m (p + xs.length) ys := by
  constructor
  · intro i lt
    rw [h i (by simp; omega), List.getElem_append_left lt]
  · intro i lt
    have whole := h (xs.length + i) (by simp; omega)
    rw [List.getElem_append_right (by omega)] at whole
    simpa [Nat.add_assoc] using whole

theorem Holds.append {m : Nat → β} {p : Nat} {xs ys : List β} (h : Holds m p xs)
    (later : Holds m (p + xs.length) ys) : Holds m p (xs ++ ys) := by
  intro i inside
  rw [List.getElem_append]
  split
  next before => exact h i before
  next behind =>
    rw [← later (i - xs.length) (by simp at inside; omega)]
    congr 1
    omega

theorem Holds.head {m : Nat → β} {p : Nat} {b : β} {bs : List β} (h : Holds m p (b :: bs)) :
    m p = b ∧ Holds m (p + 1) bs := by
  have parts : Holds m p ([b] ++ bs) := h
  exact ⟨parts.split.1 0 (by simp), parts.split.2⟩

theorem cells_length (m : Nat → β) (i j : Nat) : (cells m i j).length = j - i := by
  simp [cells]

theorem cells_nil {m : Nat → β} {i j : Nat} (past : j ≤ i) : cells m i j = [] := by
  simp [cells, Nat.sub_eq_zero_of_le past]

theorem mem_cells {m : Nat → β} {i j : Nat} {x : β} :
    x ∈ cells m i j ↔ ∃ k, i ≤ k ∧ k < j ∧ m k = x := by
  simp only [cells, List.mem_map, List.mem_range]
  constructor
  · rintro ⟨k, lt, rfl⟩
    exact ⟨i + k, by omega, by omega, rfl⟩
  · rintro ⟨k, le, lt, rfl⟩
    exact ⟨k - i, by omega, by rw [Nat.add_sub_cancel' le]⟩

theorem cells_append (m : Nat → β) {i j k : Nat} (le : i ≤ j) (le' : j ≤ k) :
    cells m i j ++ cells m j k = cells m i k := by
  have parts : k - i = (j - i) + (k - j) := by omega
  rw [cells, cells, cells, parts, List.range_add, List.map_append, List.map_map]
  congr 1
  apply List.map_congr_left
  intro n _
  simp only [Function.comp_apply]
  congr 1
  omega

theorem cells_cons {m : Nat → β} {i j : Nat} (before : i < j) :
    cells m i j = m i :: cells m (i + 1) j := by
  rw [← cells_append m (Nat.le_succ i) before]
  simp [cells]

theorem cells_concat {m : Nat → β} {i j : Nat} (le : i ≤ j) :
    cells m i (j + 1) = cells m i j ++ [m j] := by
  rw [← cells_append m le (Nat.le_succ j), cells_cons (Nat.lt_succ_self j), cells_nil (Nat.le_refl _)]

theorem cells_congr {m m' : Nat → β} {i j : Nat} (same : ∀ k < j, m k = m' k) :
    cells m i j = cells m' i j := by
  apply List.map_congr_left
  intro k member
  have := List.mem_range.mp member
  exact same _ (by omega)

theorem cells_congr_from {m m' : Nat → β} {i j : Nat} (same : ∀ k, i ≤ k → m k = m' k) :
    cells m i j = cells m' i j :=
  List.map_congr_left fun k _ => same (i + k) (Nat.le_add_right i k)

theorem Holds.cells_eq {m : Nat → β} {p : Nat} {bs : List β} (h : Holds m p bs) :
    cells m p (p + bs.length) = bs := by
  apply List.ext_getElem
  · simp [cells]
  · intro i lt inside
    simp [cells, h i inside]

theorem cells_holds {m : Nat → β} {i j : Nat} {bs : List β} (same : bs = cells m i j) :
    Holds m i bs := by
  subst same
  intro k inside
  simp [cells]

theorem cells_drop (m : Nat → β) (i j k : Nat) : cells m (i + k) j = (cells m i j).drop k := by
  apply List.ext_getElem
  · simp [cells]
    omega
  · intro n lt inside
    simp [cells, Nat.add_assoc]

theorem cells_store_front (m : Nat → β) (i last : Nat) (piece : List β) :
    cells (store m last piece) i last = cells m i last := by
  apply cells_congr
  intro k before
  rw [store, if_neg (by omega)]

theorem store_holds (m : Nat → β) (last : Nat) (piece : List β) :
    Holds (store m last piece) last piece := by
  intro i inside
  simp [store, inside]

theorem cells_store_piece (m : Nat → β) (last : Nat) (piece : List β) :
    cells (store m last piece) last (last + piece.length) = piece :=
  (store_holds m last piece).cells_eq

theorem cells_store_through (m : Nat → β) {i j last : Nat} {piece : List β} (le : i ≤ last)
    (reaches : last + piece.length = j) :
    cells (store m last piece) i j = cells m i last ++ piece := by
  subst reaches
  rw [← cells_append _ le (Nat.le_add_right last piece.length), cells_store_front,
    cells_store_piece]

section Feed

variable {M : Machine β κ ο ε} {whole : Nat → β} {c₀ : κ}

/-- When no run up to a cut looks beyond it, feeding the pieces puts out what the run over
the whole input does, and stops at each cut. -/
theorem Feed.within {m : Nat → β} {last : Nat} {c : κ} {pieces : List (List β)} {before os : List ο}
    {marks : List (Nat × Nat)} {e : Option ε} (feed : Feed M m last c pieces os marks e)
    (valid : M.Valid c₀) (start : M.pos c₀ ≤ last)
    (reached : Run M whole last c₀ before (.waiting c)) (same : ∀ i < last, whole i = m i)
    (holds : Holds whole last pieces.flatten)
    (stops : ∀ cut ∈ cuts last pieces, Within M whole cut c₀) :
    (∀ mark ∈ marks, mark.1 ≤ mark.2) ∧
      ∃ r, Run M whole (last + pieces.flatten.length) c₀ (before ++ os) r ∧ r.error = e := by
  induction feed generalizing before with
  | nil => exact ⟨by simp, .waiting _, by simpa using reached, rfl⟩
  | @halted m last piece c os e rest run =>
    have agrees := store_agrees same holds.split.1
    have within := stops _ List.mem_cons_self
    have run := (within.rest reached (by omega)).transfer (reached.valid valid) agrees run
    have run := reached.extend (by omega) run
    refine ⟨by simp, .halted e, run.halted_extend ?_, rfl⟩
    simp
  | @waiting m last piece c os c' rest os' marks e run _ ih =>
    obtain ⟨here, later⟩ := holds.split
    have agrees := store_agrees same here
    have within := stops _ List.mem_cons_self
    have run := (within.rest reached (by omega)).transfer (reached.valid valid) agrees run
    have run := reached.extend (by omega) run
    obtain ⟨ends, r, final, error⟩ := ih (by omega) run agrees later
      (fun cut member => stops cut (List.mem_cons_of_mem _ member))
    refine ⟨?_, r, ?_, error⟩
    · intro mark member
      rcases List.mem_cons.mp member with rfl | member
      · exact within.pos_le valid (by omega) run
      · exact ends mark member
    · simpa [Nat.add_assoc] using final

/-- On a memory that holds the input already, a run that looks beyond a cut stops beyond it. -/
theorem Feed.beyond {last : Nat} {c : κ} {pieces : List (List β)} {before os : List ο}
    {marks : List (Nat × Nat)} {e : Option ε} (feed : Feed M whole last c pieces os marks e)
    (reached : Run M whole last c₀ before (.waiting c)) (holds : Holds whole last pieces.flatten)
    {cut : Nat} (member : cut ∈ cuts last pieces) {os₁ : List ο} {c₁ : κ}
    (run : Run M whole cut c₀ os₁ (.waiting c₁)) (past : cut < M.pos c₁) :
    ∃ mark ∈ marks, mark.2 < mark.1 := by
  generalize eq : whole = m at feed
  induction feed generalizing before with
  | nil => simp [cuts] at member
  | @halted m last piece c os e rest piece_run =>
    subst eq
    rw [store_same holds.split.1] at piece_run
    have halted := reached.extend (by omega) piece_run
    have le : last + piece.length ≤ cut := by
      rcases List.mem_cons.mp member with rfl | later
      · exact Nat.le_refl _
      · exact cuts_ge later
    cases ((halted.halted_extend le).deterministic run).2
  | @waiting m last piece c os c' rest os' marks e piece_run _ ih =>
    subst eq
    obtain ⟨here, later⟩ := holds.split
    rw [store_same here] at piece_run ih
    have reached := reached.extend (by omega) piece_run
    rcases List.mem_cons.mp member with rfl | member
    · cases (reached.deterministic run).2
      exact ⟨_, List.mem_cons_self, past⟩
    · obtain ⟨mark, member, past⟩ := ih reached later member rfl
      exact ⟨mark, List.mem_cons_of_mem _ member, past⟩

end Feed

end Resumable
