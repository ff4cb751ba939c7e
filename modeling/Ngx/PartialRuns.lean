import Mathlib.Data.Option.Basic

/-! Runs of a step function that need not have a result: properties of every state between the
steps, and steps that a run must avoid for such a property to hold. -/
namespace PartialRuns

variable {σ ε : Type*}

def run (step : σ → ε → Option σ) (s : σ) (events : List ε) : Option σ := events.foldlM step s

def Throughout (step : σ → ε → Option σ) (P : σ → Prop) : σ → List ε → Prop
  | s, [] => P s
  | s, event :: events =>
    P s ∧ ∀ s', step s event = some s' → Throughout step P s' events

def Avoids (step : σ → ε → Option σ) (Bad : σ → ε → Prop) : σ → List ε → Prop
  | _, [] => True
  | s, event :: events =>
    ¬ Bad s event ∧ ∀ s', step s event = some s' → Avoids step Bad s' events

/-- `P` holds of every step the run makes, also of one without a result. -/
def Along (step : σ → ε → Option σ) (P : σ → ε → Prop) : σ → List ε → Prop
  | _, [] => True
  | s, event :: events => P s event ∧ ∀ s', step s event = some s' → Along step P s' events

/-- An invariant behind `P` that exactly the bad steps break, each of them at once. -/
structure Guarded (step : σ → ε → Option σ) (P Inv : σ → Prop) (Bad : σ → ε → Prop) : Prop where
  holds : ∀ s, Inv s → P s
  preserves : ∀ s event s', Inv s → ¬ Bad s event → step s event = some s' → Inv s'
  breaks : ∀ s event, Inv s → Bad s event → ∃ s', step s event = some s' ∧ ¬ P s'

/-- The same for an invariant that also says something of the events that are still to come. -/
structure GuardedAlong (step : σ → ε → Option σ) (P : σ → Prop) (Inv : σ → List ε → Prop)
    (Bad : σ → ε → Prop) : Prop where
  holds : ∀ s events, Inv s events → P s
  preserves : ∀ s event events s', Inv s (event :: events) → ¬ Bad s event →
    step s event = some s' → Inv s' events
  breaks : ∀ s event events, Inv s (event :: events) → Bad s event →
    ∃ s', step s event = some s' ∧ ¬ P s'

variable {step : σ → ε → Option σ} {P Inv : σ → Prop} {Bad : σ → ε → Prop} {events : List ε}

theorem Throughout.head {s : σ} (throughout : Throughout step P s events) : P s := by
  cases events with
  | nil => exact throughout
  | cons event events => exact throughout.1

theorem Throughout.run :
    ∀ {s s' : σ}, Throughout step P s events → run step s events = some s' → P s' := by
  induction events with
  | nil =>
    intro s s' throughout ran
    cases ran
    exact throughout
  | cons event events ih =>
    intro s s' throughout ran
    simp only [PartialRuns.run, List.foldlM_cons, Option.bind_eq_bind,
      Option.bind_eq_some_iff] at ran
    obtain ⟨s₁, moved, ran⟩ := ran
    exact ih (throughout.2 s₁ moved) ran

/-- What every step keeps, a run keeps. -/
theorem run_preserves (preserves : ∀ s event s', step s event = some s' → P s → P s') :
    ∀ {s s' : σ}, run step s events = some s' → P s → P s' := by
  induction events with
  | nil =>
    intro s s' ran holds
    cases ran
    exact holds
  | cons event events ih =>
    intro s s' ran holds
    simp only [run, List.foldlM_cons, Option.bind_eq_bind, Option.bind_eq_some_iff] at ran
    obtain ⟨s₁, moved, ran⟩ := ran
    exact ih ran (preserves s event s₁ moved holds)

/-- By induction on the events, with the invariant carried along. -/
theorem GuardedAlong.throughout_iff {Inv : σ → List ε → Prop}
    (guarded : GuardedAlong step P Inv Bad) :
    ∀ {s : σ}, Inv s events → (Throughout step P s events ↔ Avoids step Bad s events) := by
  induction events with
  | nil =>
    intro s inv
    exact iff_of_true (guarded.holds s _ inv) trivial
  | cons event events ih =>
    intro s inv
    constructor
    · rintro ⟨-, later⟩
      have good : ¬ Bad s event := by
        intro bad
        obtain ⟨s', moved, broken⟩ := guarded.breaks s event events inv bad
        exact broken (later s' moved).head
      refine ⟨good, fun s' moved => ?_⟩
      exact (ih (guarded.preserves s event events s' inv good moved)).mp (later s' moved)
    · rintro ⟨good, later⟩
      refine ⟨guarded.holds s _ inv, fun s' moved => ?_⟩
      exact (ih (guarded.preserves s event events s' inv good moved)).mpr (later s' moved)

theorem Along.mono {P Q : σ → ε → Prop} (weaker : ∀ s event, P s event → Q s event) :
    ∀ {s : σ}, Along step P s events → Along step Q s events := by
  induction events with
  | nil => exact fun _ => trivial
  | cons event events ih =>
    rintro s ⟨holds, later⟩
    exact ⟨weaker s event holds, fun s' moved => ih (later s' moved)⟩

/-- By induction on the events, for an invariant under which exactly the bad steps violate `P`. -/
theorem along_iff {P : σ → ε → Prop} {Inv : σ → List ε → Prop}
    (exact_iff : ∀ s event events, Inv s (event :: events) → (P s event ↔ ¬ Bad s event))
    (preserves : ∀ s event events s', Inv s (event :: events) → ¬ Bad s event →
      step s event = some s' → Inv s' events) :
    ∀ {s : σ}, Inv s events → (Along step P s events ↔ Avoids step Bad s events) := by
  induction events with
  | nil => exact fun _ => Iff.rfl
  | cons event events ih =>
    intro s inv
    have same := exact_iff s event events inv
    constructor
    · rintro ⟨holds, later⟩
      have good := same.mp holds
      exact ⟨good, fun s' moved => (ih (preserves s event events s' inv good moved)).mp
        (later s' moved)⟩
    · rintro ⟨good, later⟩
      exact ⟨same.mpr good, fun s' moved => (ih (preserves s event events s' inv good moved)).mpr
        (later s' moved)⟩

theorem Guarded.throughout_iff (guarded : Guarded step P Inv Bad) {s : σ} (inv : Inv s) :
    Throughout step P s events ↔ Avoids step Bad s events := by
  have along : GuardedAlong step P (fun s _ => Inv s) Bad :=
    ⟨fun s _ => guarded.holds s, fun s event _ => guarded.preserves s event,
      fun s event _ => guarded.breaks s event⟩
  exact along.throughout_iff inv

/-- For steps that are bad by their event alone, where every step has a result. -/
theorem avoids_event_iff {Bad : ε → Prop} (total : ∀ s event, (step s event).isSome) {s : σ} :
    Avoids step (fun _ event => Bad event) s events ↔ ∀ event ∈ events, ¬ Bad event := by
  induction events generalizing s with
  | nil => exact iff_of_true trivial nofun
  | cons event events ih =>
    obtain ⟨s', moved⟩ := Option.isSome_iff_exists.mp (total s event)
    rw [List.forall_mem_cons, Avoids]
    constructor
    · exact fun ⟨good, later⟩ => ⟨good, ih.mp (later s' moved)⟩
    · exact fun ⟨good, later⟩ => ⟨good, fun _ _ => ih.mpr later⟩

end PartialRuns
