/-! # Properties of all states and all steps of a run

A system is a partial step function on its states; an event that is not enabled has no
result. When each single step keeps a property exactly under a condition on the state
before it and the event, a whole run keeps the property exactly when every step that it
takes meets the condition (`throughout_iff`). The same holds of a relation that every
state has to have to every later one (`lasting_iff`).
-/

namespace Monitor.Runs

open List Option

section

variable {S E : Type} (step : S → E → Option S)

/-- `P` holds in every state that the events lead through. -/
def Throughout (P : S → Prop) : S → List E → Prop
  | s, [] => P s
  | s, e :: es => P s ∧ ∀ s', step s e = some s' → Throughout P s' es

/-- `Q` holds of every step that is taken, with the state before it. -/
def EachStep (Q : S → E → Prop) : S → List E → Prop
  | _, [] => True
  | s, e :: es => ∀ s', step s e = some s' → Q s e ∧ EachStep Q s' es

/-- `R` leads from every state to itself and to every later one. -/
def Ever (R : S → S → Prop) : S → List E → Prop
  | s, [] => R s s
  | s, e :: es => Throughout step (R s) s (e :: es) ∧ ∀ s', step s e = some s' → Ever R s' es

end

variable {S E : Type} {step : S → E → Option S}

instance EachStep.decidable {Q : S → E → Prop} [∀ s e, Decidable (Q s e)] :
    ∀ (s : S) (es : List E), Decidable (EachStep step Q s es)
  | _, [] => isTrue trivial
  | s, e :: es =>
    match taken : step s e with
    | none => isTrue fun s' here => by
      rw [taken] at here
      cases here
    | some next =>
      have : Decidable (EachStep step Q next es) := EachStep.decidable next es
      decidable_of_iff (Q s e ∧ EachStep step Q next es) (by
        constructor
        · intro both s' here
          cases taken.symm.trans here
          exact both
        · exact fun each => each next taken)

variable {s : S} {es : List E} {P : S → Prop}

theorem Throughout.head (h : Throughout step P s es) : P s := by
  cases es with
  | nil => exact h
  | cons e es => exact h.1

theorem Throughout.last {s' : S} (h : Throughout step P s es)
    (run : es.foldlM step s = some s') : P s' := by
  induction es generalizing s with
  | nil =>
    cases run
    exact h
  | cons e es ih =>
    simp only [foldlM_cons, bind_eq_bind, bind_eq_some_iff] at run
    obtain ⟨next, first, later⟩ := run
    exact ih (h.2 next first) later

theorem not_throughout {s' : S} (run : es.foldlM step s = some s')
    (bad : ¬ P s') : ¬ Throughout step P s es :=
  fun all => bad (all.last run)

theorem Throughout.mono {P P' : S → Prop} (weaker : ∀ s, P s → P' s)
    (h : Throughout step P s es) : Throughout step P' s es := by
  induction es generalizing s with
  | nil => exact weaker s h
  | cons e es ih => exact ⟨weaker s h.1, fun s' taken => ih (h.2 s' taken)⟩

theorem Throughout.and {P P' : S → Prop} (h : Throughout step P s es)
    (h' : Throughout step P' s es) : Throughout step (fun s => P s ∧ P' s) s es := by
  induction es generalizing s with
  | nil => exact ⟨h, h'⟩
  | cons e es ih => exact ⟨⟨h.1, h'.1⟩, fun s' taken => ih (h.2 s' taken) (h'.2 s' taken)⟩

variable {R : S → S → Prop}

theorem Ever.throughout (h : Ever step R s es) : Throughout step (R s) s es := by
  cases es with
  | nil => exact h
  | cons e es => exact h.1

theorem not_ever {a b : S} {e : E}
    (run : es.foldlM step s = some a) (taken : step a e = some b) (bad : ¬ R a b) :
    ¬ Ever step R s (es ++ [e]) := by
  induction es generalizing s with
  | nil =>
    cases run
    exact fun ever => bad (ever.1.2 b taken)
  | cons first es ih =>
    simp only [foldlM_cons, bind_eq_bind, bind_eq_some_iff] at run
    obtain ⟨next, here, later⟩ := run
    exact fun ever => ih later (ever.2 next here)

theorem throughout_before (refl : ∀ s, R s s) (trans : ∀ {a b c}, R a b → R b c → R a c)
    (grows : ∀ {s e s'}, step s e = some s' → R s s') {last : S}
    (run : es.foldlM step s = some last) : Throughout step (R · last) s es ∧ R s last := by
  induction es generalizing s with
  | nil =>
    cases run
    exact ⟨refl _, refl _⟩
  | cons e es ih =>
    simp only [foldlM_cons, bind_eq_bind, bind_eq_some_iff] at run
    obtain ⟨next, first, later⟩ := run
    have below : R s last := trans (grows first) (ih later).2
    refine ⟨⟨below, fun s' taken => ?_⟩, below⟩
    cases first.symm.trans taken
    exact (ih later).1

variable {Q : S → E → Prop} (Inv : S → Prop)

theorem throughout_of_each (implied : ∀ s, Inv s → P s)
    (kept : ∀ s e s', Inv s → Q s e → step s e = some s' → Inv s') (es : List E) :
    ∀ {s : S}, Inv s → EachStep step Q s es → Throughout step P s es := by
  induction es with
  | nil => exact fun inv _ => implied _ inv
  | cons e es ih =>
    intro s inv each
    refine ⟨implied _ inv, fun s' taken => ?_⟩
    obtain ⟨here, later⟩ := each s' taken
    exact ih (kept s e s' inv here taken) later

theorem eachStep_of_each {P Q : S → E → Prop}
    (kept : ∀ s e s', Inv s → Q s e → step s e = some s' → P s e ∧ Inv s') (es : List E) :
    ∀ {s : S}, Inv s → EachStep step Q s es → EachStep step P s es := by
  induction es with
  | nil => exact fun _ _ => trivial
  | cons e es ih =>
    intro s inv each s' taken
    obtain ⟨here, later⟩ := each s' taken
    obtain ⟨holds, inv'⟩ := kept s e s' inv here taken
    exact ⟨holds, ih inv' later⟩

theorem throughout_of_kept (implied : ∀ s, Inv s → P s)
    (kept : ∀ s e s', Inv s → step s e = some s' → Inv s') (es : List E) :
    ∀ {s : S}, Inv s → Throughout step P s es := by
  induction es with
  | nil => exact fun inv => implied _ inv
  | cons e es ih => exact fun inv => ⟨implied _ inv, fun s' taken => ih (kept _ e s' inv taken)⟩

theorem eachStep_of_forall (all : ∀ e ∈ es, ∀ s, Q s e) :
    ∀ {s : S}, EachStep step Q s es := by
  induction es with
  | nil => exact trivial
  | cons e es ih =>
    exact fun s' _ => ⟨all e mem_cons_self _, ih fun e' later => all e' (mem_cons_of_mem e later)⟩

theorem not_eachStep {a b : S} {e : E} (run : es.foldlM step s = some a)
    (taken : step a e = some b) (bad : ¬ Q a e) : ¬ EachStep step Q s (es ++ [e]) := by
  induction es generalizing s with
  | nil =>
    cases run
    exact fun each => bad (each b taken).1
  | cons first es ih =>
    simp only [foldlM_cons, bind_eq_bind, bind_eq_some_iff] at run
    obtain ⟨next, here, later⟩ := run
    exact fun each => ih later (each next here).2

theorem eachStep_congr {Q Q' : S → E → Prop} (same : ∀ s e s', step s e = some s' → (Q s e ↔ Q' s e))
    (es : List E) : ∀ {s : S}, EachStep step Q s es ↔ EachStep step Q' s es := by
  induction es with
  | nil => exact Iff.rfl
  | cons e es ih =>
    exact forall_congr' fun s' => imp_congr_right fun taken => and_congr (same _ e s' taken) ih

theorem throughout_iff
    (kept : ∀ s e s', Inv s → P s → step s e = some s' → P s' → Inv s')
    (stays : ∀ s e s', Inv s → P s → step s e = some s' → (P s' ↔ Q s e))
    (es : List E) : ∀ {s : S}, Inv s → P s → (Throughout step P s es ↔ EachStep step Q s es) := by
  induction es with
  | nil => exact fun _ holds => iff_of_true holds trivial
  | cons e es ih =>
    intro s inv holds
    constructor
    · intro all s' taken
      have after := all.2 s' taken
      have here := (stays s e s' inv holds taken).mp after.head
      exact ⟨here, (ih (kept s e s' inv holds taken after.head) after.head).mp after⟩
    · intro each
      refine ⟨holds, fun s' taken => ?_⟩
      obtain ⟨here, later⟩ := each s' taken
      have after := (stays s e s' inv holds taken).mpr here
      exact (ih (kept s e s' inv holds taken after) after).mpr later

theorem lasting_iff {Legal : E → Prop} (refl : ∀ s, R s s) (trans : ∀ {a b c}, R a b → R b c → R a c)
    (kept : ∀ s e s', Legal e → Inv s → P s → step s e = some s' → Inv s')
    (stays : ∀ s e s', Legal e → Inv s → P s → step s e = some s' → (P s' ∧ R s s' ↔ Q s e))
    (es : List E) : ∀ {s : S}, (∀ e ∈ es, Legal e) → Inv s → P s →
      (Throughout step P s es ∧ Ever step R s es ↔ EachStep step Q s es) := by
  induction es with
  | nil => exact fun {s} _ _ holds => iff_of_true ⟨holds, refl s⟩ trivial
  | cons e es ih =>
    intro s legal inv holds
    have here := legal e mem_cons_self
    have later : ∀ e ∈ es, Legal e := fun e' mem => legal e' (mem_cons_of_mem _ mem)
    constructor
    · rintro ⟨all, ever⟩ s' taken
      have after := all.2 s' taken
      have related := (ever.1.2 s' taken).head
      exact ⟨(stays s e s' here inv holds taken).mp ⟨after.head, related⟩,
        (ih later (kept s e s' here inv holds taken) after.head).mp ⟨after, ever.2 s' taken⟩⟩
    · intro each
      have step_ : ∀ s', step s e = some s' →
          Throughout step P s' es ∧ Ever step R s' es ∧ R s s' := by
        intro s' taken
        obtain ⟨met, rest⟩ := each s' taken
        obtain ⟨after, related⟩ := (stays s e s' here inv holds taken).mpr met
        obtain ⟨all, ever⟩ := (ih later (kept s e s' here inv holds taken) after).mpr rest
        exact ⟨all, ever, related⟩
      refine ⟨⟨holds, fun s' taken => (step_ s' taken).1⟩, ⟨refl s, fun s' taken => ?_⟩,
        fun s' taken => (step_ s' taken).2.1⟩
      obtain ⟨_, ever, related⟩ := step_ s' taken
      exact ever.throughout.mono fun _ => trans related

end Monitor.Runs
