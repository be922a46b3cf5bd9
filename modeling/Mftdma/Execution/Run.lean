import Mathlib.Data.List.Basic
import Mathlib.Data.Option.Basic

/-!
# Runs of a partial labelled step

A system is a partial function `step : σ → ε → Option σ` of a state and an
event. `run` folds it over a list of events and fails as soon as one event is
not enabled. `Along` states a condition on every (state, event) pair a run
passes through, and `Throughout` states one on every state it reaches.

The rules at the end are the only inductions over runs that a client needs:
an invariant preserved by each step holds of the last state, and a condition
that decides step by step whether an invariant survives decides it for the run.
-/

namespace Mftdma.Execution

universe u v

variable {σ : Type u} {ε : Type v} (step : σ → ε → Option σ)

/-- Execute the events in order, failing at the first one that is not enabled. -/
def run : σ → List ε → Option σ
  | s, [] => some s
  | s, e :: es => (step s e).bind fun t => run t es

/-- Every event of the run is taken from a state where `P` allows it. -/
def Along (P : σ → ε → Prop) : σ → List ε → Prop
  | _, [] => True
  | s, e :: es => P s e ∧ ∀ t, step s e = some t → Along P t es

/-- `I` holds of the start and of every state the run reaches. -/
def Throughout (I : σ → Prop) : σ → List ε → Prop
  | s, [] => I s
  | s, e :: es => I s ∧ ∀ t, step s e = some t → Throughout I t es

/-- What the steps of a run put out, in order, when a step from `s` by `e` puts out
`out s e`. -/
def outputs {α : Type*} (out : σ → ε → List α) : σ → List ε → List α
  | _, [] => []
  | s, e :: es => out s e ++ (step s e).elim [] fun t => outputs out t es

variable {step} {P Q : σ → ε → Prop} {I : σ → Prop}

@[simp] theorem run_nil (s : σ) : run step s [] = some s := rfl

@[simp] theorem run_cons (s : σ) (e : ε) (es : List ε) :
    run step s (e :: es) = (step s e).bind fun t => run step t es := rfl

theorem run_cons_eq_some {s t : σ} {e : ε} {es : List ε} :
    run step s (e :: es) = some t ↔ ∃ m, step s e = some m ∧ run step m es = some t := by
  rw [run_cons, Option.bind_eq_some_iff]

/-- What follows the first step of a run. -/
theorem run_of_run_cons {s m t : σ} {e : ε} {es : List ε} (first : step s e = some m)
    (reach : run step s (e :: es) = some t) : run step m es = some t := by
  rwa [run_cons, first] at reach

/-- A run over a concatenation is a run over each part in turn. -/
theorem run_append (s : σ) (xs ys : List ε) :
    run step s (xs ++ ys) = (run step s xs).bind fun t => run step t ys := by
  induction xs generalizing s with
  | nil => rfl
  | cons x xs ih =>
      rw [List.cons_append, run_cons, run_cons]
      cases hx : step s x with
      | none => rfl
      | some t => simpa using ih t

/-- A run on events that stand for others. -/
theorem run_map {δ : Type*} (f : δ → ε) (s : σ) (ds : List δ) :
    run step s (ds.map f) = run (fun a d => step a (f d)) s ds := by
  induction ds generalizing s with
  | nil => rfl
  | cons d ds ih =>
      rw [List.map_cons, run_cons, run_cons]
      exact congrArg _ (funext ih)

theorem run_append_eq_some {s t : σ} {xs ys : List ε} :
    run step s (xs ++ ys) = some t ↔
      ∃ m, run step s xs = some m ∧ run step m ys = some t := by
  rw [run_append, Option.bind_eq_some_iff]

/-- What follows the first part of a run. -/
theorem run_of_run_append {s m t : σ} {xs ys : List ε} (before : run step s xs = some m)
    (reach : run step s (xs ++ ys) = some t) : run step m ys = some t := by
  rwa [run_append, before] at reach

theorem run_snoc_eq_some {s t : σ} {xs : List ε} {e : ε} :
    run step s (xs ++ [e]) = some t ↔
      ∃ m, run step s xs = some m ∧ step m e = some t := by
  simp only [run_append_eq_some, run_cons_eq_some, run_nil, Option.some.injEq, exists_eq_right]

/-- A run passes through each of its events. -/
theorem exists_step_of_getElem {s t : σ} {es : List ε} {k : ℕ} {e : ε} (found : es[k]? = some e)
    (reach : run step s es = some t) :
    ∃ a b, run step s (es.take k) = some a ∧ step a e = some b ∧
      run step b (es.drop (k + 1)) = some t := by
  have split : es.take k ++ e :: es.drop (k + 1) = es := by
    obtain ⟨inside, get⟩ := List.getElem?_eq_some_iff.mp found
    rw [← get, List.getElem_cons_drop, List.take_append_drop]
  rw [← split] at reach
  obtain ⟨a, before, rest⟩ := run_append_eq_some.mp reach
  obtain ⟨b, here, after⟩ := run_cons_eq_some.mp rest
  exact ⟨a, b, before, here, after⟩

@[simp] theorem along_nil (s : σ) : Along step P s [] ↔ True := Iff.rfl

@[simp] theorem along_cons (s : σ) (e : ε) (es : List ε) :
    Along step P s (e :: es) ↔ P s e ∧ ∀ t, step s e = some t → Along step P t es := Iff.rfl

instance decidableAlong [∀ s e, Decidable (P s e)] : ∀ s es, Decidable (Along step P s es)
  | _, [] => isTrue trivial
  | s, e :: es =>
      haveI : DecidablePred fun t => Along step P t es := fun t => decidableAlong t es
      inferInstanceAs (Decidable (P s e ∧ ∀ t ∈ step s e, Along step P t es))

theorem along_cons_of_step {s m : σ} {e : ε} {es : List ε} (here : step s e = some m) :
    Along step P s (e :: es) ↔ P s e ∧ Along step P m es := by
  rw [along_cons]
  refine and_congr_right fun _ => ⟨fun rest => rest m here, fun rest t ht => ?_⟩
  obtain rfl := Option.some.inj (here.symm.trans ht)
  exact rest

theorem Along.mono {s : σ} {es : List ε} (h : Along step P s es)
    (imp : ∀ t e, P t e → Q t e) : Along step Q s es := by
  induction es generalizing s with
  | nil => trivial
  | cons e es ih => exact ⟨imp s e h.1, fun t ht => ih (h.2 t ht)⟩

theorem Along.and {s : σ} {es : List ε} (h : Along step P s es) (h' : Along step Q s es) :
    Along step (fun a e => P a e ∧ Q a e) s es := by
  induction es generalizing s with
  | nil => trivial
  | cons e es ih => exact ⟨⟨h.1, h'.1⟩, fun t ht => ih (h.2 t ht) (h'.2 t ht)⟩

/-- A condition holds along a run exactly when it holds at each split of it. -/
theorem along_iff_forall_split {s : σ} {es : List ε} :
    Along step P s es ↔
      ∀ xs e ys m, es = xs ++ e :: ys → run step s xs = some m → P m e := by
  induction es generalizing s with
  | nil => simp
  | cons e es ih =>
      rw [along_cons]
      constructor
      · rintro ⟨head, tail⟩ xs e' ys m split reach
        cases xs with
        | nil =>
            obtain ⟨rfl, rfl⟩ := List.cons.inj split
            obtain rfl := Option.some.inj reach
            exact head
        | cons x xs =>
            obtain ⟨rfl, rfl⟩ := List.cons.inj split
            obtain ⟨t, ht, hm⟩ := run_cons_eq_some.mp reach
            exact ih.mp (tail t ht) xs e' ys m rfl hm
      · intro h
        refine ⟨h [] e es s rfl rfl, fun t ht => ih.mpr ?_⟩
        intro xs e' ys m split reach
        exact h (e :: xs) e' ys m (by rw [split, List.cons_append])
          (run_cons_eq_some.mpr ⟨t, ht, reach⟩)

/-- A condition holds along a run and what follows it. -/
theorem along_append_iff {s : σ} {xs ys : List ε} :
    Along step P s (xs ++ ys) ↔
      Along step P s xs ∧ ∀ t, run step s xs = some t → Along step P t ys := by
  induction xs generalizing s with
  | nil => simp
  | cons x xs ih =>
      simp only [List.cons_append, along_cons, ih, run_cons_eq_some]
      constructor
      · rintro ⟨head, rest⟩
        exact ⟨⟨head, fun m hm => (rest m hm).1⟩, fun t ⟨m, hm, ht⟩ => (rest m hm).2 t ht⟩
      · rintro ⟨⟨head, rest⟩, last⟩
        exact ⟨head, fun m hm => ⟨rest m hm, fun t ht => last t ⟨m, hm, ht⟩⟩⟩

/-- A condition holds along a run with one more event if it holds along the run
and of the event in the state reached. -/
theorem along_snoc_iff {s : σ} {es : List ε} {e : ε} :
    Along step P s (es ++ [e]) ↔
      Along step P s es ∧ ∀ t, run step s es = some t → P t e := by
  simp only [along_append_iff, along_cons, along_nil, implies_true, and_true]

theorem Throughout.head {s : σ} {es : List ε} (h : Throughout step I s es) : I s := by
  cases es with
  | nil => exact h
  | cons e es => exact h.1

theorem Throughout.last {s t : σ} {es : List ε} (h : Throughout step I s es)
    (reach : run step s es = some t) : I t := by
  induction es generalizing s with
  | nil =>
      obtain rfl := Option.some.inj reach
      exact h
  | cons e es ih =>
      obtain ⟨m, hm, ht⟩ := run_cons_eq_some.mp reach
      exact ih (h.2 m hm) ht

/-- What holds throughout a run holds throughout its last part. -/
theorem Throughout.of_run_append {s m : σ} {xs ys : List ε} (h : Throughout step I s (xs ++ ys))
    (before : run step s xs = some m) : Throughout step I m ys := by
  induction xs generalizing s with
  | nil =>
      obtain rfl := Option.some.inj before
      exact h
  | cons x xs ih =>
      obtain ⟨t, ht, rest⟩ := run_cons_eq_some.mp before
      exact ih (h.2 t ht) rest

/-- What every step keeps where `P` allows it holds after a run along which `P` does. -/
theorem run_invariant_along {s t : σ} {es : List ε} (init : I s) (allowed : Along step P s es)
    (keep : ∀ a e b, I a → P a e → step a e = some b → I b)
    (reach : run step s es = some t) : I t := by
  induction es generalizing s with
  | nil =>
      obtain rfl := Option.some.inj reach
      exact init
  | cons e es ih =>
      obtain ⟨m, hm, ht⟩ := run_cons_eq_some.mp reach
      exact ih (keep s e m init allowed.1 hm) (allowed.2 m hm) ht

/-- Such an invariant holds along the run with it. -/
theorem Along.invariant {s : σ} {es : List ε} (h : Along step P s es) (init : I s)
    (keep : ∀ a e b, I a → P a e → step a e = some b → I b) :
    Along step (fun a e => I a ∧ P a e) s es := by
  induction es generalizing s with
  | nil => trivial
  | cons e es ih =>
      exact ⟨⟨init, h.1⟩, fun t ht => ih (h.2 t ht) (keep s e t init h.1 ht)⟩

/-- The same rule when the invariant speaks of the events so far, which are `past`
when the run begins. -/
theorem run_history_along {I : List ε → σ → Prop} {s t : σ} {past es : List ε} (init : I past s)
    (allowed : Along step P s es)
    (keep : ∀ past a e b, I past a → P a e → step a e = some b → I (past ++ [e]) b)
    (reach : run step s es = some t) : I (past ++ es) t := by
  induction es generalizing s past with
  | nil =>
      obtain rfl := Option.some.inj reach
      rwa [List.append_nil]
  | cons e es ih =>
      obtain ⟨m, hm, ht⟩ := run_cons_eq_some.mp reach
      have rest := ih (keep past s e m init allowed.1 hm) (allowed.2 m hm) ht
      rwa [List.append_assoc] at rest

theorem along_of_forall {s : σ} {es : List ε} (h : ∀ e ∈ es, ∀ a, P a e) : Along step P s es := by
  induction es generalizing s with
  | nil => trivial
  | cons e es ih =>
      exact ⟨h e List.mem_cons_self s, fun t _ => ih fun e' he => h e' (List.mem_cons_of_mem e he)⟩

/-- A run comes to its end exactly when each of its steps is enabled; an invariant may be
needed to tell which ones are. -/
theorem run_isSome_iff_along_of {s : σ} {es : List ε} (init : I s)
    (keep : ∀ a e b, I a → step a e = some b → I b)
    (enabled : ∀ a e, I a → ((step a e).isSome = true ↔ P a e)) :
    (run step s es).isSome = true ↔ Along step P s es := by
  induction es generalizing s with
  | nil => exact iff_of_true rfl trivial
  | cons e es ih =>
      rw [run_cons, along_cons, ← enabled s e init]
      cases here : step s e with
      | none => simp
      | some t => simpa using ih (keep s e t init here)

theorem run_isSome_iff_along (enabled : ∀ a e, (step a e).isSome = true ↔ P a e) (s : σ)
    (es : List ε) : (run step s es).isSome = true ↔ Along step P s es :=
  run_isSome_iff_along_of (I := fun _ => True) trivial (fun _ _ _ _ _ => trivial)
    fun a e _ => enabled a e

/-- Conditions that agree wherever an invariant holds agree along the run. -/
theorem along_congr {s : σ} {es : List ε} (init : I s)
    (keep : ∀ a e b, I a → step a e = some b → I b) (agree : ∀ a e, I a → (P a e ↔ Q a e)) :
    Along step P s es ↔ Along step Q s es := by
  induction es generalizing s with
  | nil => exact Iff.rfl
  | cons e es ih =>
      rw [along_cons, along_cons, agree s e init]
      exact and_congr_right fun _ => forall₂_congr fun t ht => ih (keep s e t init ht)

/-- An invariant of every enabled step is an invariant of the run. -/
theorem run_invariant {s t : σ} {es : List ε} (init : I s)
    (keep : ∀ a e b, I a → step a e = some b → I b) (reach : run step s es = some t) : I t := by
  have any : Along step (fun _ _ => True) s es := along_of_forall fun _ _ _ => trivial
  exact run_invariant_along init any (fun a e b kept _ stepped => keep a e b kept stepped) reach

section outputs

variable {α : Type*} {out : σ → ε → List α}

theorem outputs_cons_of_step {s m : σ} {e : ε} {es : List ε} (here : step s e = some m) :
    outputs step out s (e :: es) = out s e ++ outputs step out m es := by
  rw [outputs, here, Option.elim_some]

theorem outputs_append (s : σ) (xs ys : List ε) :
    outputs step out s (xs ++ ys) =
      outputs step out s xs ++ (run step s xs).elim [] fun t => outputs step out t ys := by
  induction xs generalizing s with
  | nil => rfl
  | cons x xs ih =>
      rw [List.cons_append, outputs, outputs, run_cons, List.append_assoc]
      cases step s x with
      | none => simp
      | some t => simp [ih]

/-- The rule for an invariant that speaks of the outputs so far, which are `past` when the
run begins. -/
theorem run_outputs_along (past : List α) {I : List α → σ → Prop} {s t : σ} {es : List ε}
    (init : I past s) (allowed : Along step P s es)
    (keep : ∀ past a e b, I past a → P a e → step a e = some b → I (past ++ out a e) b)
    (reach : run step s es = some t) : I (past ++ outputs step out s es) t := by
  induction es generalizing s past with
  | nil =>
      obtain rfl := Option.some.inj reach
      rwa [outputs, List.append_nil]
  | cons e es ih =>
      obtain ⟨m, hm, ht⟩ := run_cons_eq_some.mp reach
      have rest := ih _ (keep past s e m init allowed.1 hm) (allowed.2 m hm) ht
      rwa [outputs_cons_of_step hm, ← List.append_assoc]

/-- A state that records what each step puts out has recorded the outputs of the run. -/
theorem run_record (record : σ → List α) {s t : σ} {es : List ε} (init : I s)
    (keep : ∀ a e b, I a → step a e = some b → I b)
    (grow : ∀ a e b, I a → step a e = some b → record b = record a ++ out a e)
    (reach : run step s es = some t) : record t = record s ++ outputs step out s es := by
  have start : I s ∧ record s = record s ++ [] := ⟨init, (List.append_nil _).symm⟩
  have any : Along step (fun _ _ => True) s es := along_of_forall fun _ _ _ => trivial
  apply (run_outputs_along [] (I := fun outs b => I b ∧ record b = record s ++ outs) start any _
    reach).2
  rintro outs a e b ⟨side, recorded⟩ - stepped
  exact ⟨keep a e b side stepped, by rw [grow a e b side stepped, recorded, List.append_assoc]⟩

/-- All that a run puts out is good exactly when along the run each step puts out
only what is good. -/
theorem forall_outputs_iff_along {good : α → Prop} {s : σ} {es : List ε} :
    (∀ x ∈ outputs step out s es, good x) ↔ Along step (fun a e => ∀ x ∈ out a e, good x) s es := by
  induction es generalizing s with
  | nil => simp [outputs]
  | cons e es ih =>
      rw [outputs, List.forall_mem_append, along_cons]
      apply and_congr_right
      intro _
      cases here : step s e with
      | none => simp
      | some t => simp [ih]

end outputs

/-- A run stays good in its states and in its steps exactly when `P` allows every step, if
the steps that `P` allows are good and keep something `J` that is good, and no other good
step leads from there to a good state. `A` is what is known of the steps in any case. -/
theorem throughout_and_along_iff {A : σ → ε → Prop} {J : σ → Prop} {s t : σ} {es : List ε}
    (init : J s) (allowed : Along step A s es) (good : ∀ a, J a → I a)
    (keep : ∀ a e b, J a → A a e → step a e = some b → P a e → J b ∧ Q a e)
    (only : ∀ a e b, J a → A a e → step a e = some b → I b → Q a e → P a e)
    (reach : run step s es = some t) :
    Throughout step I s es ∧ Along step Q s es ↔ Along step P s es := by
  induction es generalizing s with
  | nil => exact ⟨fun _ => trivial, fun _ => ⟨good s init, trivial⟩⟩
  | cons e es ih =>
      obtain ⟨m, hm, ht⟩ := run_cons_eq_some.mp reach
      have next : ∀ u, step s e = some u → u = m :=
        fun u hu => Option.some.inj (hu.symm.trans hm)
      rw [along_cons_of_step hm, along_cons_of_step hm]
      have later := allowed.2 m hm
      constructor
      · rintro ⟨⟨-, states⟩, step, steps⟩
        have here : P s e := only s e m init allowed.1 hm (states m hm).head step
        have kept := (keep s e m init allowed.1 hm here).1
        exact ⟨here, (ih kept later ht).mp ⟨states m hm, steps⟩⟩
      · rintro ⟨here, rest⟩
        obtain ⟨kept, step⟩ := keep s e m init allowed.1 hm here
        obtain ⟨states, steps⟩ := (ih kept later ht).mpr rest
        refine ⟨⟨good s init, fun u hu => ?_⟩, step, steps⟩
        obtain rfl := next u hu
        exact states

/-- The same rule for the states alone. -/
theorem throughout_iff_along_of {A : σ → ε → Prop} {J : σ → Prop} {s t : σ} {es : List ε}
    (init : J s) (allowed : Along step A s es) (good : ∀ a, J a → I a)
    (keep : ∀ a e b, J a → A a e → step a e = some b → P a e → J b)
    (only : ∀ a e b, J a → A a e → step a e = some b → I b → P a e)
    (reach : run step s es = some t) : Throughout step I s es ↔ Along step P s es := by
  have steps : Along step (fun _ _ => True) s es := along_of_forall fun _ _ _ => trivial
  rw [← throughout_and_along_iff init allowed good
    (fun a e b kept known stepped here => ⟨keep a e b kept known stepped here, trivial⟩)
    (fun a e b kept known stepped later _ => only a e b kept known stepped later) reach]
  exact (and_iff_left steps).symm

/-- If from every good state a step leads to a good state exactly when `P`
allows it, the run stays good exactly when `P` allows every step. `W` is what
the steps keep in any case. -/
theorem throughout_iff_along {W : σ → Prop} {s t : σ} {es : List ε} (side : W s) (init : I s)
    (keep : ∀ a e b, W a → step a e = some b → W b)
    (decides : ∀ a e b, W a → I a → step a e = some b → (I b ↔ P a e))
    (reach : run step s es = some t) : Throughout step I s es ↔ Along step P s es := by
  apply throughout_iff_along_of (A := fun _ _ => True) (J := fun a => W a ∧ I a) ⟨side, init⟩
    (along_of_forall fun _ _ _ => trivial) (fun a h => h.2)
  · rintro a e b ⟨side, init⟩ - stepped here
    exact ⟨keep a e b side stepped, (decides a e b side init stepped).mpr here⟩
  · rintro a e b ⟨side, init⟩ - stepped later
    exact (decides a e b side init stepped).mp later
  · exact reach

/-- The same rule for runs that need not come to their end, when `P` allows what is not
enabled. -/
theorem throughout_iff_along_of_stuck {W : σ → Prop} {s : σ} {es : List ε} (side : W s)
    (init : I s) (keep : ∀ a e b, W a → step a e = some b → W b)
    (decides : ∀ a e b, W a → I a → step a e = some b → (I b ↔ P a e))
    (stuck : ∀ a e, W a → step a e = none → P a e) :
    Throughout step I s es ↔ Along step P s es := by
  induction es generalizing s with
  | nil => exact iff_of_true init trivial
  | cons e es ih =>
      rw [along_cons]
      cases here : step s e with
      | none =>
          exact iff_of_true ⟨init, fun t ht => by rw [here] at ht; cases ht⟩
            ⟨stuck s e side here, fun t ht => by cases ht⟩
      | some m =>
          have next := decides s e m side init here
          have side' := keep s e m side here
          constructor
          · rintro ⟨-, rest⟩
            have later := rest m here
            refine ⟨next.mp later.head, fun t ht => ?_⟩
            obtain rfl := Option.some.inj ht
            exact (ih side' later.head).mp later
          · rintro ⟨allowed, rest⟩
            refine ⟨init, fun t ht => ?_⟩
            obtain rfl := Option.some.inj (here.symm.trans ht)
            exact (ih side' (next.mpr allowed)).mpr (rest m rfl)

end Mftdma.Execution
