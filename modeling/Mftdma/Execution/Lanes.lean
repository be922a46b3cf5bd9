import Mftdma.Execution.Run

/-!
# Systems made of lanes

A system serves many keys at once. Each event is for at most one key, and the step by it
is a turn of that key's lane and leaves the other lanes alone. A lane need not exist
before its first event, and what it then holds may depend on the memory it is made from,
so `Rep s k b` only says that the lane of `k` may be the machine `b` in the state `s`.

`Lanes` lists what a client has to show of one step. It is a backward simulation: what a
lane may be after a step comes from what it may have been before. `Lanes.split` is the
law for runs: the whole is as good as one machine for each key, each of which gets the
events of its own key and starts from what the lane may have been at first.
-/

namespace Mftdma.Execution

variable {σ ε κ β α : Type*}

/-- The events of a key, in order. -/
def ofKey [DecidableEq κ] (key : ε → Option κ) (k : κ) (es : List ε) : List ε :=
  es.filter fun e => key e = some k

/-- What a system puts out at the events of a key. -/
def outputsOf [DecidableEq κ] (step : σ → ε → Option σ) (out : σ → ε → List α)
    (key : ε → Option κ) (k : κ) : σ → List ε → List α :=
  outputs step fun s e => if key e = some k then out s e else []

/-- What is tagged with a key. -/
def own [DecidableEq κ] (k : κ) (xs : List (κ × α)) : List α :=
  (xs.filter fun x => x.1 = k).map Prod.snd

/-- The steps of a system with the invariant `I` are turns of its lanes. -/
structure Lanes (step : σ → ε → Option σ) (out : σ → ε → List α) (key : ε → Option κ)
    (turn : β → ε → Option β) (emit : β → ε → List α) (I : σ → Prop)
    (Rep : σ → κ → β → Prop) : Prop where
  keep : ∀ s e t, I s → step s e = some t → I t
  total : ∀ s k, I s → ∃ b, Rep s k b
  own : ∀ s e t k c, I s → step s e = some t → key e = some k → Rep t k c →
    ∃ b, Rep s k b ∧ turn b e = some c ∧ emit b e = out s e
  other : ∀ s e t k c, I s → step s e = some t → key e ≠ some k → Rep t k c →
    Rep s k c
  stuck : ∀ s e, I s → step s e = none → ∃ k b, key e = some k ∧ Rep s k b ∧ turn b e = none

section ofKey

variable [DecidableEq κ] {key : ε → Option κ} {k : κ} {e : ε} {es : List ε}

theorem ofKey_cons_self (own : key e = some k) : ofKey key k (e :: es) = e :: ofKey key k es :=
  List.filter_cons_of_pos (decide_eq_true own)

theorem ofKey_cons_other (other : key e ≠ some k) : ofKey key k (e :: es) = ofKey key k es :=
  List.filter_cons_of_neg (by simpa using other)

/-- Two keys that pick the same events of a run pick the same outputs. -/
theorem outputsOf_congr {κ' : Type*} [DecidableEq κ'] {step : σ → ε → Option σ}
    {out : σ → ε → List α} {key' : ε → Option κ'} {k' : κ'} {s : σ}
    (same : ∀ e ∈ es, key e = some k ↔ key' e = some k') :
    outputsOf step out key k s es = outputsOf step out key' k' s es := by
  induction es generalizing s with
  | nil => rfl
  | cons e es ih =>
      obtain ⟨here, later⟩ := List.forall_mem_cons.mp same
      rw [outputsOf, outputsOf, outputs, outputs, if_congr here rfl rfl]
      refine congrArg _ ?_
      cases step s e with
      | none => rfl
      | some t => exact ih later

theorem ofKey_congr {κ' : Type*} [DecidableEq κ'] {key' : ε → Option κ'} {k' : κ'}
    (same : ∀ e ∈ es, key e = some k ↔ key' e = some k') : ofKey key k es = ofKey key' k' es :=
  List.filter_congr fun e he => decide_eq_decide.mpr (same e he)

end ofKey

section own

variable [DecidableEq κ] {k l : κ}

theorem own_append (k : κ) (xs ys : List (κ × α)) : own k (xs ++ ys) = own k xs ++ own k ys := by
  rw [own, List.filter_append, List.map_append]
  rfl

theorem own_map_self (k : κ) (as : List α) : own k (as.map (Prod.mk k)) = as := by
  rw [own, List.filter_eq_self.mpr (by simp), List.map_map]
  exact List.map_id as

theorem own_map_other (other : l ≠ k) (as : List α) : own k (as.map (Prod.mk l)) = [] := by
  rw [own, List.filter_eq_nil_iff.mpr (by simp [other])]
  rfl

theorem own_cons_self (k : κ) (a : α) (xs : List (κ × α)) : own k ((k, a) :: xs) = a :: own k xs := by
  rw [own, List.filter_cons_of_pos (by simp)]
  rfl

theorem own_cons_other (other : l ≠ k) (a : α) (xs : List (κ × α)) :
    own k ((l, a) :: xs) = own k xs := by
  rw [own, List.filter_cons_of_neg (by simpa using other)]
  rfl

/-- Where something of a key stands among what is tagged with it, and among all. -/
theorem own_eq_append_cons {xs : List (κ × α)} {as bs : List α} {a : α}
    (same : own k xs = as ++ a :: bs) :
    ∃ ys zs, xs = ys ++ (k, a) :: zs ∧ own k ys = as ∧ own k zs = bs := by
  obtain ⟨front, back, split, rfl, tail⟩ := List.map_eq_append_iff.mp same
  obtain ⟨x, back, rfl, rfl, rfl⟩ := List.map_eq_cons_iff.mp tail
  obtain ⟨ys, ws, rfl, rfl, last⟩ := List.filter_eq_append_iff.mp split
  obtain ⟨us, zs, rfl, none, mine, rfl⟩ := List.filter_eq_cons_iff.mp last
  have skipped : own k us = [] := by
    rw [own, List.filter_eq_nil_iff.mpr none]
    rfl
  have tagged : (k, x.2) = x := Prod.ext (of_decide_eq_true mine).symm rfl
  refine ⟨ys ++ us, zs, ?_, ?_, rfl⟩
  · rw [tagged, List.append_assoc]
  · rw [own_append, skipped, List.append_nil]
    rfl

omit [DecidableEq κ] in
/-- Outputs without their tags. -/
theorem map_snd_outputs {step : σ → ε → Option σ} {out : σ → ε → List α} (tag : ε → κ)
    (s : σ) (es : List ε) :
    (outputs step (fun a e => (out a e).map (Prod.mk (tag e))) s es).map Prod.snd =
      outputs step out s es := by
  induction es generalizing s with
  | nil => rfl
  | cons e es ih =>
      have here : ((out s e).map (Prod.mk (tag e))).map Prod.snd = out s e :=
        List.map_map.trans (List.map_id _)
      rw [outputs, outputs, List.map_append, here]
      cases step s e with
      | none => rfl
      | some t => exact congrArg _ (ih t)

/-- Outputs that are tagged with the keys of their events are told apart by them. -/
theorem own_outputs {step : σ → ε → Option σ} {out : σ → ε → List α} (tag : ε → κ) (k : κ)
    (s : σ) (es : List ε) :
    own k (outputs step (fun a e => (out a e).map (Prod.mk (tag e))) s es) =
      outputsOf step out (fun e => some (tag e)) k s es := by
  induction es generalizing s with
  | nil => rfl
  | cons e es ih =>
      have rest : own k ((step s e).elim []
            (outputs step (fun a e => (out a e).map (Prod.mk (tag e))) · es)) =
          (step s e).elim [] (outputsOf step out (fun e => some (tag e)) k · es) := by
        cases step s e with
        | none => rfl
        | some t => exact ih t
      rw [outputs, own_append, rest, outputsOf, outputs]
      refine congrArg (· ++ _) ?_
      by_cases here : tag e = k
      · rw [here, own_map_self, if_pos rfl]
      · rw [own_map_other here, if_neg (by simpa using here)]

end own

namespace Lanes

variable [DecidableEq κ] {step : σ → ε → Option σ} {out : σ → ε → List α} {key : ε → Option κ}
  {turn : β → ε → Option β} {emit : β → ε → List α} {I : σ → Prop} {Rep : σ → κ → β → Prop}

/-- The lane of `k` runs from `b` as the whole does from `s` to `t`. -/
structure Follows (step : σ → ε → Option σ) (out : σ → ε → List α) (key : ε → Option κ)
    (turn : β → ε → Option β) (emit : β → ε → List α) (Rep : σ → κ → β → Prop) (s t : σ)
    (es : List ε) (k : κ) (b : β) : Prop where
  ends : ∃ c, run turn b (ofKey key k es) = some c ∧ Rep t k c
  same : outputs turn emit b (ofKey key k es) = outputsOf step out key k s es

/-- A step of the whole in front of a run. -/
theorem Follows.cons (h : Lanes step out key turn emit I Rep) {s m t : σ} {e : ε} {es : List ε}
    {k : κ} {c : β} (init : I s) (first : step s e = some m) (rep : Rep m k c)
    (rest : Follows step out key turn emit Rep m t es k c) :
    ∃ b, Rep s k b ∧ Follows step out key turn emit Rep s t (e :: es) k b := by
  obtain ⟨⟨d, reach, last⟩, same⟩ := rest
  by_cases own : key e = some k
  · obtain ⟨b, before, moved, emitted⟩ := h.own s e m k c init first own rep
    refine ⟨b, before, ⟨d, ?_, last⟩, ?_⟩
    · rw [ofKey_cons_self own]
      exact run_cons_eq_some.mpr ⟨c, moved, reach⟩
    · rw [ofKey_cons_self own, outputs_cons_of_step moved, same, outputsOf,
        outputs_cons_of_step first, if_pos own, emitted]
  · refine ⟨c, h.other s e m k c init first own rep, ⟨d, ?_, last⟩, ?_⟩
    · rwa [ofKey_cons_other own]
    · rw [ofKey_cons_other own, same, outputsOf, outputs_cons_of_step first,
        if_neg own, List.nil_append]

/-- A run of the whole that ends is a run of each lane. -/
theorem exists_follows (h : Lanes step out key turn emit I Rep) {s t : σ} {es : List ε}
    (init : I s) (reach : run step s es = some t) (k : κ) :
    ∃ b, Rep s k b ∧ Follows step out key turn emit Rep s t es k b := by
  induction es generalizing s with
  | nil =>
      obtain rfl := Option.some.inj reach
      obtain ⟨b, rep⟩ := h.total s k init
      exact ⟨b, rep, ⟨b, rfl, rep⟩, rfl⟩
  | cons e es ih =>
      obtain ⟨m, first, rest⟩ := run_cons_eq_some.mp reach
      obtain ⟨c, rep, follows⟩ := ih (h.keep s e m init first) rest
      exact Follows.cons h init first rep follows

/-- Where the whole gets stuck, a lane does. -/
theorem exists_stuck (h : Lanes step out key turn emit I Rep) {s : σ} {es : List ε} (init : I s)
    (fails : run step s es = none) :
    ∃ k b, Rep s k b ∧ run turn b (ofKey key k es) = none := by
  induction es generalizing s with
  | nil => cases fails
  | cons e es ih =>
      cases first : step s e with
      | none =>
          obtain ⟨k, b, own, rep, stuck⟩ := h.stuck s e init first
          refine ⟨k, b, rep, ?_⟩
          rw [ofKey_cons_self own, run_cons, stuck, Option.bind_none]
      | some m =>
          rw [run_cons, first, Option.bind_some] at fails
          obtain ⟨k, c, rep, stuck⟩ := ih (h.keep s e m init first) fails
          by_cases own : key e = some k
          · obtain ⟨b, before, moved, -⟩ := h.own s e m k c init first own rep
            refine ⟨k, b, before, ?_⟩
            rw [ofKey_cons_self own, run_cons, moved, Option.bind_some, stuck]
          · refine ⟨k, c, h.other s e m k c init first own rep, ?_⟩
            rw [ofKey_cons_other own, stuck]

/-- Each lane starts from something it may hold at first, and runs as if it were alone: the
whole comes to its end exactly when every lane does, and puts out for each key what its
lane does. -/
theorem split (h : Lanes step out key turn emit I Rep) {s : σ} (init : I s) (es : List ε) :
    ∃ start : κ → β, (∀ k, Rep s k (start k)) ∧
      ((run step s es).isSome = true ↔ ∀ k, (run turn (start k) (ofKey key k es)).isSome = true) ∧
      ∀ t, run step s es = some t → ∀ k,
        Follows step out key turn emit Rep s t es k (start k) := by
  cases reach : run step s es with
  | some t =>
      choose start rep follows using exists_follows h init reach
      refine ⟨start, rep, iff_of_true rfl fun k => ?_, fun t' same k => ?_⟩
      · obtain ⟨c, ends, -⟩ := (follows k).ends
        rw [ends]
        rfl
      · obtain rfl := Option.some.inj same
        exact follows k
  | none =>
      obtain ⟨k, b, rep, stuck⟩ := exists_stuck h init reach
      choose start reps using fun k => h.total s k init
      refine ⟨Function.update start k b, fun j => ?_, iff_of_false (by simp) fun all => ?_, by simp⟩
      · by_cases here : j = k
        · subst here
          rwa [Function.update_self]
        · rw [Function.update_of_ne here]
          exact reps j
      · have alone := all k
        rw [Function.update_self, stuck] at alone
        cases alone

end Lanes

end Mftdma.Execution
