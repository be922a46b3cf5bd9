import Mathlib.Data.Nat.Find
import Mathlib.Logic.Function.Basic
import Mftdma.Data.Cyclic
import Mftdma.Execution.Loop

/-!
# Open addressing with linear probing

A table has `n` slots, each empty or held by a key, and a key is searched for from
its home slot on, round the table, up to the first slot that is empty or held by
the key itself. `Found` says that the search finds every key the table holds.

`seek` is a search without a bound, a loop that goes round the table until a slot stops it.
It ends exactly when there is such a slot, and then one round is enough.

Writing a key where its search ended keeps `Found`. Emptying a slot keeps it
exactly when no other key has the slot on its way, and that is what an erasure
without tombstones or re-insertion has to ensure.
-/

namespace Mftdma.Probing

open Cyclic Execution

variable {α : Type*} [DecidableEq α] {n : ℕ}

/-- Look at `k` slots from `l` on, round the table, for one where `stop` holds. -/
def scan (stop : Fin n → Prop) [DecidablePred stop] : ℕ → Fin n → Option (Fin n)
  | 0, _ => none
  | k + 1, l => if stop l then some l else scan stop k (advance l 1)

/-- The slot at which the search for a key ends; `none` in a table full of others. -/
def lookup (home : α → Fin n) (T : Fin n → Option α) (a : α) : Option (Fin n) :=
  scan (fun l => T l = none ∨ T l = some a) n (home a)

/-- The search for a key that is in slot `q` passes the slot `l`. -/
def OnWay (home : α → Fin n) (a : α) (q l : Fin n) : Prop :=
  gap (home a) l < gap (home a) q

/-- No key but the one in the slot itself is searched for through the slot. -/
def Removable (home : α → Fin n) (T : Fin n → Option α) (l : Fin n) : Prop :=
  ∀ q a, T q = some a → ¬ OnWay home a q l

/-- A key is in at most one slot, and its search finds it there. -/
structure Found (home : α → Fin n) (T : Fin n → Option α) : Prop where
  unique : ∀ p q a, T p = some a → T q = some a → p = q
  lookup : ∀ q a, T q = some a → lookup home T a = some q

section scan

variable {stop : Fin n → Prop} [DecidablePred stop] {k : ℕ} {l q : Fin n}

theorem scan_eq_some_iff : scan stop k l = some q ↔
    ∃ j < k, advance l j = q ∧ stop q ∧ ∀ i < j, ¬ stop (advance l i) := by
  induction k generalizing l with
  | zero => simp [scan]
  | succ k ih =>
      rw [scan]
      by_cases here : stop l
      · rw [if_pos here, Option.some.injEq]
        constructor
        · rintro rfl
          exact ⟨0, Nat.succ_pos k, advance_zero l, here, fun i hi => absurd hi i.not_lt_zero⟩
        · rintro ⟨j, -, rfl, -, before⟩
          cases j with
          | zero => exact (advance_zero l).symm
          | succ j => exact absurd here (by simpa using before 0 j.succ_pos)
      · rw [if_neg here, ih]
        constructor
        · rintro ⟨j, hj, rfl, found, before⟩
          refine ⟨j + 1, Nat.succ_lt_succ hj, ?_, found, ?_⟩
          · rw [advance_advance, Nat.add_comm]
          · intro i hi
            cases i with
            | zero => simpa using here
            | succ i =>
                have earlier := before i (Nat.lt_of_succ_lt_succ hi)
                rwa [advance_advance, Nat.add_comm] at earlier
        · rintro ⟨j, hj, rfl, found, before⟩
          cases j with
          | zero => exact absurd (by simpa using found) here
          | succ j =>
              refine ⟨j, Nat.lt_of_succ_lt_succ hj, ?_, found, ?_⟩
              · rw [advance_advance, Nat.add_comm]
              · intro i hi
                rw [advance_advance, Nat.add_comm]
                exact before (i + 1) (Nat.succ_lt_succ hi)

/-- A scan of the whole table ends at the first slot that stops it. -/
theorem scan_all_eq_some_iff :
    scan stop n l = some q ↔ stop q ∧ ∀ p, gap l p < gap l q → ¬ stop p := by
  rw [scan_eq_some_iff]
  constructor
  · rintro ⟨j, hj, rfl, found, before⟩
    refine ⟨found, fun p hp => ?_⟩
    rw [gap_advance l hj] at hp
    simpa using before (gap l p) hp
  · rintro ⟨found, before⟩
    refine ⟨gap l q, gap_lt l q, advance_gap l q, found, fun i hi => ?_⟩
    apply before
    rwa [gap_advance l (hi.trans (gap_lt l q))]

/-- A scan that comes round to its first slot finds no more than the round did. -/
theorem scan_round : scan stop (n + 1) l = scan stop n l := by
  apply Option.ext
  intro q
  rw [scan_eq_some_iff, scan_eq_some_iff]
  constructor
  · rintro ⟨j, hj, reached, found, before⟩
    have within : j < n := by
      by_contra round
      obtain rfl : j = n := by omega
      have again : advance l j = advance l 0 :=
        Fin.ext (by simp [advance_val, Nat.mod_eq_of_lt l.isLt])
      exact before 0 l.pos (again ▸ reached ▸ found)
    exact ⟨j, within, reached, found, before⟩
  · rintro ⟨j, hj, reached, found, before⟩
    exact ⟨j, Nat.lt_succ_of_lt hj, reached, found, before⟩

end scan

/-- `while (!stop(i)) i = (i+1) % n;` -/
def seek (stop : Fin n → Bool) : Loop (Fin n) where
  guard i := !stop i
  body i := advance i 1

section seek

variable {stop : Fin n → Bool} {k : ℕ} {l q : Fin n}

theorem exec_seek (stop : Fin n → Bool) (k : ℕ) (l : Fin n) :
    (seek stop).exec k l = scan (fun i => stop i = true) (k + 1) l := by
  induction k generalizing l with
  | zero =>
      cases here : stop l with
      | true => simp [Loop.exec, seek, scan, here]
      | false => simp [Loop.exec, seek, scan, here]
  | succ k ih =>
      cases here : stop l with
      | true =>
          rw [Loop.exec_of_not_guard _ (by simp [seek, here]), scan, if_pos here]
      | false =>
          rw [Loop.exec_succ_of_guard _ (by simp [seek, here]), scan, if_neg (by simp [here])]
          exact ih _

/-- A round of the table leads to the first slot that stops the search. -/
theorem exec_seek_eq_some_iff : (seek stop).exec n l = some q ↔
    stop q = true ∧ ∀ p, gap l p < gap l q → stop p = false := by
  rw [exec_seek, scan_round, scan_all_eq_some_iff]
  simp only [Bool.not_eq_true]

theorem exec_seek_isSome_iff : ((seek stop).exec n l).isSome = true ↔ ∃ q, stop q = true := by
  rw [Option.isSome_iff_exists]
  constructor
  · rintro ⟨q, hq⟩
    exact ⟨q, (exec_seek_eq_some_iff.mp hq).1⟩
  · rintro ⟨p, hp⟩
    let P : ℕ → Prop := fun j => stop (advance l j) = true
    have some : ∃ j, P j := ⟨gap l p, by simpa [P] using hp⟩
    have least : Nat.find some ≤ gap l p := Nat.find_min' some (by simpa [P] using hp)
    have within : Nat.find some < n := least.trans_lt (gap_lt l p)
    refine ⟨advance l (Nat.find some), exec_seek_eq_some_iff.mpr ⟨Nat.find_spec some, ?_⟩⟩
    intro q hq
    rw [gap_advance l within] at hq
    have early := Nat.find_min some hq
    simpa [P] using early

/-- A search that ends needs no more than one round. -/
theorem seek_terminates_iff :
    (seek stop).Terminates l ↔ ((seek stop).exec n l).isSome = true := by
  constructor
  · rintro ⟨q, returned⟩
    obtain ⟨-, exit⟩ := Loop.returns_iff.mp returned
    exact exec_seek_isSome_iff.mpr ⟨q, by simpa [seek] using exit⟩
  · intro ended
    obtain ⟨q, hq⟩ := Option.isSome_iff_exists.mp ended
    exact ⟨q, n, hq⟩

end seek

variable {home : α → Fin n} {T : Fin n → Option α} {a : α} {q : Fin n}

theorem lookup_eq_some_iff : lookup home T a = some q ↔
    (T q = none ∨ T q = some a) ∧
      ∀ p, OnWay home a q p → T p ≠ none ∧ T p ≠ some a := by
  simp only [lookup, scan_all_eq_some_iff, not_or, OnWay]

/-- A key whose home slot is not taken by another one is looked up there. -/
theorem lookup_home (own : ∀ b, T (home a) = some b → b = a) :
    lookup home T a = some (home a) := by
  refine lookup_eq_some_iff.mpr ⟨?_, fun p way => absurd way (by simp [OnWay])⟩
  cases held : T (home a) with
  | none => exact .inl rfl
  | some b =>
      rw [own b held]
      exact .inr rfl

theorem eq_of_lookup {b : α} (looked : lookup home T a = some q) (held : T q = some b) : b = a := by
  obtain ⟨empty | own, -⟩ := lookup_eq_some_iff.mp looked
  · rw [held] at empty
    cases empty
  · exact Option.some.inj (held.symm.trans own)

/-- The table is right when keys are not repeated and the ways to them have no holes. -/
theorem found_iff : Found home T ↔
    (∀ p q a, T p = some a → T q = some a → p = q) ∧
      ∀ q a, T q = some a → ∀ p, OnWay home a q p → T p ≠ none := by
  constructor
  · intro found
    refine ⟨found.unique, fun q a held p way => ?_⟩
    exact ((lookup_eq_some_iff.mp (found.lookup q a held)).2 p way).1
  · rintro ⟨unique, solid⟩
    refine ⟨unique, fun q a held => lookup_eq_some_iff.mpr ⟨.inr held, fun p way => ?_⟩⟩
    refine ⟨solid q a held p way, fun again => ?_⟩
    obtain rfl := unique p q a again held
    exact Nat.lt_irrefl _ way

theorem found_empty (home : α → Fin n) : Found home fun _ => none where
  unique p q a h := by cases h
  lookup q a h := by cases h

/-- Write a key into the slot at which its search ended. -/
theorem Found.insert (found : Found home T) (looked : Probing.lookup home T a = some q) :
    Found home (Function.update T q (some a)) := by
  obtain ⟨-, passed⟩ := lookup_eq_some_iff.mp looked
  have only : ∀ p b, Function.update T q (some a) p = some b →
      p = q ∧ b = a ∨ p ≠ q ∧ T p = some b ∧ b ≠ a := by
    intro p b held
    by_cases hp : p = q
    · subst hp
      rw [Function.update_self] at held
      exact .inl ⟨rfl, (Option.some.inj held).symm⟩
    · rw [Function.update_of_ne hp] at held
      refine .inr ⟨hp, held, ?_⟩
      rintro rfl
      exact hp (Option.some.inj ((found.lookup p b held).symm.trans looked))
  refine found_iff.mpr ⟨fun p p' b held held' => ?_, fun p b held l way => ?_⟩
  · obtain ⟨rfl, rfl⟩ | ⟨hp, old, other⟩ := only p b held
    · obtain ⟨rfl, -⟩ | ⟨-, -, other⟩ := only p' b held'
      · rfl
      · exact absurd rfl other
    · obtain ⟨rfl, rfl⟩ | ⟨-, old', -⟩ := only p' b held'
      · exact absurd rfl other
      · exact found.unique p p' b old old'
  · by_cases hl : l = q
    · subst hl
      rw [Function.update_self]
      exact Option.some_ne_none a
    · rw [Function.update_of_ne hl]
      obtain ⟨rfl, rfl⟩ | ⟨-, old, -⟩ := only p b held
      · exact (passed l way).1
      · exact (found_iff.mp found).2 p b old l way

/-- Empty a slot. -/
theorem Found.erase_iff (found : Found home T) (q : Fin n) :
    Found home (Function.update T q none) ↔ Removable home T q := by
  have old : ∀ p b, Function.update T q none p = some b → T p = some b := by
    intro p b held
    by_cases hp : p = q
    · subst hp
      rw [Function.update_self] at held
      cases held
    · rwa [Function.update_of_ne hp] at held
  rw [found_iff]
  constructor
  · rintro ⟨-, solid⟩ p b held way
    have hp : p ≠ q := by
      rintro rfl
      exact Nat.lt_irrefl _ way
    apply solid p b _ q way (Function.update_self q none T)
    rwa [Function.update_of_ne hp]
  · intro removable
    refine ⟨fun p p' b held held' => found.unique p p' b (old p b held) (old p' b held'), ?_⟩
    intro p b held l way
    have hl : l ≠ q := by
      rintro rfl
      exact removable p b (old p b held) way
    rw [Function.update_of_ne hl]
    exact (found_iff.mp found).2 p b (old p b held) l way

/-- Leave the key or nothing in the slot at which its search ended. -/
theorem Found.write_iff (found : Found home T) (looked : Probing.lookup home T a = some q)
    {v : Option α} (key : ∀ b, v = some b → b = a) :
    Found home (Function.update T q v) ↔ (T q = some a → v = none → Removable home T q) := by
  cases v with
  | some b =>
      obtain rfl := key b rfl
      exact ⟨fun _ _ empty => absurd empty (Option.some_ne_none b), fun _ => found.insert looked⟩
  | none =>
      rw [found.erase_iff]
      obtain ⟨empty | held, -⟩ := lookup_eq_some_iff.mp looked
      · have removable : Removable home T q := by
          intro p b held way
          exact (found_iff.mp found).2 p b held q way empty
        exact ⟨fun _ _ _ => removable, fun _ => removable⟩
      · exact ⟨fun removable _ _ => removable, fun h => h held rfl⟩

end Mftdma.Probing
