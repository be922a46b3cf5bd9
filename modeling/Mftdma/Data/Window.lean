import Mathlib.Algebra.BigOperators.Group.Finset.Basic
import Mathlib.Algebra.Order.Group.Int
import Mathlib.Data.List.GetD
import Mathlib.Data.Nat.ModEq
import Mathlib.Order.Lattice

/-!
# Windows over a history, and circular buffers

A history is a list whose head is the latest entry, and its window of length `n`
is what the last `n` entries say. A circular buffer of length `n` holds such a
window: `Ring` relates its slots to the entries they were written for.

Each push writes the slot after the latest one, which is the slot of the entry
that leaves the window.

`Unordered` is such a buffer whose slots are permuted meanwhile. It still holds its window
after a push exactly when the push hits the entry that leaves it.

`topUp` is the entry that raises the window to a demand it falls short of. A history
of such entries covers each demand and never has more than the largest one.
-/

namespace Mftdma.Window

section total

variable {α : Type*} [AddCommMonoid α] {n : ℕ} {v : α} {h : List α}

/-- The sum of the last `n` entries. -/
def total (n : ℕ) (h : List α) : α := (h.take n).sum

@[simp] theorem total_zero : total 0 h = 0 := by simp [total]

@[simp] theorem total_nil : total n ([] : List α) = 0 := by simp [total]

@[simp] theorem total_cons : total (n + 1) (v :: h) = v + total n h := by simp [total]

/-- A window that is one entry longer. -/
theorem total_succ : total (n + 1) h = total n h + h.getD n 0 := by
  induction h generalizing n with
  | nil => simp
  | cons v h ih =>
      cases n with
      | zero => simp
      | succ n => rw [total_cons, total_cons, ih, List.getD_cons_succ, add_assoc]

theorem sum_range_getD : ∑ i ∈ Finset.range n, h.getD i 0 = total n h := by
  induction n with
  | zero => simp
  | succ n ih => rw [Finset.sum_range_succ, ih, total_succ]

end total

/-- What enters the window and what leaves it. -/
theorem total_push {α : Type*} [AddCommGroup α] {n : ℕ} (pos : 0 < n) (v : α) (h : List α) :
    total n (v :: h) = total n h - h.getD (n - 1) 0 + v := by
  obtain ⟨m, rfl⟩ := Nat.exists_eq_succ_of_ne_zero pos.ne'
  rw [total_cons, total_succ, Nat.succ_sub_one, add_sub_cancel_right, add_comm]

/-- What leaves the window when an entry is pushed. -/
theorem total_sub_leaving {α : Type*} [AddCommGroup α] {n : ℕ} (pos : 0 < n) (h : List α) :
    total n h - h.getD (n - 1) 0 = total (n - 1) h := by
  obtain ⟨m, rfl⟩ := Nat.exists_eq_succ_of_ne_zero pos.ne'
  rw [total_succ, Nat.succ_sub_one, add_sub_cancel_right]

/-- Windows of entries that are not negative grow with their length. -/
theorem total_mono {m n : ℕ} {h : List ℤ} (le : m ≤ n) (signed : ∀ v ∈ h, 0 ≤ v) :
    total m h ≤ total n h := by
  induction le with
  | refl => exact le_rfl
  | @step n le ih =>
      rw [total_succ]
      refine ih.trans (le_add_of_nonneg_right ?_)
      by_cases inside : n < h.length
      · rw [List.getD_eq_getElem h 0 inside]
        exact signed _ (List.getElem_mem inside)
      · rw [List.getD_eq_default h 0 (Nat.le_of_not_lt inside)]

section topUp

variable {n : ℕ} {h bs : List ℤ} {b d : ℤ}

/-- What is missing to the demand `d` once the window has moved on. -/
def topUp (n : ℕ) (d : ℤ) (h : List ℤ) : ℤ := max 0 (d - total (n - 1) h)

theorem total_topUp (pos : 0 < n) :
    total n (topUp n d h :: h) = max (total (n - 1) h) d := by
  rw [total_push pos, total_sub_leaving pos, topUp]
  omega

/-- The largest of a list of demands, and zero. -/
def peak (bs : List ℤ) : ℤ := bs.foldr max 0

@[simp] theorem peak_nil : peak [] = 0 := rfl

@[simp] theorem peak_cons : peak (b :: bs) = max b (peak bs) := rfl

/-- The largest of some demands is one of them. -/
theorem exists_peak_le (some : bs ≠ []) (signed : ∀ b ∈ bs, 0 ≤ b) : ∃ b ∈ bs, peak bs ≤ b := by
  induction bs with
  | nil => exact absurd rfl some
  | cons b bs ih =>
      have first : 0 ≤ b := signed b List.mem_cons_self
      by_cases last : bs = []
      · subst last
        exact ⟨b, List.mem_cons_self, by simp [first]⟩
      · obtain ⟨c, hc, le⟩ := ih last fun c hc => signed c (List.mem_cons_of_mem b hc)
        rw [peak_cons]
        obtain more | less := le_total b c
        · exact ⟨c, List.mem_cons_of_mem b hc, max_le more le⟩
        · exact ⟨b, List.mem_cons_self, max_le le_rfl (le.trans less)⟩

/-- In each part of the window there is no more than the largest demand of that part. -/
def Modest (n : ℕ) (h bs : List ℤ) : Prop := ∀ k ≤ n, total k h ≤ peak (bs.take k)

theorem modest_nil (n : ℕ) : Modest n [] [] := by
  intro k _
  rw [total_nil, List.take_nil, peak_nil]

theorem Modest.topUp (m : Modest n h bs) (signed : ∀ v ∈ h, 0 ≤ v) (le : d ≤ b) :
    Modest n (topUp n d h :: h) (b :: bs) := by
  intro k hk
  cases k with
  | zero => rw [total_zero, List.take_zero, peak_nil]
  | succ k =>
      rw [total_cons, List.take_succ_cons, peak_cons, Window.topUp]
      have older : total k h ≤ peak (bs.take k) := m k (Nat.le_of_succ_le hk)
      have part : total k h ≤ total (n - 1) h := total_mono (Nat.le_sub_one_of_lt hk) signed
      omega

/-- How many entries of a window of length `n` have come since the last one that is positive. -/
def silence (n : ℕ) (h : List ℤ) : ℕ := ((h.take n).takeWhile fun v => v ≤ 0).length

theorem silence_le (n : ℕ) (h : List ℤ) : silence n h ≤ n :=
  (List.takeWhile_sublist _).length_le.trans (List.length_take_le n h)

/-- Only the signs of the entries matter. -/
theorem silence_congr {h h' : List ℤ}
    (signs : h.map (fun v => decide (v ≤ 0)) = h'.map fun v => decide (v ≤ 0)) :
    silence n h = silence n h' := by
  have bools : ∀ h : List ℤ, silence n h =
      (((h.map fun v => decide (v ≤ 0)).take n).takeWhile id).length := by
    intro h
    rw [← List.map_take, List.takeWhile_map, List.length_map]
    rfl
  rw [bools, bools, signs]

theorem silence_succ_cons (n : ℕ) (v : ℤ) (h : List ℤ) :
    silence (n + 1) (v :: h) = if v ≤ 0 then silence n h + 1 else 0 := by
  rw [silence, List.take_succ_cons, List.takeWhile_cons]
  simp only [decide_eq_true_eq]
  split_ifs <;> rfl

/-- A window that holds something is not silent all along. -/
theorem silence_lt (some : 0 < total n h) : silence n h < n := by
  induction n generalizing h with
  | zero => simp at some
  | succ n ih =>
      cases h with
      | nil => simp at some
      | cons v h =>
          rw [silence_succ_cons]
          split_ifs with none
          · rw [total_cons] at some
            exact Nat.succ_lt_succ (ih (by omega))
          · exact Nat.succ_pos n

/-- The last entry of a window that is not silent all along does not matter. -/
theorem silence_succ_of_le (le : silence (n + 1) h ≤ n) : silence (n + 1) h = silence n h := by
  induction n generalizing h with
  | zero => exact Nat.le_zero.mp le
  | succ n ih =>
      cases h with
      | nil => rfl
      | cons v h =>
          rw [silence_succ_cons] at le
          rw [silence_succ_cons, silence_succ_cons]
          split_ifs at le ⊢ with none
          · rw [ih (Nat.le_of_succ_le_succ le)]
          · rfl

/-- Topping up to a positive demand: either something is asked for, or the window gets silent
by one more entry. -/
theorem silence_topUp (pos : 0 < n) (demand : 0 < d) :
    silence (n - 1) h + 1 ≤ silence (n - 1) (topUp n d h :: h) + n * min 1 (topUp n d h).toNat := by
  obtain ⟨m, rfl⟩ := Nat.exists_eq_succ_of_ne_zero pos.ne'
  rw [Nat.succ_sub_one]
  by_cases more : 0 < topUp (m + 1) d h
  · have one : min 1 (topUp (m + 1) d h).toNat = 1 := by omega
    have most := silence_le m h
    rw [one]
    omega
  · have none : topUp (m + 1) d h = 0 := le_antisymm (not_lt.mp more) (le_max_left ..)
    have held : 0 < total m h := by
      rw [topUp, Nat.succ_sub_one] at none
      omega
    have less := silence_lt held
    obtain ⟨k, rfl⟩ := Nat.exists_eq_succ_of_ne_zero (Nat.zero_lt_of_lt less).ne'
    rw [none, silence_succ_cons, if_pos le_rfl, silence_succ_of_le (Nat.le_of_lt_succ less)]
    exact Nat.le_add_right _ _

end topUp

section ring

variable {α : Type*} {n : ℕ} {vec : ℕ → α} {last : ℕ} {h : List α}

/-- The slots below `n` hold the last `n` entries: the slot from which `i` steps lead
to `last` holds the entry before the last `i`, or zero when there was none. -/
structure Ring [Zero α] (n : ℕ) (vec : ℕ → α) (last : ℕ) (h : List α) : Prop where
  inside : last < n
  entry : ∀ p < n, ∀ i < n, (p + i) % n = last → vec p = h.getD i 0

namespace Ring

theorem init [Zero α] (pos : 0 < n) : Ring n (fun _ => (0 : α)) 0 [] where
  inside := pos
  entry _ _ _ _ _ := List.getD_nil.symm

/-- The slot that is written next has the entry that leaves the window. -/
theorem leaving [Zero α] (r : Ring n vec last h) :
    vec ((last + 1) % n) = h.getD (n - 1) 0 := by
  have pos : 0 < n := Nat.zero_lt_of_lt r.inside
  apply r.entry _ (Nat.mod_lt _ pos) (n - 1) (Nat.sub_lt pos Nat.one_pos)
  have whole : last + 1 + (n - 1) = last + n := by omega
  rw [Nat.mod_add_mod, whole, Nat.add_mod_right, Nat.mod_eq_of_lt r.inside]

theorem push [Zero α] (r : Ring n vec last h) (v : α) :
    Ring n (Function.update vec ((last + 1) % n) v) ((last + 1) % n) (v :: h) where
  inside := Nat.mod_lt _ (Nat.zero_lt_of_lt r.inside)
  entry := by
    intro p hp i hi reach
    cases i with
    | zero =>
        rw [Nat.add_zero, Nat.mod_eq_of_lt hp] at reach
        rw [reach, Function.update_self, List.getD_cons_zero]
    | succ i =>
        have moved : p ≠ (last + 1) % n := by
          intro same
          have round : p + (i + 1) ≡ p + 0 [MOD n] := by
            rw [Nat.ModEq, reach, ← same, Nat.add_zero, Nat.mod_eq_of_lt hp]
          have none := Nat.ModEq.eq_of_lt_of_lt (Nat.ModEq.add_left_cancel' p round) hi
            (Nat.zero_lt_of_lt r.inside)
          cases none
        have before : (p + i) % n = last := by
          have step : p + i ≡ last [MOD n] := Nat.ModEq.add_right_cancel' 1 reach
          rw [step, Nat.mod_eq_of_lt r.inside]
        rw [Function.update_of_ne moved, List.getD_cons_succ]
        exact r.entry p hp i (Nat.lt_of_succ_lt hi) before

/-- The buffer sums up to the window. -/
theorem sum_eq [AddCommMonoid α] (r : Ring n vec last h) :
    ∑ p ∈ Finset.range n, vec p = total n h := by
  have pos : 0 < n := Nat.zero_lt_of_lt r.inside
  have back : ∀ p < n, (p + (last + n - p) % n) % n = last := by
    intro p hp
    have whole : p + (last + n - p) = last + n := by omega
    rw [Nat.add_mod_mod, whole, Nat.add_mod_right, Nat.mod_eq_of_lt r.inside]
  have again : ∀ p < n, (last + n - (last + n - p) % n) % n = p := by
    intro p hp
    have inside := r.inside
    obtain early | late := Nat.lt_or_ge last p
    · have whole : last + n - (last + n - p) = p := by omega
      rw [Nat.mod_eq_of_lt (a := last + n - p) (by omega), whole, Nat.mod_eq_of_lt hp]
    · have whole : last + n - p = last - p + n := by omega
      have rest : last + n - (last - p) = p + n := by omega
      rw [whole, Nat.add_mod_right, Nat.mod_eq_of_lt (a := last - p) (by omega), rest,
        Nat.add_mod_right, Nat.mod_eq_of_lt hp]
  rw [← sum_range_getD]
  apply Finset.sum_nbij' (fun p => (last + n - p) % n) (fun i => (last + n - i) % n)
  · exact fun p _ => Finset.mem_range.mpr (Nat.mod_lt _ pos)
  · exact fun i _ => Finset.mem_range.mpr (Nat.mod_lt _ pos)
  · exact fun p hp => again p (Finset.mem_range.mp hp)
  · exact fun i hi => again i (Finset.mem_range.mp hi)
  · intro p hp
    exact r.entry p (Finset.mem_range.mp hp) _ (Nat.mod_lt _ pos) (back p (Finset.mem_range.mp hp))

end Ring

end ring

section unordered

variable {α : Type*} {n : ℕ} {buf : ℕ → α} {h : List α}

/-- The slots below `n` that have been written hold the last `n` entries in some order. -/
def Unordered (n : ℕ) (buf : ℕ → α) (h : List α) : Prop :=
  ((List.range (min n h.length)).map buf).Perm (h.take n)

theorem map_update_range (m k : ℕ) (buf : ℕ → α) (v : α) :
    (List.range m).map (Function.update buf k v) = ((List.range m).map buf).set k v := by
  apply List.ext_getElem
  · simp
  · intro i hi hi'
    rw [List.getElem_map, List.getElem_range, List.getElem_set, List.getElem_map,
      List.getElem_range, Function.update_apply]
    simp only [eq_comm]

/-- A write into slots that hold a window in any order. -/
theorem perm_set_iff {l : List α} {k : ℕ} (pos : 0 < n) (hold : l.Perm (h.take n))
    (slot : k < l.length) (long : n - 1 < h.length) (v : α) :
    (l.set k v).Perm ((v :: h).take n) ↔ l[k] = h[n - 1] := by
  obtain ⟨n, rfl⟩ := Nat.exists_eq_succ_of_ne_zero pos.ne'
  change n < h.length at long
  change _ ↔ l[k] = h[n]
  have leaving : (l[k] :: l.eraseIdx k).Perm (h[n] :: h.take n) := by
    apply (List.getElem_cons_eraseIdx_perm slot).trans
    rw [List.take_succ_eq_append_getElem long] at hold
    exact hold.trans (List.perm_append_singleton _ _)
  rw [List.take_succ_cons, (List.set_perm_cons_eraseIdx slot v).congr_left, List.perm_cons]
  constructor
  · intro rest
    have same : ([l[k]] ++ h.take n).Perm ([h[n]] ++ h.take n) :=
      (rest.symm.cons _).trans leaving
    exact List.singleton_perm_singleton.mp ((List.perm_append_right_iff _).mp same)
  · intro same
    rw [same] at leaving
    exact (List.perm_cons _).mp leaving

/-- A push into a buffer with free slots takes the next one. -/
theorem Unordered.push_of_lt (hold : Unordered n buf h) (filling : h.length < n) (v : α) :
    Unordered n (Function.update buf (h.length % n) v) (v :: h) := by
  unfold Unordered at hold ⊢
  rw [min_eq_right (Nat.le_of_lt filling), List.take_of_length_le (Nat.le_of_lt filling)] at hold
  rw [List.length_cons, min_eq_right filling, List.range_succ, List.map_append,
    List.map_singleton, List.take_of_length_le filling, Nat.mod_eq_of_lt filling,
    Function.update_self]
  have others : (List.range h.length).map (Function.update buf h.length v) =
      (List.range h.length).map buf :=
    List.map_congr_left fun i hi =>
      Function.update_of_ne (Nat.ne_of_lt (List.mem_range.mp hi)) _ _
  rw [others]
  exact (List.perm_append_singleton _ _).trans (hold.cons v)

/-- A push into a full buffer. -/
theorem Unordered.push_iff (pos : 0 < n) (hold : Unordered n buf h) (full : n - 1 < h.length)
    (v : α) : Unordered n (Function.update buf (h.length % n) v) (v :: h) ↔
      buf (h.length % n) = h[n - 1] := by
  have le : n ≤ h.length := Nat.le_of_pred_lt full
  have slot : h.length % n < ((List.range n).map buf).length := by
    rw [List.length_map, List.length_range]
    exact Nat.mod_lt _ pos
  unfold Unordered at hold ⊢
  rw [min_eq_left le] at hold
  rw [List.length_cons, min_eq_left (Nat.le_succ_of_le le), map_update_range,
    perm_set_iff pos hold slot full, List.getElem_map, List.getElem_range]

end unordered

end Mftdma.Window
