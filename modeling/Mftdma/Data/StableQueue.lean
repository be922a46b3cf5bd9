import Mathlib.Data.List.Basic
import Mathlib.Data.List.Nodup
import Mathlib.Data.List.Perm.Basic
import Mathlib.Data.List.TakeWhile
import Mathlib.Order.Lattice

/-!
# Stable priority queues as lists

`Sorts key held l` says that `l` holds the items of `held` by increasing key,
and the items of one key in the order of `held`. Read with `held` in order of
arrival, `l` is the content of a stable priority queue: `place` puts a new item
behind all keys up to its own, and the head of the list is the item that
`Earliest` describes, the first arrival among the smallest keys.
-/

namespace Mftdma.StableQueue

universe u v

variable {α : Type u} {K : Type v} [LinearOrder K] (key : α → K)

/-- `l` is `held` sorted by key, with ties left in order. -/
structure Sorts (held l : List α) : Prop where
  sorted : l.Pairwise fun a b => key a ≤ key b
  stable : ∀ k, l.filter (fun a => key a = k) = held.filter fun a => key a = k

/-- Insert behind all items whose key is at most that of `p`. -/
def place (p : α) (l : List α) : List α :=
  l.takeWhile (fun a => key a ≤ key p) ++ p :: l.dropWhile fun a => key a ≤ key p

/-- `p` has the smallest key in `held` and comes first among those that have it. -/
def Earliest (held : List α) (p : α) : Prop :=
  ∃ before after, held = before ++ p :: after ∧ (∀ a ∈ before, key p < key a) ∧
    ∀ a ∈ after, key p ≤ key a

variable {key} {key' : α → K} {held l : List α} {p : α} {k : K}

/-- The two parts of a sorted list that an item of the key `k` goes between. -/
theorem split_of_sorted (k : K) (sorted : l.Pairwise fun a b => key a ≤ key b) :
    (∀ a ∈ l.takeWhile (fun a => key a ≤ k), key a ≤ k) ∧
      ∀ a ∈ l.dropWhile (fun a => key a ≤ k), k < key a := by
  induction l with
  | nil => simp
  | cons b l ih =>
      obtain ⟨least, sorted⟩ := List.pairwise_cons.mp sorted
      by_cases le : key b ≤ k
      · simp only [List.takeWhile_cons, List.dropWhile_cons, le, decide_true, if_true]
        exact ⟨List.forall_mem_cons.mpr ⟨le, (ih sorted).1⟩, (ih sorted).2⟩
      · have lt := not_le.mp le
        simp only [List.takeWhile_cons, List.dropWhile_cons, le, decide_false, Bool.false_eq_true,
          if_false]
        exact ⟨by simp, List.forall_mem_cons.mpr
          ⟨lt, fun a ha => lt.trans_le (least a ha)⟩⟩

/-- An item may go between two parts of a list that suit it. -/
theorem pairwise_insert {R : α → α → Prop} {xs ys : List α} (whole : (xs ++ ys).Pairwise R)
    (before : ∀ a ∈ xs, R a p) (after : ∀ a ∈ ys, R p a) : (xs ++ p :: ys).Pairwise R := by
  obtain ⟨left, right, across⟩ := List.pairwise_append.mp whole
  refine List.pairwise_append.mpr ⟨left, List.pairwise_cons.mpr ⟨after, right⟩, ?_⟩
  intro a ha b hb
  obtain rfl | hb := List.mem_cons.mp hb
  · exact before a ha
  · exact across a ha b hb

/-- An item that belongs behind the whole list is placed there. -/
theorem place_of_forall_le (all : ∀ a ∈ l, key a ≤ key p) : place key p l = l ++ [p] := by
  have holds : ∀ a ∈ l, decide (key a ≤ key p) = true := fun a ha => decide_eq_true (all a ha)
  rw [place, List.takeWhile_eq_self_iff.mpr holds, List.dropWhile_eq_nil_iff.mpr holds]

/-- Placing only looks at how the keys compare with that of the new item. -/
theorem place_map {β : Type*} {L : Type*} [LinearOrder L] {key' : β → L} (f : α → β)
    (same : ∀ a ∈ l, key' (f a) ≤ key' (f p) ↔ key a ≤ key p) :
    (place key p l).map f = place key' (f p) (l.map f) := by
  have holds : ∀ a ∈ l, decide (key' (f a) ≤ key' (f p)) = decide (key a ≤ key p) :=
    fun a ha => decide_eq_decide.mpr (same a ha)
  unfold place
  rw [List.map_append, List.map_cons]
  clear same
  induction l with
  | nil => rfl
  | cons b l ih =>
      have here := holds b List.mem_cons_self
      rw [List.map_cons, List.takeWhile_cons, List.takeWhile_cons, List.dropWhile_cons,
        List.dropWhile_cons, here]
      split_ifs with le
      · exact congrArg (f b :: ·) (ih fun a ha => holds a (List.mem_cons_of_mem b ha))
      · rfl

namespace Sorts

theorem nil : Sorts key [] [] := ⟨.nil, fun _ => rfl⟩

theorem mem_iff (h : Sorts key held l) (a : α) : a ∈ l ↔ a ∈ held := by
  have same : a ∈ l.filter (fun b => key b = key a) ↔ a ∈ held.filter fun b => key b = key a := by
    rw [h.stable]
  simpa using same

/-- Sorting neither loses an item nor makes a second one of it. -/
theorem perm [DecidableEq α] (h : Sorts key held l) : l.Perm held := by
  apply List.perm_iff_count.mpr
  intro a
  have own : decide (key a = key a) = true := decide_eq_true rfl
  calc l.count a = (l.filter fun b => key b = key a).count a :=
        (List.count_filter (p := fun b => decide (key b = key a)) own).symm
    _ = (held.filter fun b => key b = key a).count a := by rw [h.stable]
    _ = held.count a := List.count_filter (p := fun b => decide (key b = key a)) own

/-- Only the keys of the items matter. -/
theorem congr (h : Sorts key held l) (same : ∀ a ∈ held, key' a = key a) :
    Sorts key' held l := by
  have inside : ∀ a ∈ l, key' a = key a := fun a ha => same a ((h.mem_iff a).mp ha)
  refine ⟨h.sorted.imp_of_mem fun ha hb le => ?_, fun k => ?_⟩
  · rwa [inside _ ha, inside _ hb]
  · calc l.filter (fun a => key' a = k) = l.filter (fun a => key a = k) :=
          List.filter_congr fun a ha => by rw [inside a ha]
      _ = held.filter (fun a => key a = k) := h.stable k
      _ = held.filter fun a => key' a = k := List.filter_congr fun a ha => by rw [same a ha]

/-- Placing an item in the list is its arrival. -/
theorem place (h : Sorts key held l) (p : α) :
    Sorts key (held ++ [p]) (StableQueue.place key p l) := by
  obtain ⟨small, large⟩ := split_of_sorted (key p) h.sorted
  have whole : l.takeWhile (fun a => key a ≤ key p) ++ l.dropWhile (fun a => key a ≤ key p) = l :=
    List.takeWhile_append_dropWhile
  have sorted := h.sorted
  rw [← whole] at sorted
  constructor
  · exact pairwise_insert sorted small fun a ha => (large a ha).le
  · intro k
    have stable := h.stable k
    rw [← whole, List.filter_append] at stable
    rw [StableQueue.place, List.filter_append, List.filter_append, ← stable]
    by_cases own : key p = k
    · have behind : (l.dropWhile fun a => key a ≤ key p).filter (fun a => key a = k) = [] := by
        apply List.filter_eq_nil_iff.mpr
        intro a ha same
        exact absurd (own.trans (of_decide_eq_true same).symm) (large a ha).ne
      rw [List.filter_cons_of_pos (by simpa using own),
        List.filter_cons_of_pos (by simpa using own), behind, List.append_nil, List.filter_nil]
    · rw [List.filter_cons_of_neg (by simpa using own),
        List.filter_cons_of_neg (by simpa using own), List.filter_nil, List.append_nil]

/-- An item may be taken out from anywhere. -/
theorem erase [DecidableEq α] (h : Sorts key held l) (nodup : held.Nodup) (p : α) :
    Sorts key (held.erase p) (l.erase p) := by
  have nodupL : l.Nodup := h.perm.nodup_iff.mpr nodup
  refine ⟨h.sorted.sublist List.erase_sublist, fun k => ?_⟩
  rw [nodupL.erase_eq_filter, nodup.erase_eq_filter, List.filter_comm, h.stable, List.filter_comm]

/-- The head of the list is the first arrival of the smallest key. -/
theorem earliest (h : Sorts key held (p :: l)) : Earliest key held p := by
  obtain ⟨least, -⟩ := List.pairwise_cons.mp h.sorted
  have lowest : ∀ a ∈ held, key p ≤ key a := fun a ha => by
    obtain rfl | old := List.mem_cons.mp ((h.mem_iff a).mpr ha)
    · exact le_refl _
    · exact least a old
  have first : (held.filter fun a => key a = key p).head? = some p := by
    rw [← h.stable, List.filter_cons_of_pos (by simp)]
    rfl
  rw [List.head?_filter] at first
  obtain ⟨-, before, after, split, none⟩ := List.find?_eq_some_iff_append.mp first
  refine ⟨before, after, split, fun a ha => ?_, fun a ha => lowest a ?_⟩
  · have le := lowest a (by rw [split]; exact List.mem_append_left _ ha)
    exact lt_of_le_of_ne le fun same => by simpa [same] using none a ha
  · rw [split]
    exact List.mem_append_right _ (List.mem_cons_of_mem _ ha)

end Sorts

end Mftdma.StableQueue
