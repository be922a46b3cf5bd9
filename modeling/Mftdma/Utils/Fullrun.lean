import Mathlib.Data.List.Sort
import Mathlib.Order.Lattice.Nat

/-!
# Order statistics of `fullrun`

`save_data` counts the runs and inserts the samples of each column of type 1 into a search
tree, whose nodes count the samples on their left. `get_list` clamps an index to the
samples there are and descends to the node of that rank, and `update_stats` reads its
confidence bounds from there. A path that leaves the tree, where the code follows a NULL
pointer, is `none`.

The nodes in symmetric order are the samples in order, and the rank of a node is its index
in this list.
-/

namespace Mftdma.Utils

universe u

/-- `struct data_run` and what hangs below it. -/
inductive DataRun (α : Type u) where
  | null
  | node (dataVal : α) (lp rp : DataRun α) (count : ℤ)

namespace DataRun

variable {α : Type u}

/-- The nodes in the order of `print_list`. -/
def list : DataRun α → List α
  | null => []
  | node dataVal lp rp _ => lp.list ++ dataVal :: rp.list

def size : DataRun α → ℕ
  | null => 0
  | node _ lp rp _ => lp.size + 1 + rp.size

/-- The count of each node is the size of its left subtree. -/
def Counted : DataRun α → Prop
  | null => True
  | node _ lp rp count => count = lp.size ∧ lp.Counted ∧ rp.Counted

/-- `_get_list` -/
def getNode : DataRun α → ℤ → Option α
  | null, _ => none
  | node dataVal lp rp count, index =>
      if index = count then some dataVal
      else if index < count then lp.getNode index
      else rp.getNode (index - count - 1)

/-- `get_list` -/
def getList (numSamples : ℤ) (p : DataRun α) (index : ℤ) : Option α :=
  if index < 0 then p.getNode 0
  else if numSamples - 1 < index then p.getNode (numSamples - 1)
  else p.getNode index

theorem length_list (p : DataRun α) : p.list.length = p.size := by
  induction p with
  | null => rfl
  | node dataVal lp rp count left right =>
      rw [list, List.length_append, List.length_cons, left, right, size, Nat.add_assoc,
        Nat.add_comm 1]

/-- The node of a rank is the sample of this index, and there is none for a rank that is too
high. -/
theorem Counted.getNode {p : DataRun α} (h : p.Counted) (k : ℕ) :
    p.getNode k = p.list[k]? := by
  induction p generalizing k with
  | null => rfl
  | node dataVal lp rp count left right =>
      obtain ⟨rfl, leftCounted, rightCounted⟩ := h
      rw [DataRun.getNode, list, ← lp.length_list]
      obtain below | rfl | above := lt_trichotomy k lp.list.length
      · rw [if_neg (by omega), if_pos (by omega), left leftCounted,
          List.getElem?_append_left below]
      · rw [if_pos rfl, List.getElem?_append_right (Nat.le_refl _), Nat.sub_self]
        rfl
      · obtain ⟨j, rfl⟩ := Nat.exists_eq_add_of_lt above
        have rest : ((lp.list.length + j + 1 : ℕ) : ℤ) - lp.list.length - 1 = (j : ℕ) := by
          push_cast
          omega
        rw [if_neg (by omega), if_neg (by omega), rest, right rightCounted,
          List.getElem?_append_right (by omega), Nat.add_assoc, Nat.add_sub_cancel_left,
          List.getElem?_cons_succ]

/-- The index of the sample that `get_list` is to return. -/
def clamp (numSamples : ℕ) (k : ℤ) : ℕ := (min (max k 0) (numSamples - 1)).toNat

theorem clamp_lt {numSamples : ℕ} (some : 0 < numSamples) (k : ℤ) :
    clamp numSamples k < numSamples := by
  unfold clamp
  omega

theorem Counted.getList {p : DataRun α} (h : p.Counted) {numSamples : ℕ} (some : 0 < numSamples)
    (k : ℤ) : p.getList numSamples k = p.list[clamp numSamples k]? := by
  have index : ((clamp numSamples k : ℕ) : ℤ) = min (max k 0) (numSamples - 1) := by
    unfold clamp
    omega
  rw [← h.getNode, index, DataRun.getList]
  split_ifs <;> congr 1 <;> omega

variable [LinearOrder α]

/-- `insert_sort`, where `wmp` is the new node of the value `c_value`. -/
def insertSort (cValue : α) : DataRun α → DataRun α
  | null => node cValue null null 0
  | node dataVal lp rp count =>
      if cValue < dataVal then node dataVal (lp.insertSort cValue) rp (count + 1)
      else node dataVal lp (rp.insertSort cValue) count

/-- The tree that holds these samples, in the order of their insertion. -/
def ofSamples (samples : List α) : DataRun α :=
  samples.foldl (fun p cValue => p.insertSort cValue) null

theorem list_insertSort_perm (cValue : α) (p : DataRun α) :
    (p.insertSort cValue).list.Perm (cValue :: p.list) := by
  induction p with
  | null => exact .refl _
  | node dataVal lp rp count left right =>
      rw [insertSort]
      split_ifs
      · exact left.append_right _
      · have inside : (lp.list ++ dataVal :: (rp.insertSort cValue).list).Perm
            (lp.list ++ dataVal :: cValue :: rp.list) :=
          (right.cons dataVal).append_left lp.list
        have swapped : (lp.list ++ dataVal :: cValue :: rp.list).Perm
            (lp.list ++ cValue :: dataVal :: rp.list) :=
          (List.Perm.swap cValue dataVal rp.list).append_left lp.list
        exact inside.trans (swapped.trans List.perm_middle)

/-- Equal samples stay in the order in which they came, so a new one goes behind them. -/
theorem pairwise_insertSort (cValue : α) {p : DataRun α} (h : p.list.Pairwise (· ≤ ·)) :
    (p.insertSort cValue).list.Pairwise (· ≤ ·) := by
  induction p with
  | null => exact List.pairwise_singleton _ _
  | node dataVal lp rp count left right =>
      obtain ⟨before, tail, across⟩ := List.pairwise_append.mp h
      obtain ⟨least, after⟩ := List.pairwise_cons.mp tail
      rw [insertSort]
      split_ifs with below
      · refine List.pairwise_append.mpr ⟨left before, tail, fun a ha b hb => ?_⟩
        obtain rfl | old := List.mem_cons.mp ((list_insertSort_perm cValue lp).mem_iff.mp ha)
        · obtain rfl | later := List.mem_cons.mp hb
          · exact le_of_lt below
          · exact le_trans (le_of_lt below) (least b later)
        · exact across a old b hb
      · have above := not_lt.mp below
        have greater : ∀ b ∈ (rp.insertSort cValue).list, dataVal ≤ b := fun b hb => by
          obtain rfl | old := List.mem_cons.mp ((list_insertSort_perm cValue rp).mem_iff.mp hb)
          · exact above
          · exact least b old
        refine List.pairwise_append.mpr
          ⟨before, List.pairwise_cons.mpr ⟨greater, right after⟩, fun a ha b hb => ?_⟩
        have mid : a ≤ dataVal := across a ha dataVal List.mem_cons_self
        obtain rfl | later := List.mem_cons.mp hb
        · exact mid
        · exact le_trans mid (greater b later)

theorem size_insertSort (cValue : α) (p : DataRun α) :
    (p.insertSort cValue).size = p.size + 1 := by
  rw [← length_list, ← length_list, (list_insertSort_perm cValue p).length_eq,
    List.length_cons]

/-- A descent to the left is counted at the node where it is made. -/
theorem Counted.insertSort {p : DataRun α} (h : p.Counted) (cValue : α) :
    (p.insertSort cValue).Counted := by
  induction p with
  | null => exact ⟨rfl, trivial, trivial⟩
  | node dataVal lp rp count left right =>
      obtain ⟨rfl, leftCounted, rightCounted⟩ := h
      rw [DataRun.insertSort]
      split_ifs
      · refine ⟨?_, left leftCounted, rightCounted⟩
        rw [size_insertSort]
        push_cast
        rfl
      · exact ⟨rfl, leftCounted, right rightCounted⟩

/-- What the insertions keep: the counts, the order, and the samples. -/
structure Holds (samples : List α) (p : DataRun α) : Prop where
  counted : p.Counted
  pairwise : p.list.Pairwise (· ≤ ·)
  perm : p.list.Perm samples

theorem Holds.insertSort {samples : List α} {p : DataRun α} (h : p.Holds samples) (cValue : α) :
    (p.insertSort cValue).Holds (samples ++ [cValue]) where
  counted := h.counted.insertSort cValue
  pairwise := pairwise_insertSort cValue h.pairwise
  perm := (list_insertSort_perm cValue p).trans
    ((h.perm.cons cValue).trans (List.perm_append_singleton cValue samples).symm)

theorem ofSamples_holds (samples : List α) : (ofSamples samples).Holds samples := by
  induction samples using List.reverseRecOn with
  | nil => exact ⟨trivial, .nil, .refl _⟩
  | append_singleton samples cValue ih =>
      rw [ofSamples, List.foldl_append]
      exact ih.insertSort cValue

/-- The tree serves as an index of the samples: the counts are right, and for every index
`get_list` ends at the sample that has it, clamped, among the samples in order. -/
structure Ranked (samples : List α) (p : DataRun α) : Prop where
  counted : p.Counted
  found : ∀ k : ℤ, (p.getList samples.length k).isSome = true
  ranked : ∀ k : ℤ, p.getList samples.length k =
    (samples.insertionSort (· ≤ ·))[clamp samples.length k]?

theorem Holds.ranked {samples : List α} {p : DataRun α} (h : p.Holds samples)
    (some : samples ≠ []) : p.Ranked samples := by
  have sorted : p.list = samples.insertionSort (· ≤ ·) :=
    (h.perm.trans (List.perm_insertionSort _ samples).symm).eq_of_pairwise
      (fun a b _ _ => le_antisymm) h.pairwise (List.pairwise_insertionSort _ samples)
  have length : p.list.length = samples.length := h.perm.length_eq
  have answer := fun k => h.counted.getList (List.length_pos_of_ne_nil some) k
  refine ⟨h.counted, fun k => ?_, fun k => sorted ▸ answer k⟩
  have inside : clamp samples.length k < p.list.length := by
    rw [length]
    exact clamp_lt (List.length_pos_of_ne_nil some) k
  rw [answer k, List.getElem?_eq_getElem inside]
  rfl

/-- However the samples come, as soon as there are any the tree is an index of them. -/
theorem ofSamples_ranked {samples : List α} (some : samples ≠ []) :
    (ofSamples samples).Ranked samples :=
  (ofSamples_holds samples).ranked some

/-- Three samples, two of them equal. -/
theorem ofSamples_ranked_three : (ofSamples [2, 1, 2]).Ranked [2, 1, 2] :=
  ofSamples_ranked (List.cons_ne_nil 2 [1, 2])

end DataRun

/-- What `save_data` keeps for `get_list`: the runs counted, and a tree for each column. -/
structure Samples (cols : ℕ) (α : Type u) where
  numSamples : ℕ
  dataSort : Fin cols → DataRun α

namespace Samples

variable {α : Type u} [LinearOrder α] {cols : ℕ}

/-- The globals when the first run ends. -/
def init : Samples cols α := ⟨0, fun _ => .null⟩

/-- `save_data`, where `type` are the types of the columns. -/
def saveData (type : Fin cols → ℤ) (s : Samples cols α) (smp : Fin cols → α) :
    Samples cols α where
  numSamples := s.numSamples + 1
  dataSort c := if type c = 1 then (s.dataSort c).insertSort (smp c) else s.dataSort c

/-- After any runs the tree of a column of type 1 holds as many samples as runs are counted. -/
theorem foldl_saveData (type : Fin cols → ℤ) (runs : List (Fin cols → α)) {c : Fin cols}
    (counts : type c = 1) :
    (runs.foldl (saveData type) init).numSamples = runs.length ∧
      ((runs.foldl (saveData type) init).dataSort c).Holds (runs.map fun smp => smp c) := by
  induction runs using List.reverseRecOn with
  | nil => exact ⟨rfl, trivial, .nil, .refl _⟩
  | append_singleton runs smp ih =>
      obtain ⟨number, held⟩ := ih
      rw [List.foldl_append, List.foldl_cons, List.foldl_nil, List.length_append, List.map_append]
      refine ⟨congrArg (· + 1) number, ?_⟩
      show DataRun.Holds _ (if type c = 1 then _ else _)
      rw [if_pos counts]
      exact held.insertSort (smp c)

/-- Whenever `update_stats` runs, which `save_data` calls once it has saved a run, the
`get_list` of each column of type 1 answers from all samples of the column. -/
theorem ranked_saveData (type : Fin cols → ℤ) (runs : List (Fin cols → α)) (smp : Fin cols → α)
    {c : Fin cols} (counts : type c = 1) :
    ((runs.foldl (saveData type) init).saveData type smp).numSamples = (runs ++ [smp]).length ∧
      (((runs.foldl (saveData type) init).saveData type smp).dataSort c).Ranked
        ((runs ++ [smp]).map fun smp => smp c) := by
  obtain ⟨number, held⟩ := foldl_saveData type (runs ++ [smp]) counts
  rw [List.foldl_append] at number held
  exact ⟨number, held.ranked (by simp)⟩

end Samples

end Mftdma.Utils
