import Mathlib.Data.List.Perm.Basic
import Mathlib.Logic.Function.Basic
import Mftdma.Atm.Segmenter
import Mftdma.Data.Links
import Mftdma.Execution.Run

/-!
# AAL5 reassembly in `AtmLL::sendUp`

The cells of all channels wait in one list that starts at `buffer_` and is linked
through the field `next_` of the packets. A cell with PT = 1 takes the cells of
its own address out of the list, wherever they are, and the packet goes up if
their number is the expected one.

`Reassembly` says what this is for, with the list as a list. `sendUp_holds` is
the step lemma of the refinement and `run_holds` carries it over a run.
-/

namespace Mftdma.Atm

open Execution

universe u

variable {α : Type u}

/-- The receiving state of an `AtmLL`: `buffer_`, the field `next_` of every packet
object, the packets that were freed, and those handed to `uptarget_` with the
size they then have. `heard` counts the cells that came. -/
structure AtmLL (α : Type u) where
  buffer : Option α
  next : α → Option α
  dropped : List α
  up : List (α × ℕ)
  heard : ℕ

/-- The number of cells that `sendUp` expects of a packet, from its last cell. -/
def Header.frags (h : Header) : ℕ := (h.length + trlLen + 47) / 48

namespace AtmLL

/-- A new `AtmLL`. What the packets have in `next_` does not matter. -/
def init (next : α → Option α) : AtmLL α where
  buffer := none
  next := next
  dropped := []
  up := []
  heard := 0

/-- The variables of the dequeue loop. -/
structure Scan (α : Type u) where
  ll : AtmLL α
  q : Option α
  qq : Option α
  len : ℕ

variable [DecidableEq α] (hdr : α → Header)

/-- The while loop of `sendUp`: `q` goes through the list, `qq` stays one behind. -/
def dequeue (paddr : ℤ) : Loop (Scan α) where
  guard c := c.q.isSome
  body c := match c.q with
    | none => c
    | some q =>
        let next := c.ll.next q
        if (hdr q).addr = paddr then
          match c.qq with
          | none =>
              { c with
                q := next
                len := c.len + 1
                ll := { c.ll with
                  dropped := c.ll.dropped ++ c.ll.buffer.toList
                  buffer := next } }
          | some qq =>
              { c with
                q := next
                len := c.len + 1
                ll := { c.ll with
                  dropped := c.ll.dropped ++ (c.ll.next qq).toList
                  next := Function.update c.ll.next qq next } }
        else { c with q := next, qq := some q }

/-- `AtmLL::sendUp`; `none` when the loop passes over more cells than have come. -/
def sendUp (s : AtmLL α) (p : α) : Option (AtmLL α) :=
  if (hdr p).pt = 0 then
    some { s with
      next := Function.update s.next p s.buffer
      buffer := some p
      heard := s.heard + 1 }
  else
    ((dequeue hdr (hdr p).addr).exec s.heard ⟨s, s.buffer, none, 1⟩).map fun c =>
      if c.len = (hdr p).frags then
        { c.ll with up := c.ll.up ++ [(p, (hdr p).length)], heard := c.ll.heard + 1 }
      else { c.ll with dropped := c.ll.dropped ++ [p], heard := c.ll.heard + 1 }

end AtmLL

/-- The cells that wait, the latest first, and the packets that went up. -/
structure Reassembly (α : Type u) where
  buffer : List α
  up : List (α × ℕ)

namespace Reassembly

variable (hdr : α → Header)

def idle : Reassembly α where
  buffer := []
  up := []

/-- The waiting cells of an address, and those of the other addresses. -/
def own (r : Reassembly α) (addr : ℤ) : List α := r.buffer.filter fun c => (hdr c).addr = addr

def others (r : Reassembly α) (addr : ℤ) : List α :=
  r.buffer.filter fun c => ¬ (hdr c).addr = addr

theorem perm_others_own (r : Reassembly α) (addr : ℤ) :
    (r.others hdr addr ++ r.own hdr addr).Perm r.buffer := by
  apply List.perm_append_comm.trans
  simpa [own, others] using
    List.filter_append_perm (fun c => decide ((hdr c).addr = addr)) r.buffer

def hear (r : Reassembly α) (p : α) : Reassembly α :=
  if (hdr p).pt = 0 then { r with buffer := p :: r.buffer }
  else
    { buffer := r.others hdr (hdr p).addr
      up := if (r.own hdr (hdr p).addr).length + 1 = (hdr p).frags then
          r.up ++ [(p, (hdr p).length)]
        else r.up }

/-- What has become of a sequence of cells. -/
def hears (arrived : List α) : Reassembly α := arrived.foldl (hear hdr) idle

@[simp] theorem hears_nil : hears hdr [] = idle := rfl

theorem hears_concat (arrived : List α) (p : α) :
    hears hdr (arrived ++ [p]) = (hears hdr arrived).hear hdr p := by
  rw [hears, List.foldl_append]
  rfl

variable {hdr} {arrived : List α}

theorem mem_hear_up {r : Reassembly α} {q : α} {u : α × ℕ} : u ∈ (r.hear hdr q).up ↔
    u ∈ r.up ∨ (hdr q).pt ≠ 0 ∧ (r.own hdr (hdr q).addr).length + 1 = (hdr q).frags ∧
      u = (q, (hdr q).length) := by
  unfold hear
  split_ifs with opened complete
  · simp [opened]
  · simp [opened, complete]
  · simp [complete]

/-- A packet goes up when its last cell comes and finds the right number of cells. -/
theorem mem_up_iff {u : α × ℕ} : u ∈ (hears hdr arrived).up ↔
    ∃ pre p post, arrived = pre ++ p :: post ∧ (hdr p).pt ≠ 0 ∧
      ((hears hdr pre).own hdr (hdr p).addr).length + 1 = (hdr p).frags ∧
      u = (p, (hdr p).length) := by
  induction arrived using List.reverseRecOn with
  | nil => simp [idle]
  | append_singleton arrived q ih =>
      rw [hears_concat, mem_hear_up, ih]
      constructor
      · rintro (⟨pre, p, post, rfl, rest⟩ | rest)
        · exact ⟨pre, p, post ++ [q], by simp, rest⟩
        · exact ⟨arrived, q, [], rfl, rest⟩
      · rintro ⟨pre, p, post, split, rest⟩
        obtain rfl | ⟨post, b, rfl⟩ := post.eq_nil_or_concat'
        · obtain ⟨rfl, same⟩ := List.append_inj' split rfl
          obtain rfl := List.singleton_inj.mp same
          exact .inr rest
        · rw [← List.cons_append, ← List.append_assoc] at split
          obtain ⟨rfl, -⟩ := List.append_inj' split rfl
          exact .inl ⟨pre, p, post, rfl, rest⟩

end Reassembly

namespace AtmLL

/-- The list that starts at `buffer_` holds the waiting cells, and each cell that came
waits, was freed once, or went up once. -/
structure Holds (s : AtmLL α) (arrived : List α) (r : Reassembly α) : Prop where
  links : Links s.next s.buffer r.buffer
  up : s.up = r.up
  heard : s.heard = arrived.length
  kept : (r.buffer ++ (s.dropped ++ s.up.map Prod.fst)).Perm arrived

/-- `c` has gone through the list up to `rest`, and has left `kept` in front of it. -/
structure Scanning (kept rest : List α) (c : Scan α) : Prop where
  links : Links c.ll.next c.ll.buffer (kept ++ rest)
  nodup : (kept ++ rest).Nodup
  here : c.q = rest.head?
  behind : c.qq = kept.getLast?

/-- Between `c` and `d` the cells `freed` were freed and counted, and no more. -/
structure Frees (c : Scan α) (freed : List α) (d : Scan α) : Prop where
  dropped : d.ll.dropped = c.ll.dropped ++ freed
  up : d.ll.up = c.ll.up
  heard : d.ll.heard = c.ll.heard
  len : d.len = c.len + freed.length

theorem Frees.trans {c d e : Scan α} {freed freed' : List α} (first : Frees c freed d)
    (second : Frees d freed' e) : Frees c (freed ++ freed') e where
  dropped := by rw [second.dropped, first.dropped, List.append_assoc]
  up := second.up.trans first.up
  heard := second.heard.trans first.heard
  len := by rw [second.len, first.len, List.length_append, Nat.add_assoc]

variable {s : AtmLL α} {arrived : List α} {r : Reassembly α} {p : α}

namespace Holds

theorem mem_arrived (h : s.Holds arrived r) {a : α} (mem : a ∈ r.buffer) : a ∈ arrived :=
  h.kept.subset (List.mem_append_left _ mem)

theorem heard_concat (h : s.Holds arrived r) (p : α) : s.heard + 1 = (arrived ++ [p]).length := by
  rw [h.heard, List.length_append]
  rfl

/-- The loop moves the cells of one address from the list to those that were freed. -/
theorem dequeued (h : s.Holds arrived r) (hdr : α → Header) (paddr : ℤ) {d : Scan α}
    (frees : Frees ⟨s, s.buffer, none, 1⟩ (r.own hdr paddr) d) :
    (r.others hdr paddr ++ (d.ll.dropped ++ d.ll.up.map Prod.fst)).Perm arrived := by
  have swap : (s.dropped ++ r.own hdr paddr).Perm (r.own hdr paddr ++ s.dropped) :=
    List.perm_append_comm
  have parts : (r.others hdr paddr ++ d.ll.dropped).Perm (r.buffer ++ s.dropped) := by
    rw [frees.dropped]
    refine (swap.append_left _).trans ?_
    rw [← List.append_assoc]
    exact (r.perm_others_own hdr paddr).append_right _
  rw [frees.up, ← List.append_assoc]
  refine (parts.append_right _).trans ?_
  rw [List.append_assoc]
  exact h.kept

end Holds

variable [DecidableEq α]

section dequeue

variable {hdr : α → Header} {paddr : ℤ} {kept rest : List α} {a : α} {c : Scan α}

/-- A cell of the address is taken out of the list. -/
theorem Scanning.take (h : Scanning kept (a :: rest) c) (own : (hdr a).addr = paddr) :
    Scanning kept rest ((dequeue hdr paddr).body c) ∧
      Frees c [a] ((dequeue hdr paddr).body c) := by
  obtain ⟨links, nodup, here, behind⟩ := h
  have onward : c.ll.next a = rest.head? := links.next_eq
  have tail : (kept ++ rest).Nodup :=
    (List.Sublist.append_left (List.sublist_cons_self a rest) kept).nodup nodup
  obtain rfl | ⟨front, b, rfl⟩ := kept.eq_nil_or_concat'
  · -- the cell is the first of the list
    have first : c.ll.buffer = some a := links.1
    have body : (dequeue hdr paddr).body c = ⟨{ c.ll with
        dropped := c.ll.dropped ++ [a], buffer := c.ll.next a }, c.ll.next a, c.qq,
        c.len + 1⟩ := by
      simp [dequeue, here, behind, own, first]
    rw [body]
    exact ⟨⟨links.2, tail, onward, behind⟩, rfl, rfl, rfl, rfl⟩
  · have last : c.qq = some b := by simpa using behind
    rw [List.append_assoc] at links nodup
    have found : c.ll.next b = some a := links.next_eq
    have body : (dequeue hdr paddr).body c = ⟨{ c.ll with
        dropped := c.ll.dropped ++ [a],
        next := Function.update c.ll.next b (c.ll.next a) }, c.ll.next a, c.qq,
        c.len + 1⟩ := by
      simp [dequeue, here, last, own, found]
    have unlinked := links.unlink nodup
    rw [body]
    exact ⟨⟨by simpa using unlinked, tail, onward, behind⟩, rfl, rfl, rfl, rfl⟩

/-- Any other cell stays where it is. -/
theorem Scanning.skip (h : Scanning kept (a :: rest) c) (other : (hdr a).addr ≠ paddr) :
    Scanning (kept ++ [a]) rest ((dequeue hdr paddr).body c) ∧
      Frees c [] ((dequeue hdr paddr).body c) := by
  obtain ⟨links, nodup, here, -⟩ := h
  have onward : c.ll.next a = rest.head? := links.next_eq
  have body : (dequeue hdr paddr).body c = ⟨c.ll, c.ll.next a, some a, c.len⟩ := by
    simp [dequeue, here, other]
  rw [body]
  exact ⟨⟨by simpa using links, by simpa using nodup, onward, by simp⟩,
    (List.append_nil _).symm, rfl, rfl, rfl⟩

/-- The loop takes the cells of one address out of the list that is left to go
through, counts them and frees them. -/
theorem dequeue_exec (hdr : α → Header) (paddr : ℤ) {passes : ℕ} (h : Scanning kept rest c)
    (enough : rest.length ≤ passes) :
    ∃ d, (dequeue hdr paddr).exec passes c = some d ∧
      Links d.ll.next d.ll.buffer (kept ++ rest.filter fun a => ¬ (hdr a).addr = paddr) ∧
      Frees c (rest.filter fun a => (hdr a).addr = paddr) d := by
  induction rest generalizing kept passes c with
  | nil =>
      have stop : (dequeue hdr paddr).guard c = false := by simp [dequeue, h.here]
      exact ⟨c, Loop.exec_of_not_guard passes stop, h.links, (List.append_nil _).symm, rfl, rfl,
        rfl⟩
  | cons a rest ih =>
      obtain ⟨passes, rfl⟩ : ∃ k, passes = k + 1 := ⟨passes - 1, by simp at enough; omega⟩
      have go : (dequeue hdr paddr).guard c = true := by simp [dequeue, h.here]
      have fewer : rest.length ≤ passes := Nat.le_of_succ_le_succ enough
      rw [Loop.exec_succ_of_guard passes go]
      by_cases own : (hdr a).addr = paddr
      · obtain ⟨taken, one⟩ := h.take own
        obtain ⟨d, done, list, frees⟩ := ih taken fewer
        rw [List.filter_cons_of_neg (by simpa using own),
          List.filter_cons_of_pos (by simpa using own)]
        exact ⟨d, done, list, one.trans frees⟩
      · obtain ⟨skipped, none⟩ := h.skip own
        obtain ⟨d, done, list, frees⟩ := ih skipped fewer
        rw [List.filter_cons_of_pos (by simpa using own),
          List.filter_cons_of_neg (by simpa using own)]
        exact ⟨d, done, by simpa using list, none.trans frees⟩

end dequeue

/-- A cell that is not the last one is put in front. -/
theorem Holds.waits (h : s.Holds arrived r) (fresh : p ∉ arrived) :
    Holds { s with
        next := Function.update s.next p s.buffer
        buffer := some p
        heard := s.heard + 1 } (arrived ++ [p]) { r with buffer := p :: r.buffer } := by
  refine ⟨⟨rfl, ?_⟩, h.up, h.heard_concat p, ?_⟩
  · show Links _ (Function.update s.next p s.buffer p) r.buffer
    rw [Function.update_self]
    refine h.links.congr fun a ha => Function.update_of_ne ?_ ..
    rintro rfl
    exact fresh (h.mem_arrived ha)
  · exact (h.kept.cons p).trans (List.perm_append_singleton p arrived).symm

/-- `sendUp` returns, and does to the list what `hear` says. -/
theorem sendUp_holds (hdr : α → Header) (h : s.Holds arrived r)
    (distinct : (arrived ++ [p]).Nodup) :
    ∃ t, sendUp hdr s p = some t ∧ t.Holds (arrived ++ [p]) (r.hear hdr p) := by
  obtain ⟨before, -, fresh⟩ := List.nodup_append.mp distinct
  unfold sendUp Reassembly.hear
  by_cases opened : (hdr p).pt = 0
  · rw [if_pos opened, if_pos opened]
    exact ⟨_, rfl, h.waits fun mem => fresh p mem p (List.mem_singleton.mpr rfl) rfl⟩
  · rw [if_neg opened, if_neg opened]
    have nodup : r.buffer.Nodup := (List.nodup_append.mp (h.kept.nodup_iff.mpr before)).1
    have enough : r.buffer.length ≤ s.heard := by
      rw [h.heard, ← h.kept.length_eq, List.length_append]
      exact Nat.le_add_right ..
    have scanning : Scanning [] r.buffer ⟨s, s.buffer, none, 1⟩ :=
      ⟨h.links, nodup, h.links.head?_eq, rfl⟩
    obtain ⟨d, done, links, frees⟩ := dequeue_exec hdr (hdr p).addr scanning enough
    have matched : d.len = (r.own hdr (hdr p).addr).length + 1 := frees.len.trans (Nat.add_comm ..)
    have moved := h.dequeued hdr (hdr p).addr frees
    have count := (congrArg (· + 1) frees.heard).trans (h.heard_concat p)
    rw [done]
    by_cases complete : (r.own hdr (hdr p).addr).length + 1 = (hdr p).frags
    · rw [if_pos complete]
      refine ⟨_, congrArg some (if_pos (matched.trans complete)), links, ?_, count, ?_⟩
      · show d.ll.up ++ _ = r.up ++ _
        rw [frees.up, h.up]
      · rw [List.map_append, ← List.append_assoc, ← List.append_assoc]
        refine List.Perm.append ?_ (List.Perm.refl _)
        rw [List.append_assoc]
        exact moved
    · rw [if_neg complete]
      refine ⟨_, congrArg some (if_neg (matched ▸ complete)), links, frees.up.trans h.up, count, ?_⟩
      have later : ([p] ++ d.ll.up.map Prod.fst).Perm (d.ll.up.map Prod.fst ++ [p]) :=
        List.perm_append_comm
      have freed : (d.ll.dropped ++ [p] ++ d.ll.up.map Prod.fst).Perm
          (d.ll.dropped ++ d.ll.up.map Prod.fst ++ [p]) := by
        rw [List.append_assoc, List.append_assoc]
        exact later.append_left _
      refine (freed.append_left _).trans ?_
      rw [← List.append_assoc]
      exact moved.append_right _

theorem run_holds (hdr : α → Header) (next : α → Option α) (distinct : arrived.Nodup) :
    ∃ t, run (sendUp hdr) (init next) arrived = some t ∧
      t.Holds arrived (Reassembly.hears hdr arrived) := by
  induction arrived using List.reverseRecOn with
  | nil => exact ⟨init next, rfl, ⟨rfl, rfl, rfl, .nil⟩⟩
  | append_singleton arrived p ih =>
      obtain ⟨s, reach, holds⟩ := ih (List.nodup_append.mp distinct).1
      obtain ⟨t, here, done⟩ := sendUp_holds hdr holds distinct
      refine ⟨t, run_snoc_eq_some.mpr ⟨s, reach, here⟩, ?_⟩
      rwa [Reassembly.hears_concat]

end AtmLL

end Mftdma.Atm
