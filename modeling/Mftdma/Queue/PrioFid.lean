import Mathlib.Algebra.BigOperators.Group.List.Basic
import Mathlib.Algebra.Order.Ring.Int
import Mathlib.Tactic.Ring
import Mftdma.Data.Links
import Mftdma.Data.StableQueue
import Mftdma.Execution.Run

/-!
# The priority queue `PacketQueueFid`

`PacketQueueFid` overrides `enque` of ns-2's `PacketQueue` and inherits the other
operations. Packets are linked through their own field `next_`, which `enque`
does not clear, so the list from `head_` to `tail_` is known by its two ends only.

`Queued s l` says that this list is `l`; every operation is a step on it, and
`stable_priority_queue` reads the runs as those of a stable priority queue.
-/

namespace Mftdma.Queue

open Execution StableQueue

universe u

/-- The queue and the fields of the packets that it works on: `next_`, `prio()`
of the IP header and `size()` of the common header. -/
structure PacketQueue (α : Type u) where
  head : Option α
  tail : Option α
  len : ℤ
  bytes : ℤ
  next : α → Option α
  prio : α → ℤ
  size : α → ℤ

variable {α : Type u}

/-- The while loop of `enque`, which has no test for the end of the list. -/
def PacketQueueFid.scan (s : PacketQueue α) (prio : ℤ) : Loop (Option α × Option α) :=
  walk s.next fun curr => s.prio curr ≤ prio

namespace PacketQueue

/-- The list from `head_` to `tail_` is `l`. -/
structure Queued (s : PacketQueue α) (l : List α) : Prop where
  head : s.head = l.head?
  tail : s.tail = l.getLast?
  chain : Chained s.next l
  nodup : l.Nodup

namespace Queued

variable {s t : PacketQueue α} {l r : List α} {p a : α} {k : ℤ}

/-- Two ends and the links between decide the list. -/
theorem congr (h : s.Queued l) (head : t.head = s.head) (tail : t.tail = s.tail)
    (next : ∀ a ∈ l, t.next a = s.next a) : t.Queued l :=
  ⟨head.trans h.head, tail.trans h.tail, h.chain.congr_of_forall next, h.nodup⟩

theorem tail_eq_iff (h : s.Queued (l ++ p :: r)) : s.tail = some p ↔ r = [] := by
  rw [h.tail]
  obtain rfl | ⟨front, a, rfl⟩ := r.eq_nil_or_concat'
  · simp
  · have other : a ≠ p := by
      rintro rfl
      have nodup := h.nodup
      simp [List.nodup_append] at nodup
    simp [List.getLast?_append, List.getLast?_cons, other]

/-- What stands behind a queued packet that is not the tail. -/
theorem next_eq (h : s.Queued (l ++ p :: a :: r)) : s.next p = some a :=
  (Chained.cons_cons_iff.mp (Chained.append_iff.mp h.chain).2.1).1

/-- Linking a packet in behind `l`, with a link to what follows. -/
theorem insert (h : s.Queued (l ++ a :: r)) (fresh : p ∉ l ++ a :: r)
    (head : t.head = if l.getLast?.isSome then s.head else some p) (tail : t.tail = s.tail)
    (around : ∀ b, l.getLast? = some b → t.next b = some p) (link : t.next p = some a)
    (elsewhere : ∀ b ∈ l ++ a :: r, l.getLast? ≠ some b → t.next b = s.next b) :
    t.Queued (l ++ p :: a :: r) := by
  obtain ⟨nodupL, -, apart⟩ := List.nodup_append.mp h.nodup
  obtain ⟨chainL, chainR, -⟩ := Chained.append_iff.mp h.chain
  have behind : Chained t.next (a :: r) := chainR.congr_of_forall fun b hb =>
    elsewhere b (List.mem_append_right _ hb) fun found =>
      apart b (List.mem_of_getLast? found) b hb rfl
  have ahead : Chained t.next l := chainL.congr_of_ne_last nodupL fun b hb =>
    elsewhere b (List.mem_append_left _ hb)
  refine ⟨?_, ?_, ?_, ?_⟩
  · rw [head]
    cases l with
    | nil => rfl
    | cons b l => simp [h.head, List.getLast?_cons]
  · rw [tail, h.tail]
    simp [List.getLast?_append, List.getLast?_cons]
  · refine Chained.append_iff.mpr ⟨ahead, Chained.cons_cons_iff.mpr ⟨link, behind⟩, ?_⟩
    rintro b hb c ⟨⟩
    exact around b hb
  · rw [List.perm_middle.nodup_iff, List.nodup_cons]
    exact ⟨fresh, h.nodup⟩

theorem append (h : s.Queued (l ++ [a])) (fresh : p ∉ l ++ [a]) (head : t.head = s.head)
    (tail : t.tail = some p) (link : t.next a = some p)
    (elsewhere : ∀ b ∈ l, t.next b = s.next b) : t.Queued (l ++ [a] ++ [p]) := by
  refine ⟨?_, by simpa using tail, ?_, ?_⟩
  · rw [head, h.head]
    cases l <;> simp
  · refine Chained.append_iff.mpr ⟨h.chain.congr elsewhere, Chained.singleton, ?_⟩
    rintro b hb c ⟨⟩
    obtain rfl : a = b := by simpa using hb
    exact link
  · exact (List.perm_append_singleton p _).nodup_iff.mpr (List.nodup_cons.mpr ⟨fresh, h.nodup⟩)

/-- The scan ends before the tail when the tail has to stay behind the packet. -/
theorem scan (h : s.Queued l) (sorted : l.Pairwise fun a b => s.prio a ≤ s.prio b)
    (atTail : s.tail = some a) (later : k < s.prio a) (passes : ℕ) (len : l.length ≤ passes) :
    ∃ before c after, l = before ++ c :: after ∧
      l.takeWhile (fun b => s.prio b ≤ k) = before ∧
      l.dropWhile (fun b => s.prio b ≤ k) = c :: after ∧
      (PacketQueueFid.scan s k).exec passes (none, s.head) = some (before.getLast?, some c) := by
  obtain ⟨small, large⟩ := split_of_sorted k sorted
  have whole : l.takeWhile (fun b => s.prio b ≤ k) ++ l.dropWhile (fun b => s.prio b ≤ k) = l :=
    List.takeWhile_append_dropWhile
  have stops : l.dropWhile (fun b => s.prio b ≤ k) ≠ [] := by
    intro all
    have le := List.dropWhile_eq_nil_iff.mp all a (List.mem_of_getLast? (h.tail.symm.trans atTail))
    exact later.not_ge (of_decide_eq_true le)
  obtain ⟨c, after, rest⟩ := List.exists_cons_of_ne_nil stops
  refine ⟨_, c, after, by rw [← rest, whole], rfl, rest, ?_⟩
  rw [rest] at large whole
  have chain := h.chain
  rw [← whole] at chain
  have room : (l.takeWhile fun b => s.prio b ≤ k).length ≤ passes :=
    (List.takeWhile_sublist _).length_le.trans len
  have walked := walk_exec none chain (fun b hb => decide_eq_true (small b hb))
    (decide_eq_false (large c List.mem_cons_self).not_ge) room
  rw [whole, ← h.head, Option.or_none] at walked
  exact walked

end Queued

end PacketQueue

variable [DecidableEq α]

namespace PacketQueueFid

/-- `PacketQueueFid::enque`: the old tail and the new queue, or `none` when the
scan comes to a null pointer or passes over more packets than are queued. -/
def enque (s : PacketQueue α) (p : α) : Option (Option α × PacketQueue α) :=
  let s := { s with len := s.len + 1, bytes := s.bytes + s.size p }
  match s.tail with
  | none => some (none, { s with head := some p, tail := some p })
  | some tail =>
      if s.prio tail ≤ s.prio p then
        some (some tail, { s with next := Function.update s.next tail (some p), tail := some p })
      else
        match (scan s (s.prio p)).exec s.len.toNat (none, s.head) with
        | some (some prev, some curr) =>
            let linked := Function.update s.next prev (some p)
            some (some tail, { s with next := Function.update linked p (some curr) })
        | some (none, some curr) =>
            some (some tail,
              { s with head := some p, next := Function.update s.next p (some curr) })
        | _ => none

end PacketQueueFid

namespace PacketQueue

/-- `p`, which stands behind `prev` or at the head, is unlinked: the link before it
is moved past it, and `tail_` moves back when `p` was the tail. What becomes
of the field `next_` of `p` is left open. -/
structure Unlinks (s t : PacketQueue α) (prev : Option α) (p : α) : Prop where
  head : t.head = if prev.isSome then s.head else if s.tail = some p then none else s.next p
  tail : t.tail = if s.tail = some p then prev else s.tail
  around : ∀ a, prev = some a → t.next a = s.next p
  elsewhere : ∀ a, prev ≠ some a → a ≠ p → t.next a = s.next a
  len : t.len = s.len - 1
  bytes : t.bytes = s.bytes - s.size p
  prio : t.prio = s.prio
  size : t.size = s.size

end PacketQueue

/-- The operations that ns-2's `PacketQueue` provides, with what they promise. -/
structure Inherited (α : Type u) [DecidableEq α] where
  deque : PacketQueue α → Option α × PacketQueue α
  remove : PacketQueue α → α → PacketQueue α
  deque_empty : ∀ s, s.head = none → deque s = (none, s)
  deque_head : ∀ (s : PacketQueue α) p, s.head = some p → (deque s).1 = some p ∧ s.Unlinks (deque s).2 none p
  remove_queued : ∀ (s : PacketQueue α) before p after, s.Queued (before ++ p :: after) →
    s.len = (before ++ p :: after).length → s.Unlinks (remove s p) before.getLast? p

/-- A packet comes with any header values and any stale pointer in `next_`. -/
inductive QueueEvent (α : Type u) where
  | enque (p : α) (prio size : ℤ) (stale : Option α)
  | deque
  | remove (p : α)

/-- The queue, and the packets that are in it in the order of their arrival. -/
structure Ledger (α : Type u) where
  queue : PacketQueue α
  held : List α

/-- The header values and the pointer that a packet brings along. -/
def PacketQueue.receive (s : PacketQueue α) (p : α) (prio size : ℤ) (stale : Option α) :
    PacketQueue α :=
  { s with
    next := Function.update s.next p stale
    prio := Function.update s.prio p prio
    size := Function.update s.size p size }

namespace Ledger

/-- No packet is queued; the memory behind the packets is arbitrary. -/
def empty (memory : PacketQueue α) : Ledger α where
  queue := { memory with head := none, tail := none, len := 0, bytes := 0 }
  held := []

/-- A packet is queued once at a time, and `remove` is given a queued packet. -/
def Allowed (s : Ledger α) : QueueEvent α → Prop
  | .enque p _ _ _ => p ∉ s.held
  | .deque => True
  | .remove p => p ∈ s.held

def step (base : Inherited α) (s : Ledger α) : QueueEvent α → Option (Ledger α)
  | .enque p prio size stale =>
      (PacketQueueFid.enque (s.queue.receive p prio size stale) p).map fun r =>
        ⟨r.2, s.held ++ [p]⟩
  | .deque =>
      let r := base.deque s.queue
      some ⟨r.2, r.1.elim s.held s.held.erase⟩
  | .remove p => some ⟨base.remove s.queue p, s.held.erase p⟩

end Ledger

namespace PacketQueue

variable {s t : PacketQueue α} {l r : List α} {p : α}

namespace Queued

/-- Unlinking a packet takes it out of the list. -/
theorem unlink (h : s.Queued (l ++ p :: r)) (gone : s.Unlinks t l.getLast? p) :
    t.Queued (l ++ r) := by
  have nodup := h.nodup
  have last := h.tail_eq_iff
  obtain ⟨nodupL, nodupR, apart⟩ := List.nodup_append.mp nodup
  obtain ⟨outR, -⟩ := List.nodup_cons.mp nodupR
  have outL : p ∉ l := fun mem => apart p mem p List.mem_cons_self rfl
  obtain ⟨chainL, chainPR, -⟩ := Chained.append_iff.mp h.chain
  have behind : ∀ a ∈ r, t.next a = s.next a := fun a ha => by
    apply gone.elsewhere
    · intro found
      exact apart a (List.mem_of_getLast? found) a (List.mem_cons_of_mem p ha) rfl
    · rintro rfl
      exact outR ha
  have chainR : Chained t.next r := chainPR.tail.congr_of_forall behind
  have ahead : Chained t.next l := chainL.congr_of_ne_last nodupL fun a ha notLast =>
    gone.elsewhere a notLast fun same => outL (same ▸ ha)
  have link : s.tail ≠ some p → s.next p = r.head? := by
    intro inner
    cases r with
    | nil => exact absurd (last.mpr rfl) inner
    | cons a r => exact h.next_eq
  refine ⟨?_, ?_, ?_, (List.Sublist.append_left (List.sublist_cons_self p r) l).nodup nodup⟩
  · rw [gone.head]
    cases l with
    | cons b l => simp [h.head, List.getLast?_cons]
    | nil =>
        simp only [List.getLast?_nil, Option.isSome_none, Bool.false_eq_true, if_false]
        split_ifs with atTail
        · rw [last.mp atTail]
          rfl
        · exact link atTail
  · rw [gone.tail]
    split_ifs with atTail
    · rw [last.mp atTail, List.append_nil]
    · obtain ⟨a, front, rfl⟩ := List.exists_cons_of_ne_nil (mt last.mpr atTail)
      rw [h.tail]
      simp [List.getLast?_append, List.getLast?_cons]
  · refine Chained.append_iff.mpr ⟨ahead, chainR, fun a ha b hb => ?_⟩
    rw [gone.around a ha, ← hb]
    apply link
    intro atTail
    rw [last.mp atTail] at hb
    cases hb

/-- A packet that no queued one has to follow becomes the new tail. -/
theorem behind_tail {a : α} (h : s.Queued l) (sorted : l.Pairwise fun a b => s.prio a ≤ s.prio b)
    (fresh : p ∉ l) (atTail : s.tail = some a) (behind : s.prio a ≤ s.prio p)
    (head : t.head = s.head) (tail : t.tail = some p)
    (next : t.next = Function.update s.next a (some p)) : t.Queued (place s.prio p l) := by
  obtain ⟨front, rfl⟩ := List.getLast?_eq_some_iff.mp (h.tail.symm.trans atTail)
  have apart := (List.nodup_append.mp h.nodup).2.2
  have all : ∀ b ∈ front ++ [a], s.prio b ≤ s.prio p := fun b hb => by
    obtain old | last := List.mem_append.mp hb
    · exact ((List.pairwise_append.mp sorted).2.2 b old a (by simp)).trans behind
    · exact (List.mem_singleton.mp last) ▸ behind
  rw [place_of_forall_le all]
  apply h.append fresh head tail
  · rw [next]
    exact Function.update_self ..
  · intro b hb
    rw [next]
    exact Function.update_of_ne (apart b hb a (List.mem_singleton_self a)) ..

/-- A packet is linked in where the scan has stopped. -/
theorem between {a : α} (h : s.Queued (l ++ a :: r)) (fresh : p ∉ l ++ a :: r)
    (head : t.head = if l.getLast?.isSome then s.head else some p) (tail : t.tail = s.tail)
    (next : t.next = Function.update
      (l.getLast?.elim s.next fun prev => Function.update s.next prev (some p)) p (some a)) :
    t.Queued (l ++ p :: a :: r) := by
  have other : ∀ b ∈ l ++ a :: r, b ≠ p := fun b hb same => fresh (same ▸ hb)
  apply h.insert fresh head tail
  · intro b last
    have mem : b ∈ l ++ a :: r := List.mem_append_left _ (List.mem_of_getLast? last)
    rw [next, last]
    exact (Function.update_of_ne (other b mem) ..).trans (Function.update_self ..)
  · rw [next]
    exact Function.update_self ..
  · intro b hb notLast
    rw [next]
    refine (Function.update_of_ne (other b hb) ..).trans ?_
    cases last : l.getLast? with
    | none => rfl
    | some prev =>
        apply Function.update_of_ne
        rintro rfl
        exact notLast last

end Queued

/-- `enque` returns, and puts the packet behind all those of its own and of smaller
priorities. -/
theorem Queued.enque (h : s.Queued l) (sorted : l.Pairwise fun a b => s.prio a ≤ s.prio b)
    (len : s.len = l.length) (fresh : p ∉ l) :
    ∃ t, PacketQueueFid.enque s p = some (s.tail, t) ∧ t.Queued (place s.prio p l) ∧
      t.len = s.len + 1 ∧ t.bytes = s.bytes + s.size p ∧ t.prio = s.prio ∧ t.size = s.size := by
  unfold PacketQueueFid.enque
  cases atTail : s.tail with
  | none =>
      obtain rfl : l = [] := List.getLast?_eq_none_iff.mp (h.tail.symm.trans atTail)
      exact ⟨_, rfl, ⟨rfl, rfl, Chained.singleton, List.nodup_singleton p⟩, rfl, rfl, rfl, rfl⟩
  | some tail =>
      simp only
      split_ifs with behind
      · exact ⟨_, rfl, h.behind_tail sorted fresh atTail behind rfl rfl rfl, rfl, rfl, rfl, rfl⟩
      · obtain ⟨before, c, after, rfl, taken, dropped, scanned⟩ :=
          h.scan sorted atTail (not_le.mp behind) (s.len + 1).toNat (by omega)
        have ended : (PacketQueueFid.scan
            { s with tail := some tail, len := s.len + 1, bytes := s.bytes + s.size p }
            (s.prio p)).exec (s.len + 1).toNat (none, s.head) =
              some (before.getLast?, some c) := scanned
        rw [ended, place, taken, dropped]
        cases last : before.getLast? with
        | none =>
            exact ⟨_, rfl, h.between fresh (by rw [last]; rfl) atTail.symm (by rw [last]; rfl), rfl,
              rfl, rfl, rfl⟩
        | some prev =>
            exact ⟨_, rfl, h.between fresh (by rw [last]; rfl) atTail.symm (by rw [last]; rfl), rfl,
              rfl, rfl, rfl⟩

end PacketQueue

/-- Move the link before `p` past it, whether it is in `prev` or in `head_`. -/
def PacketQueue.unlink (s : PacketQueue α) (prev : Option α) (p : α) : PacketQueue α where
  head := if prev.isSome then s.head else if s.tail = some p then none else s.next p
  tail := if s.tail = some p then prev else s.tail
  len := s.len - 1
  bytes := s.bytes - s.size p
  next := prev.elim s.next fun b => Function.update s.next b (s.next p)
  prio := s.prio
  size := s.size

theorem PacketQueue.unlinks_unlink {s : PacketQueue α} {p : α} (prev : Option α) :
    s.Unlinks (s.unlink prev p) prev p := by
  refine ⟨rfl, rfl, ?_, ?_, rfl, rfl, rfl, rfl⟩
  · rintro a rfl
    exact Function.update_self ..
  · intro a notPrev _
    cases prev with
    | none => rfl
    | some b => exact Function.update_of_ne (fun same => notPrev (congrArg some same.symm)) ..

namespace Inherited

def dequeHead (s : PacketQueue α) : Option α × PacketQueue α :=
  match s.head with
  | none => (none, s)
  | some p => (some p, s.unlink none p)

/-- Look for the packet from the head of the queue on. -/
def removeFound (s : PacketQueue α) (p : α) : PacketQueue α :=
  match (walk s.next fun a => a ≠ p).exec s.len.toNat (none, s.head) with
  | some (prev, some _) => s.unlink prev p
  | _ => s

theorem dequeHead_empty (s : PacketQueue α) (h : s.head = none) : dequeHead s = (none, s) := by
  rw [dequeHead, h]

theorem dequeHead_head (s : PacketQueue α) (p : α) (h : s.head = some p) :
    (dequeHead s).1 = some p ∧ s.Unlinks (dequeHead s).2 none p := by
  rw [dequeHead, h]
  exact ⟨rfl, PacketQueue.unlinks_unlink none⟩

theorem removeFound_queued (s : PacketQueue α) (before : List α) (p : α) (after : List α)
    (h : s.Queued (before ++ p :: after)) (len : s.len = (before ++ p :: after).length) :
    s.Unlinks (removeFound s p) before.getLast? p := by
  have skip : ∀ a ∈ before, decide (a ≠ p) = true := fun a ha =>
    decide_eq_true fun same =>
      (List.nodup_append.mp h.nodup).2.2 a ha p List.mem_cons_self same
  have enough : before.length ≤ s.len.toNat := by
    rw [len, Int.toNat_natCast, List.length_append]
    omega
  have walked := walk_exec none h.chain skip (by simp) enough
  rw [removeFound, h.head, walked, Option.or_none]
  exact PacketQueue.unlinks_unlink _

/-- The inherited operations with nothing done beyond the unlinking. -/
def plain : Inherited α where
  deque := dequeHead
  remove := removeFound
  deque_empty := dequeHead_empty
  deque_head := dequeHead_head
  remove_queued := removeFound_queued

end Inherited

namespace Ledger

/-- The queue holds what has arrived and not left, sorted by priority and with ties in the
order of arrival. -/
structure Sound (s : Ledger α) (l : List α) : Prop where
  queued : s.queue.Queued l
  sorts : Sorts s.queue.prio s.held l
  nodup : s.held.Nodup
  len : s.queue.len = s.held.length
  bytes : s.queue.bytes = (s.held.map s.queue.size).sum

/-- What a `deque` has to return: the earliest packet of the smallest priority. -/
def Due (s : Ledger α) : Option α → Prop
  | none => s.held = []
  | some p => Earliest s.queue.prio s.held p

variable {base : Inherited α} {s t : Ledger α} {l : List α} {p : α}

namespace Sound

theorem length_eq (h : s.Sound l) : l.length = s.held.length := h.sorts.perm.length_eq

/-- A packet that is not queued may change in any way. -/
theorem receive (h : s.Sound l) (fresh : p ∉ s.held) (prio size : ℤ) (stale : Option α) :
    Sound ⟨s.queue.receive p prio size stale, s.held⟩ l := by
  have other : ∀ a ∈ s.held, a ≠ p := fun a ha same => fresh (same ▸ ha)
  refine ⟨?_, ?_, h.nodup, h.len, ?_⟩
  · refine h.queued.congr rfl rfl fun a ha => ?_
    exact Function.update_of_ne (other a ((h.sorts.mem_iff a).mp ha)) ..
  · exact h.sorts.congr fun a ha => Function.update_of_ne (other a ha) ..
  · refine h.bytes.trans (congrArg List.sum (List.map_congr_left fun a ha => ?_))
    exact (Function.update_of_ne (other a ha) ..).symm

/-- A queued packet that is unlinked has left, and nothing else has changed. -/
theorem unlink {queue : PacketQueue α} {before after : List α}
    (h : s.Sound (before ++ p :: after)) (gone : s.queue.Unlinks queue before.getLast? p) :
    Sound ⟨queue, s.held.erase p⟩ (before ++ after) := by
  have mem : p ∈ s.held := (h.sorts.mem_iff p).mp (by simp)
  have left : (before ++ p :: after).erase p = before ++ after := by
    have out : p ∉ before := fun early =>
      (List.nodup_append.mp h.queued.nodup).2.2 p early p List.mem_cons_self rfl
    rw [List.erase_append_right _ out, List.erase_cons_head]
  refine ⟨h.queued.unlink gone, ?_, h.nodup.erase p, ?_, ?_⟩
  · rw [gone.prio, ← left]
    exact h.sorts.erase h.nodup p
  · have some_held := List.length_pos_of_mem mem
    have fewer := List.length_erase_of_mem mem
    have len := h.len
    simp only [gone.len, fewer, len]
    omega
  · have total : (s.held.map s.queue.size).sum =
        s.queue.size p + ((s.held.erase p).map s.queue.size).sum := by
      rw [((List.perm_cons_erase mem).map s.queue.size).sum_eq, List.map_cons, List.sum_cons]
    simp only [gone.bytes, gone.size, h.bytes, total]
    ring

theorem deque (h : s.Sound l) : s.Due (base.deque s.queue).1 := by
  cases l with
  | nil =>
      rw [base.deque_empty s.queue h.queued.head]
      exact (List.perm_nil.mp h.sorts.perm.symm)
  | cons p l =>
      rw [(base.deque_head s.queue p h.queued.head).1]
      exact h.sorts.earliest

/-- Each operation returns and keeps the queue sound. -/
theorem step (base : Inherited α) {e : QueueEvent α} (h : s.Sound l) (allowed : s.Allowed e) :
    ∃ t l', s.step base e = some t ∧ t.Sound l' := by
  cases e with
  | enque p prio size stale =>
      have fresh : p ∉ l := fun mem => allowed ((h.sorts.mem_iff p).mp mem)
      have ready := h.receive allowed prio size stale
      obtain ⟨t, done, queued, len, bytes, prios, sizes⟩ := ready.queued.enque ready.sorts.sorted
        (by rw [ready.len, ready.length_eq]) fresh
      refine ⟨⟨t, s.held ++ [p]⟩, _, by rw [Ledger.step, done]; rfl, queued, ?_, ?_, ?_, ?_⟩
      · rw [prios]
        exact ready.sorts.place p
      · exact (List.perm_append_singleton p _).nodup_iff.mpr
          (List.nodup_cons.mpr ⟨allowed, h.nodup⟩)
      · show t.len = ((s.held ++ [p]).length : ℤ)
        rw [len, ready.len, List.length_append]
        rfl
      · show t.bytes = ((s.held ++ [p]).map t.size).sum
        rw [bytes, sizes, ready.bytes, List.map_append, List.sum_append, List.map_singleton,
          List.sum_singleton]
  | deque =>
      cases l with
      | nil =>
          refine ⟨s, [], ?_, h⟩
          rw [Ledger.step, base.deque_empty s.queue h.queued.head]
          rfl
      | cons p l =>
          obtain ⟨served, gone⟩ := base.deque_head s.queue p h.queued.head
          refine ⟨⟨(base.deque s.queue).2, s.held.erase p⟩, l, ?_, ?_⟩
          · rw [Ledger.step, served]
            rfl
          · have front : s.Sound ([] ++ p :: l) := h
            exact front.unlink gone
  | remove p =>
      obtain ⟨before, after, rfl⟩ := List.append_of_mem ((h.sorts.mem_iff p).mpr allowed)
      exact ⟨_, before ++ after, rfl, h.unlink
        (base.remove_queued _ _ _ _ h.queued (by rw [h.len, h.length_eq]))⟩

theorem run {es : List (QueueEvent α)} (h : s.Sound l)
    (allowed : Along (Ledger.step base) Allowed s es) :
    ∃ t l', Execution.run (Ledger.step base) s es = some t ∧ t.Sound l' := by
  induction es generalizing s l with
  | nil => exact ⟨s, l, rfl, h⟩
  | cons e es ih =>
      obtain ⟨m, l', here, sound⟩ := h.step base allowed.1
      obtain ⟨t, l'', rest, done⟩ := ih sound (allowed.2 m here)
      exact ⟨t, l'', run_cons_eq_some.mpr ⟨m, here, rest⟩, done⟩

end Sound

/-- In every run from an empty queue, whatever stale pointers the packets bring, the list from
`head_` to `tail_` is a permutation of the packets held, sorted by priority with ties in
the order of arrival; the counters agree with it, and a `deque` returns the earliest
packet of the smallest priority. -/
theorem stable_priority_queue (base : Inherited α) (memory : PacketQueue α)
    (es : List (QueueEvent α)) (allowed : Along (step base) Allowed (empty memory) es) :
    ∃ t l, run (step base) (empty memory) es = some t ∧ t.queue.Queued l ∧ l.Perm t.held ∧
      l.Pairwise (fun a b => t.queue.prio a ≤ t.queue.prio b) ∧
      (∀ k, l.filter (fun a => t.queue.prio a = k) = t.held.filter fun a => t.queue.prio a = k) ∧
      t.queue.len = l.length ∧ t.queue.bytes = (l.map t.queue.size).sum ∧
      t.Due (base.deque t.queue).1 := by
  have start : (empty memory).Sound [] :=
    ⟨⟨rfl, rfl, Chained.nil, .nil⟩, Sorts.nil, .nil, rfl, rfl⟩
  obtain ⟨t, l, reach, sound⟩ := start.run allowed
  refine ⟨t, l, reach, sound.queued, sound.sorts.perm, sound.sorts.sorted, sound.sorts.stable,
    ?_, ?_, sound.deque⟩
  · rw [sound.len, sound.length_eq]
  · rw [sound.bytes, (sound.sorts.perm.map _).sum_eq]

/-- A memory in which every packet points to itself. -/
def looped : PacketQueue ℕ where
  head := none
  tail := none
  len := 0
  bytes := 0
  next := some
  prio _ := 0
  size _ := 0

theorem stable_priority_queue_three :
    ∃ t l, run (step Inherited.plain) (empty looped)
        [.enque 1 5 40 (some 2), .enque 2 3 60 (some 2), .enque 3 5 80 (some 1), .remove 2] =
          some t ∧
      t.queue.Queued l ∧ l.Perm t.held ∧ t.Due (Inherited.plain.deque t.queue).1 := by
  obtain ⟨t, l, reach, queued, perm, -, -, -, -, first⟩ :=
    stable_priority_queue Inherited.plain looped
      [.enque 1 5 40 (some 2), .enque 2 3 60 (some 2), .enque 3 5 80 (some 1), .remove 2] <| by
        refine (along_cons_of_step rfl).mpr ⟨(by decide : 1 ∉ ([] : List ℕ)), ?_⟩
        refine (along_cons_of_step rfl).mpr ⟨(by decide : 2 ∉ [1]), ?_⟩
        refine (along_cons_of_step rfl).mpr ⟨(by decide : 3 ∉ [1, 2]), ?_⟩
        exact (along_cons_of_step rfl).mpr ⟨(by decide : 2 ∈ [1, 2, 3]), trivial⟩
  exact ⟨t, l, reach, queued, perm, first⟩

end Ledger

end Mftdma.Queue
