import Mathlib.Data.BitVec
import Mathlib.Data.List.Range
import Mftdma.Data.Links
import Mftdma.Execution.Run

/-!
# The fragment list of a burst

`RlePayload` keeps the fragments of a burst in a linked list. `new_frag` goes by the pointer
`last` alone: it appends behind that node, and begins a new list when there is none. `copy`
makes its list through a pointer to the pointer that is to be written next, and leaves `last`
as the constructor has set it.

`Threaded` says that the payloads have lists of nodes and share none of them. Every operation
keeps it, and every operation on a payload that has been made returns.
-/

namespace Mftdma.Rle

open Execution

universe u

variable {P : Type u}

/-- `struct frag_hdr` in memory, with `P` for the pointers to packets. -/
structure FragHdr (P : Type u) where
  startEnd : BitVec 32
  length : BitVec 32
  fragId : BitVec 32
  seqno : BitVec 8
  alpdu : P
  next : Option ℕ

/-- A header without its link. -/
def FragHdr.cut (hf : FragHdr P) : FragHdr P := { hf with next := none }

/-- The pointers of a payload. -/
structure RlePayload where
  head : Option ℕ
  last : Option ℕ

/-- All fragment headers and payloads that have been made, and how many. What the memory
of the others contains is not known. -/
structure Memory (P : Type u) where
  node : ℕ → FragHdr P
  nodes : ℕ
  payload : ℕ → RlePayload
  payloads : ℕ

namespace Memory

/-- Nothing has been made. -/
def start (node : ℕ → FragHdr P) (payload : ℕ → RlePayload) : Memory P where
  node := node
  nodes := 0
  payload := payload
  payloads := 0

def next (m : Memory P) (a : ℕ) : Option ℕ := (m.node a).next

/-- The fragment that a node holds. -/
def frag (m : Memory P) (a : ℕ) : FragHdr P := (m.node a).cut

/-- `a->next = p` -/
def setNext (m : Memory P) (a : ℕ) (p : Option ℕ) : Memory P :=
  { m with node := Function.update m.node a { m.node a with next := p } }

def setPayload (m : Memory P) (k : ℕ) (pl : RlePayload) : Memory P :=
  { m with payload := Function.update m.payload k pl }

/-- `new frag_hdr`, with the fields that are then set. -/
def newHdr (m : Memory P) (hf : FragHdr P) : Memory P :=
  { m with node := Function.update m.node m.nodes hf, nodes := m.nodes + 1 }

/-- `new RlePayload` -/
def newPayload (m : Memory P) (pl : RlePayload) : Memory P :=
  { m with payload := Function.update m.payload m.payloads pl, payloads := m.payloads + 1 }

/-- The constructor. -/
def construct (m : Memory P) : Memory P := m.newPayload ⟨none, none⟩

/-- The header that `new_frag` makes. It does not set the other fields. -/
def fragHdr (m : Memory P) (p : P) : FragHdr P :=
  { m.node m.nodes with next := none, alpdu := p, seqno := 0 }

/-- `new_frag` on the payload `k` -/
def newFrag (m : Memory P) (k : ℕ) (p : P) : Memory P :=
  let hf := m.nodes
  let m := m.newHdr (m.fragHdr p)
  match (m.payload k).last with
  | some last => (m.setNext last (some hf)).setPayload k { m.payload k with last := some hf }
  | none => m.setPayload k ⟨some hf, some hf⟩

end Memory

/-- The variables of `copy`. `hfp` points to `na->head` when it is `none`, and else to the
field `next` of a node. -/
structure Copying (P : Type u) where
  mem : Memory P
  na : RlePayload
  hf : Option ℕ
  hfp : Option ℕ

namespace Copying

/-- `*hfp = p` -/
def put (c : Copying P) (p : Option ℕ) : Copying P :=
  match c.hfp with
  | none => { c with na := { c.na with head := p } }
  | some a => { c with mem := c.mem.setNext a p }

/-- One pass of the loop, at the node `hf`. The new node gets all fields but `next`. -/
def copyHdr (c : Copying P) (hf : ℕ) : Copying P :=
  let nf := c.mem.nodes
  let c := { c with mem := c.mem.newHdr { c.mem.node hf with next := c.mem.next nf } }.put (some nf)
  { c with hfp := some nf, hf := c.mem.next hf }

/-- `for(hf=head; hf!=NULL; hf=hf->next)` -/
def loop : Loop (Copying P) where
  guard c := c.hf.isSome
  body c := c.hf.elim c c.copyHdr

end Copying

/-- `copy` on the payload `k`. A list has no more nodes than have been made, so the loop runs
for as many passes as it needs if it ends. -/
def Memory.copy (m : Memory P) (k : ℕ) : Option (Memory P) :=
  (Copying.loop.exec m.nodes ⟨m, ⟨none, none⟩, (m.payload k).head, none⟩).map fun c =>
    (c.put none).mem.newPayload (c.put none).na

/-- The operations. A payload goes by its number, which is the next one for a payload that
`construct` or `copy` makes. -/
inductive PayloadOp (P : Type u) where
  | construct
  | newFrag (k : ℕ) (p : P)
  | copy (k : ℕ)

/-- An operation on a payload that has been made. -/
def Memory.step (m : Memory P) : PayloadOp P → Option (Memory P)
  | .construct => some m.construct
  | .newFrag k p => if k < m.payloads then some (m.newFrag k p) else none
  | .copy k => if k < m.payloads then m.copy k else none

/-! ## The lists -/

namespace Memory

/-- The list of a payload consists of these nodes; if it has a `last`, this is the last one. -/
structure Threads (m : Memory P) (k : ℕ) (l : List ℕ) : Prop where
  links : Links m.next (m.payload k).head l
  last : ∀ a ∈ (m.payload k).last, l.getLast? = some a
  made : ∀ a ∈ l, a < m.nodes
  nodup : l.Nodup

/-- All payloads have lists, and no node is in two of them. -/
structure Threaded (m : Memory P) (l : ℕ → List ℕ) : Prop where
  each : ∀ k < m.payloads, m.Threads k (l k)
  apart : ∀ j < m.payloads, ∀ k < m.payloads, j ≠ k → ∀ a ∈ l j, a ∉ l k

theorem threaded_start (node : ℕ → FragHdr P) (payload : ℕ → RlePayload) :
    (start node payload).Threaded fun _ => [] :=
  ⟨fun _ none => absurd none (Nat.not_lt_zero _), fun _ none => absurd none (Nat.not_lt_zero _)⟩

variable {m t : Memory P} {k j : ℕ} {l : ℕ → List ℕ} {p : P}

/-- What does not touch a payload and its nodes leaves its list. -/
theorem Threads.congr {l : List ℕ} (h : m.Threads k l) (payload : t.payload k = m.payload k)
    (next : ∀ a ∈ l, t.next a = m.next a) (nodes : m.nodes ≤ t.nodes) : t.Threads k l where
  links := payload ▸ h.links.congr next
  last := payload ▸ h.last
  made a ha := (h.made a ha).trans_le nodes
  nodup := h.nodup

/-- A payload gets a list of new nodes and of those it had. -/
theorem Threaded.update (h : m.Threaded l) {new : List ℕ}
    (others : ∀ j < t.payloads, j ≠ k → j < m.payloads ∧ t.Threads j (l j))
    (own : t.Threads k new) (fresh : ∀ a ∈ new, m.nodes ≤ a ∨ k < m.payloads ∧ a ∈ l k) :
    t.Threaded (Function.update l k new) := by
  have out : ∀ j < m.payloads, j ≠ k → ∀ a ∈ l j, a ∉ new := by
    intro j hj other a ha again
    obtain le | ⟨hk, had⟩ := fresh a again
    · exact Nat.not_lt.mpr le ((h.each j hj).made a ha)
    · exact h.apart j hj k hk other a ha had
  refine ⟨fun j hj => ?_, fun i hi j hj other a ha => ?_⟩
  · by_cases same : j = k
    · rw [same, Function.update_self]
      exact own
    · rw [Function.update_of_ne same]
      exact (others j hj same).2
  · by_cases same : i = k
    · subst same
      rw [Function.update_self] at ha
      rw [Function.update_of_ne other.symm]
      exact fun again => out j (others j hj other.symm).1 other.symm a again ha
    · rw [Function.update_of_ne same] at ha
      have before := (others i hi same).1
      by_cases own : j = k
      · rw [own, Function.update_self]
        exact out i before same a ha
      · rw [Function.update_of_ne own]
        exact h.apart i before j (others j hj own).1 other a ha

theorem construct_payload_self (m : Memory P) : m.construct.payload m.payloads = ⟨none, none⟩ :=
  Function.update_self ..

/-- The constructor makes an empty list. -/
theorem Threaded.construct (h : m.Threaded l) :
    m.construct.Threaded (Function.update l m.payloads []) := by
  have own := construct_payload_self m
  refine h.update (fun j hj other => ?_)
    ⟨congrArg RlePayload.head own, by simp [own], by simp, .nil⟩ (by simp)
  have before : j < m.payloads := Nat.lt_of_le_of_ne (Nat.le_of_lt_succ hj) other
  exact ⟨before, (h.each j before).congr (Function.update_of_ne other _ _) (fun _ _ => rfl) le_rfl⟩

theorem setNext_node (m : Memory P) (a b : ℕ) (p : Option ℕ) :
    (m.setNext a p).node b = if b = a then { m.node a with next := p } else m.node b :=
  Function.update_apply ..

theorem setNext_next (m : Memory P) (a b : ℕ) (p : Option ℕ) :
    (m.setNext a p).next b = if b = a then p else m.next b := by
  rw [next, setNext_node]
  split_ifs <;> rfl

theorem setNext_frag (m : Memory P) (a : ℕ) (p : Option ℕ) : (m.setNext a p).frag = m.frag := by
  funext b
  rw [frag, setNext_node]
  split_ifs with same
  · rw [same]
    rfl
  · rfl

section link

variable {hf : FragHdr P} {site : Option ℕ} {a b : ℕ}

/-- A new node, to which a link leads from the node `site` if there is one. -/
def linkHdr (m : Memory P) (hf : FragHdr P) (site : Option ℕ) : Memory P :=
  site.elim (m.newHdr hf) fun a => (m.newHdr hf).setNext a (some m.nodes)

@[simp] theorem linkHdr_nodes (m : Memory P) (hf : FragHdr P) (site : Option ℕ) :
    (m.linkHdr hf site).nodes = m.nodes + 1 := by
  cases site <;> rfl

@[simp] theorem linkHdr_payload (m : Memory P) (hf : FragHdr P) (site : Option ℕ) :
    (m.linkHdr hf site).payload = m.payload := by
  cases site <;> rfl

@[simp] theorem linkHdr_payloads (m : Memory P) (hf : FragHdr P) (site : Option ℕ) :
    (m.linkHdr hf site).payloads = m.payloads := by
  cases site <;> rfl

/-- Of the nodes that there were only the one at the site is written to. -/
theorem linkHdr_node (old : b < m.nodes) : (m.linkHdr hf site).node b =
    if site = some b then { m.node b with next := some m.nodes } else m.node b := by
  have kept : (m.newHdr hf).node b = m.node b := Function.update_of_ne (Nat.ne_of_lt old) _ _
  cases site with
  | none =>
      rw [if_neg (by simp)]
      exact kept
  | some a =>
      by_cases same : a = b
      · subst same
        rw [if_pos rfl, ← kept]
        exact Function.update_self ..
      · rw [if_neg fun h => same (Option.some.inj h), ← kept]
        exact Function.update_of_ne (Ne.symm same) _ _

theorem linkHdr_node_new (inside : ∀ a ∈ site, a < m.nodes) :
    (m.linkHdr hf site).node m.nodes = hf := by
  have new : (m.newHdr hf).node m.nodes = hf := Function.update_self ..
  cases site with
  | none => exact new
  | some a => exact (Function.update_of_ne (Nat.ne_of_gt (inside a rfl)) _ _).trans new

theorem linkHdr_next (old : b < m.nodes) (other : site ≠ some b) :
    (m.linkHdr hf site).next b = m.next b := by
  rw [next, linkHdr_node old, if_neg other]
  rfl

/-- The fragments stay what they were. -/
theorem linkHdr_frag (old : b < m.nodes) : (m.linkHdr hf site).frag b = m.frag b := by
  rw [frag, linkHdr_node old, frag]
  split_ifs <;> rfl

/-- A chain grows by a link from its last node. -/
theorem chained_linkHdr {l : List ℕ} (hf : FragHdr P) (chain : Chained m.next l) (nodup : l.Nodup)
    (made : ∀ a ∈ l, a < m.nodes) (last : site = l.getLast?) :
    Chained (m.linkHdr hf site).next (l ++ [m.nodes]) := by
  refine Chained.append_iff.mpr ⟨chain.congr_of_ne_last nodup fun b hb other => ?_,
    Chained.singleton, ?_⟩
  · exact linkHdr_next (made b hb) (last ▸ other)
  · rintro a ha _ ⟨⟩
    rw [next, linkHdr_node (made a (List.mem_of_getLast? ha)), if_pos (last.trans ha)]

end link

section newFrag

/-- The nodes to which `new_frag` appends: it does not see a list that has no `last`. -/
def reached (m : Memory P) (k : ℕ) (l : List ℕ) : List ℕ :=
  if (m.payload k).last = none then [] else l

/-- `new_frag` links the new node in and notes its address. -/
theorem newFrag_eq (m : Memory P) (k : ℕ) (p : P) : m.newFrag k p =
    (m.linkHdr (m.fragHdr p) (m.payload k).last).setPayload k
      ⟨if (m.payload k).last = none then some m.nodes else (m.payload k).head, some m.nodes⟩ := by
  have same : ((m.newHdr (m.fragHdr p)).payload k).last = (m.payload k).last := rfl
  simp only [newFrag, same]
  cases (m.payload k).last with
  | none => rfl
  | some a => rw [if_neg (by simp)]; rfl

theorem newFrag_next (m : Memory P) (k : ℕ) (p : P) :
    (m.newFrag k p).next = (m.linkHdr (m.fragHdr p) (m.payload k).last).next := by
  rw [newFrag_eq]
  rfl

@[simp] theorem newFrag_nodes (m : Memory P) (k : ℕ) (p : P) :
    (m.newFrag k p).nodes = m.nodes + 1 := by
  rw [newFrag_eq]
  exact linkHdr_nodes ..

@[simp] theorem newFrag_payloads (m : Memory P) (k : ℕ) (p : P) :
    (m.newFrag k p).payloads = m.payloads := by
  rw [newFrag_eq]
  exact linkHdr_payloads ..

theorem newFrag_payload_of_ne (p : P) (other : j ≠ k) :
    (m.newFrag k p).payload j = m.payload j := by
  rw [newFrag_eq, setPayload, linkHdr_payload]
  exact Function.update_of_ne other _ _

theorem newFrag_payload_self (m : Memory P) (k : ℕ) (p : P) : (m.newFrag k p).payload k =
    ⟨if (m.payload k).last = none then some m.nodes else (m.payload k).head, some m.nodes⟩ := by
  rw [newFrag_eq]
  exact Function.update_self ..

theorem mem_of_mem_reached {l : List ℕ} {a : ℕ} (ha : a ∈ m.reached k l) : a ∈ l := by
  rw [reached] at ha
  split_ifs at ha with none
  · cases ha
  · exact ha

section threads

variable {l : List ℕ}

theorem Threads.last_lt (h : m.Threads k l) : ∀ a ∈ (m.payload k).last, a < m.nodes :=
  fun a ha => h.made a (List.mem_of_getLast? (h.last a ha))

theorem Threads.last_eq (h : m.Threads k l) :
    (m.payload k).last = (m.reached k l).getLast? := by
  rw [reached]
  split_ifs with none
  · exact none
  · obtain ⟨a, found⟩ := Option.ne_none_iff_exists'.mp none
    rw [found, h.last a found]

theorem Threads.chained_reached (h : m.Threads k l) :
    Chained m.next (m.reached k l) ∧ (m.reached k l).Nodup := by
  rw [reached]
  split_ifs
  · exact ⟨.nil, .nil⟩
  · exact ⟨.of_links h.links, h.nodup⟩

theorem Threads.newFrag_head (h : m.Threads k l) (p : P) :
    ((m.newFrag k p).payload k).head = (m.reached k l ++ [m.nodes]).head? := by
  rw [newFrag_payload_self, reached]
  split_ifs with none
  · rfl
  · obtain ⟨a, found⟩ := Option.ne_none_iff_exists'.mp none
    obtain ⟨front, rfl⟩ := List.getLast?_eq_some_iff.mp (h.last a found)
    rw [h.links.head?_eq]
    cases front <;> rfl

/-- The new node is the last one of the list. -/
theorem Threads.newFrag (h : m.Threads k l) (p : P) :
    (m.newFrag k p).Threads k (m.reached k l ++ [m.nodes]) := by
  obtain ⟨chain, nodup⟩ := h.chained_reached
  have made : ∀ a ∈ m.reached k l, a < m.nodes := fun a ha => h.made a (mem_of_mem_reached ha)
  have grown : Chained (m.newFrag k p).next (m.reached k l ++ [m.nodes]) := by
    rw [newFrag_next]
    exact chained_linkHdr _ chain nodup made h.last_eq
  have ends : (m.newFrag k p).next m.nodes = none := by
    rw [newFrag_next, next, linkHdr_node_new h.last_lt, fragHdr]
  refine ⟨?_, ?_, ?_, ?_⟩
  · rw [h.newFrag_head]
    refine grown.links fun a ha => ?_
    obtain rfl : m.nodes = a := by simpa using ha
    exact ends
  · rw [newFrag_payload_self]
    rintro a ⟨⟩
    exact List.getLast?_concat
  · intro a ha
    rw [newFrag_nodes]
    obtain had | new := List.mem_append.mp ha
    · exact (made a had).trans (Nat.lt_succ_self _)
    · exact List.mem_singleton.mp new ▸ Nat.lt_succ_self _
  · refine List.nodup_append.mpr ⟨nodup, List.nodup_singleton _, ?_⟩
    rintro a ha _ new rfl
    exact Nat.lt_irrefl _ (List.mem_singleton.mp new ▸ made a ha)

end threads

/-- `new_frag` on one payload leaves the lists of the others. -/
theorem Threaded.newFrag (h : m.Threaded l) (hk : k < m.payloads) (p : P) :
    (m.newFrag k p).Threaded (Function.update l k (m.reached k (l k) ++ [m.nodes])) := by
  refine h.update (fun j hj other => ?_) ((h.each k hk).newFrag p) fun a ha => ?_
  · rw [newFrag_payloads] at hj
    refine ⟨hj, (h.each j hj).congr (newFrag_payload_of_ne p other) (fun a ha => ?_) (by simp)⟩
    rw [newFrag_next]
    refine linkHdr_next ((h.each j hj).made a ha) fun last => ?_
    exact h.apart j hj k hk other a ha (List.mem_of_getLast? ((h.each k hk).last a last))
  · rw [reached] at ha
    split_ifs at ha with none
    · exact .inl (List.mem_singleton.mp ha).ge
    · obtain had | new := List.mem_append.mp ha
      · exact .inr ⟨hk, had⟩
      · exact .inl (List.mem_singleton.mp new).ge

end newFrag

/-- The nodes that a copy of the list `l` consists of. -/
def copies (m : Memory P) (l : List ℕ) : List ℕ := List.range' m.nodes l.length

theorem copies_concat (m : Memory P) (l : List ℕ) (x : ℕ) :
    m.copies (l ++ [x]) = m.copies l ++ [m.nodes + l.length] := by
  rw [copies, copies, List.length_append, List.length_singleton, List.range'_1_concat]

theorem mem_copies {xs : List ℕ} {a : ℕ} :
    a ∈ m.copies xs ↔ m.nodes ≤ a ∧ a < m.nodes + xs.length := by
  rw [copies, List.mem_range'_1]

/-- A new payload has copies of the fragments in the list `l`, but no `last`. -/
structure Copy (m : Memory P) (l : List ℕ) (t : Memory P) : Prop where
  nodes : t.nodes = m.nodes + l.length
  payloads : t.payloads = m.payloads + 1
  payload : ∀ j ≠ m.payloads, t.payload j = m.payload j
  old : ∀ a < m.nodes, t.node a = m.node a
  links : Links t.next (t.payload m.payloads).head (m.copies l)
  last : (t.payload m.payloads).last = none
  frags : (m.copies l).map t.frag = l.map m.frag

end Memory

namespace Copying

variable {m : Memory P} {c : Copying P} {xs rest : List ℕ} {x : ℕ}

theorem copyHdr_eq (c : Copying P) (x : ℕ) : c.copyHdr x =
    ⟨c.mem.linkHdr { c.mem.node x with next := c.mem.next c.mem.nodes } c.hfp,
      ⟨if c.hfp = none then some c.mem.nodes else c.na.head, c.na.last⟩,
      (c.copyHdr x).mem.next x, some c.mem.nodes⟩ := by
  obtain ⟨mem, na, hf, _ | a⟩ := c <;> rfl

/-- The nodes `xs` of the original `m` have been copied. The link of the last new node is
still to be written. -/
structure Copied (m : Memory P) (xs : List ℕ) (c : Copying P) : Prop where
  nodes : c.mem.nodes = m.nodes + xs.length
  payload : c.mem.payload = m.payload
  payloads : c.mem.payloads = m.payloads
  old : ∀ a < m.nodes, c.mem.node a = m.node a
  head : c.na.head = (m.copies xs).head?
  last : c.na.last = none
  hfp : c.hfp = (m.copies xs).getLast?
  chain : Chained c.mem.next (m.copies xs)
  frags : (m.copies xs).map c.mem.frag = xs.map m.frag

theorem copied_nil (m : Memory P) (hf : Option ℕ) : Copied m [] ⟨m, ⟨none, none⟩, hf, none⟩ :=
  ⟨rfl, rfl, rfl, fun _ _ => rfl, rfl, rfl, rfl, .nil, rfl⟩

/-- One pass copies one node more. -/
theorem Copied.copyHdr (h : Copied m xs c) (hx : x < m.nodes) :
    Copied m (xs ++ [x]) (c.copyHdr x) := by
  have made : ∀ a ∈ m.copies xs, a < c.mem.nodes := fun a ha =>
    h.nodes ▸ (Memory.mem_copies.mp ha).2
  have inside : ∀ a ∈ c.hfp, a < c.mem.nodes := fun a ha =>
    made a (List.mem_of_getLast? (h.hfp ▸ ha))
  have later : ∀ a < m.nodes, c.hfp ≠ some a := fun a ha found =>
    Nat.not_lt.mpr (Memory.mem_copies.mp (List.mem_of_getLast? (h.hfp ▸ found))).1 ha
  have mem : (c.copyHdr x).mem =
      c.mem.linkHdr { c.mem.node x with next := c.mem.next c.mem.nodes } c.hfp := by
    rw [copyHdr_eq]
  have nodup : (m.copies xs).Nodup := List.nodup_range'
  have grown : m.copies (xs ++ [x]) = m.copies xs ++ [c.mem.nodes] := by
    rw [Memory.copies_concat, h.nodes]
  refine ⟨?_, ?_, ?_, fun a ha => ?_, ?_, ?_, ?_, ?_, ?_⟩
  · rw [mem, Memory.linkHdr_nodes, h.nodes, List.length_append, List.length_singleton,
      Nat.add_assoc]
  · rw [mem, Memory.linkHdr_payload, h.payload]
  · rw [mem, Memory.linkHdr_payloads, h.payloads]
  · rw [mem, Memory.linkHdr_node (ha.trans_le (h.nodes ▸ Nat.le_add_right _ _)),
      if_neg (later a ha), h.old a ha]
  · rw [copyHdr_eq, grown, h.hfp, h.head]
    cases m.copies xs with
    | nil => rfl
    | cons b l => simp
  · rw [copyHdr_eq, h.last]
  · rw [copyHdr_eq, grown, List.getLast?_concat]
  · rw [mem, grown]
    exact Memory.chained_linkHdr _ h.chain nodup made h.hfp
  · have before : (m.copies xs).map (c.copyHdr x).mem.frag = (m.copies xs).map c.mem.frag :=
      List.map_congr_left fun a ha => by rw [mem, Memory.linkHdr_frag (made a ha)]
    have new : (c.copyHdr x).mem.frag c.mem.nodes = m.frag x := by
      rw [mem, Memory.frag, Memory.linkHdr_node_new inside, h.old x hx]
      rfl
    rw [grown, List.map_append, before, h.frags, List.map_append, List.map_singleton, new,
      List.map_singleton]

/-- The loop copies the rest of a list, and as many passes as there are nodes are enough. -/
theorem Copied.exec (h : Copied m xs c) (links : Links m.next c.hf rest)
    (made : ∀ a ∈ rest, a < m.nodes) {passes : ℕ} (enough : rest.length ≤ passes) :
    ∃ c', loop.exec passes c = some c' ∧ Copied m (xs ++ rest) c' := by
  induction rest generalizing c xs passes with
  | nil =>
      rw [List.append_nil]
      have stop : loop.guard c = false := congrArg Option.isSome (show c.hf = none from links)
      exact ⟨c, Loop.exec_of_not_guard passes stop, h⟩
  | cons x rest ih =>
      obtain ⟨here, links⟩ := links
      obtain ⟨hx, made⟩ := List.forall_mem_cons.mp made
      obtain ⟨passes, rfl⟩ := Nat.exists_eq_add_of_le' enough
      have copied := h.copyHdr hx
      have onwards : (c.copyHdr x).hf = m.next x := by
        rw [copyHdr_eq]
        exact congrArg FragHdr.next (copied.old x hx)
      obtain ⟨c', exec, rest⟩ :=
        ih copied (onwards ▸ links) made (Nat.le_add_left rest.length passes)
      have goes : loop.guard c = true := congrArg Option.isSome here
      have body : loop.body c = c.copyHdr x := by
        show c.hf.elim c c.copyHdr = _
        rw [here, Option.elim_some]
      refine ⟨c', ?_, by rwa [List.append_cons]⟩
      rw [List.length_cons, ← Nat.add_assoc, Loop.exec_succ_of_guard _ goes, body, exec]

theorem put_mem (c : Copying P) (p : Option ℕ) :
    (c.put p).mem = c.hfp.elim c.mem fun a => c.mem.setNext a p := by
  obtain ⟨mem, na, hf, _ | a⟩ := c <;> rfl

@[simp] theorem put_nodes (c : Copying P) (p : Option ℕ) :
    (c.put p).mem.nodes = c.mem.nodes := by
  obtain ⟨mem, na, hf, _ | a⟩ := c <;> rfl

@[simp] theorem put_payload (c : Copying P) (p : Option ℕ) :
    (c.put p).mem.payload = c.mem.payload := by
  obtain ⟨mem, na, hf, _ | a⟩ := c <;> rfl

@[simp] theorem put_payloads (c : Copying P) (p : Option ℕ) :
    (c.put p).mem.payloads = c.mem.payloads := by
  obtain ⟨mem, na, hf, _ | a⟩ := c <;> rfl

@[simp] theorem put_frag (c : Copying P) (p : Option ℕ) : (c.put p).mem.frag = c.mem.frag := by
  obtain ⟨mem, na, hf, _ | a⟩ := c
  · rfl
  · exact mem.setNext_frag a p

theorem put_na (c : Copying P) (p : Option ℕ) :
    (c.put p).na = ⟨if c.hfp = none then p else c.na.head, c.na.last⟩ := by
  obtain ⟨mem, na, hf, _ | a⟩ := c <;> rfl

/-- Once the link of the last new node is cut, the new nodes are a list. -/
theorem Copied.links (h : Copied m xs c) :
    Links (c.put none).mem.next (c.put none).na.head (m.copies xs) := by
  have head : (c.put none).na.head = (m.copies xs).head? := by
    rw [put_na, h.head, h.hfp]
    cases m.copies xs with
    | nil => rfl
    | cons a l => simp
  rw [head, put_mem]
  cases found : c.hfp with
  | none =>
      have empty : m.copies xs = [] := List.getLast?_eq_none_iff.mp (h.hfp.symm.trans found)
      rw [empty]
      rfl
  | some a =>
      have last : (m.copies xs).getLast? = some a := h.hfp.symm.trans found
      apply Chained.links
      · refine h.chain.congr_of_ne_last List.nodup_range' fun b _ other => ?_
        refine (Memory.setNext_next ..).trans (if_neg ?_)
        rintro rfl
        exact other last
      · intro b hb
        obtain rfl := Option.some.inj (last.symm.trans hb)
        exact (Memory.setNext_next ..).trans (if_pos rfl)

/-- This leaves the original. -/
theorem Copied.put_node (h : Copied m xs c) {a : ℕ} (ha : a < m.nodes) :
    (c.put none).mem.node a = m.node a := by
  rw [put_mem, ← h.old a ha]
  cases found : c.hfp with
  | none => rfl
  | some b =>
      have new := (Memory.mem_copies.mp (List.mem_of_getLast? (h.hfp ▸ found))).1
      exact (Memory.setNext_node ..).trans (if_neg (by omega))

/-- The payload is there. -/
theorem Copied.finish (h : Copied m xs c) :
    m.Copy xs ((c.put none).mem.newPayload (c.put none).na) := by
  have own : ((c.put none).mem.newPayload (c.put none).na).payload m.payloads =
      (c.put none).na := by
    rw [Memory.newPayload, put_payloads, h.payloads]
    exact Function.update_self ..
  refine ⟨?_, ?_, fun j other => ?_, fun a ha => h.put_node ha, ?_, ?_, ?_⟩
  · exact (put_nodes ..).trans h.nodes
  · exact congrArg (· + 1) ((put_payloads ..).trans h.payloads)
  · rw [Memory.newPayload, put_payloads, put_payload, h.payloads, h.payload]
    exact Function.update_of_ne other _ _
  · rw [own]
    exact h.links
  · rw [own, put_na, h.last]
  · show (m.copies xs).map (c.put none).mem.frag = _
    rw [put_frag, h.frags]

end Copying

namespace Memory

variable {m t : Memory P} {k : ℕ} {l : ℕ → List ℕ} {op : PayloadOp P}

theorem Threads.length_le {l : List ℕ} (h : m.Threads k l) : l.length ≤ m.nodes := by
  have sub : l ⊆ List.range m.nodes := fun a ha => List.mem_range.mpr (h.made a ha)
  exact (h.nodup.subperm sub).length_le.trans List.length_range.le

/-- `copy` returns, and has copied the list. -/
theorem Threads.copy {l : List ℕ} (h : m.Threads k l) : ∃ t, m.copy k = some t ∧ m.Copy l t := by
  obtain ⟨c, exec, copied⟩ :=
    (Copying.copied_nil m (m.payload k).head).exec h.links h.made h.length_le
  exact ⟨_, by rw [Memory.copy, exec, Option.map_some], copied.finish⟩

/-- The copy has a list of its own. -/
theorem Threaded.copy (h : m.Threaded l) (copied : m.Copy (l k) t) :
    t.Threaded (Function.update l m.payloads (m.copies (l k))) := by
  refine h.update (fun j hj other => ?_) ⟨copied.links, by simp [copied.last], fun a ha => ?_,
    List.nodup_range'⟩ fun a ha => .inl (mem_copies.mp ha).1
  · rw [copied.payloads] at hj
    have before : j < m.payloads := Nat.lt_of_le_of_ne (Nat.le_of_lt_succ hj) other
    refine ⟨before, (h.each j before).congr (copied.payload j other) (fun a ha => ?_)
      (copied.nodes ▸ Nat.le_add_right _ _)⟩
    exact congrArg FragHdr.next (copied.old a ((h.each j before).made a ha))
  · rw [copied.nodes]
    exact (mem_copies.mp ha).2

/-- The operation is on a payload that has been made. -/
def Made (m : Memory P) (op : PayloadOp P) : Prop :=
  ∀ k, (∃ p, op = .newFrag k p) ∨ op = .copy k → k < m.payloads

/-- Every operation on a payload that has been made returns. -/
theorem Threaded.step_isSome_iff (h : m.Threaded l) (op : PayloadOp P) :
    (m.step op).isSome = true ↔ m.Made op := by
  cases op with
  | construct => exact iff_of_true rfl (by simp [Made])
  | newFrag k p =>
      rw [step, Option.isSome_ite]
      simp [Made]
  | copy k =>
      rw [step]
      split_ifs with hk
      · obtain ⟨t, returned, -⟩ := (h.each k hk).copy
        exact iff_of_true (by rw [returned]; rfl) (by simpa [Made] using hk)
      · exact iff_of_false (by simp) (by simpa [Made] using hk)

/-- Every operation leaves the payloads with lists. -/
theorem Threaded.step (h : m.Threaded l) (step : m.step op = some t) : ∃ l', t.Threaded l' := by
  cases op with
  | construct =>
      obtain rfl := Option.some.inj step
      exact ⟨_, h.construct⟩
  | newFrag k p =>
      obtain ⟨hk, same⟩ := Option.ite_none_right_eq_some.mp step
      obtain rfl := Option.some.inj same
      exact ⟨_, h.newFrag hk p⟩
  | copy k =>
      obtain ⟨hk, returned⟩ := Option.ite_none_right_eq_some.mp step
      obtain ⟨_, found, copied⟩ := (h.each k hk).copy
      obtain rfl := Option.some.inj (found.symm.trans returned)
      exact ⟨_, h.copy copied⟩

/-- Any operations on payloads that have been made return. -/
theorem run_isSome_iff (node : ℕ → FragHdr P) (payload : ℕ → RlePayload)
    (ops : List (PayloadOp P)) :
    (run step (start node payload) ops).isSome = true ↔ Along step Made (start node payload) ops :=
  run_isSome_iff_along_of (I := fun m => ∃ l, m.Threaded l) ⟨_, threaded_start node payload⟩
    (fun _ _ _ ⟨_, h⟩ step => h.step step) fun _ op ⟨_, h⟩ => h.step_isSome_iff op

end Memory

end Mftdma.Rle
