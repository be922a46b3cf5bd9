import Mathlib.Data.Fintype.Card
import Mftdma.Data.Links
import Mftdma.Execution.Loop
import Mftdma.Execution.Run

/-!
# Reassembly contexts

`MacRle::get_context` looks up the context of a source and a fragment identifier
in a hash table whose buckets, chains and free list are all threaded through one
array. The chain walk goes on while both the source and the identifier differ,
so it stops at a context that agrees in one of the two.

All pairs of a bucket have the same identifier, hence the walk always stops at
the head of the bucket: the table holds one context for each bucket, and pairs
that share a bucket share it.
-/

namespace Mftdma.Rle

open Execution

def maxCnts : ℕ := 512

/-- A pointer into `cbuffer`. -/
abbrev Slot := Fin maxCnts

/-- The fields of a context that reassembly works on, with `P` for the packets. -/
structure Buffer (P : Type) where
  pkt : Option P
  expSn : BitVec 8
  len : BitVec 32
deriving DecidableEq

/-- `struct context` -/
structure Context (P : Type) extends Buffer P where
  src : ℕ
  fid : ℕ
  head : Option Slot
  next : Option Slot

/-- A context in memory that happens to be all zero. -/
def Context.zero {P : Type} : Context P where
  pkt := none
  expSn := 0
  len := 0
  src := 0
  fid := 0
  head := none
  next := none

/-- The receiving part of a `MacRle`. -/
structure Contexts (P : Type) where
  cbuffer : Slot → Context P
  free : Option Slot

variable {P : Type}

/-- `((src<<3) + fid) % MAX_CNTS` -/
def bucket (src : ℕ) (fid : Fin 8) : Slot :=
  ⟨((src <<< 3) + fid) % maxCnts, Nat.mod_lt _ (by decide)⟩

namespace Contexts

/-- The constructor: no context is in use, and the free list runs from the last
cell to the first. What the other fields contain is not known. -/
def init (memory : Slot → Context P) : Contexts P where
  cbuffer i :=
    { memory i with
      head := none
      next := if h : i.val = 0 then none else some ⟨i.val - 1, by omega⟩
      pkt := none }
  free := some ⟨maxCnts - 1, by decide⟩

/-- The walk along the chain of a bucket. -/
def walk (m : Contexts P) (src : ℕ) (fid : Fin 8) : Loop (Option Slot) where
  guard
    | none => false
    | some cp => !((m.cbuffer cp).src == src) && !((m.cbuffer cp).fid == fid.val)
  body cp := cp.bind fun cp => (m.cbuffer cp).next

/-- A context is taken from the free list and linked in as the head of its bucket. -/
def create (m : Contexts P) (cp : Slot) (src : ℕ) (fid : Fin 8) : Contexts P :=
  let cbuffer := Function.update m.cbuffer cp
    { m.cbuffer cp with expSn := 0, src := src, fid := fid, next := none }
  { cbuffer := Function.update cbuffer (bucket src fid)
      { cbuffer (bucket src fid) with head := some cp }
    free := (m.cbuffer cp).next }

/-- `get_context`: the context and the table it leaves, or `none` for `abort` (and
for a chain that has no end). -/
def getContext (m : Contexts P) (src : ℕ) (fid : Fin 8) : Option (Slot × Contexts P) :=
  ((m.walk src fid).exec maxCnts (m.cbuffer (bucket src fid)).head).bind fun cp =>
    match cp with
    | some cp => some (cp, m)
    | none => m.free.map fun cp => (cp, m.create cp src fid)

variable {m : Contexts P} {cp : Slot} {src : ℕ} {fid : Fin 8}

section create

theorem create_apply (m : Contexts P) (cp : Slot) (src : ℕ) (fid : Fin 8) (j : Slot) :
    (m.create cp src fid).cbuffer j =
      { m.cbuffer j with
        expSn := if j = cp then 0 else (m.cbuffer j).expSn
        src := if j = cp then src else (m.cbuffer j).src
        fid := if j = cp then fid else (m.cbuffer j).fid
        next := if j = cp then none else (m.cbuffer j).next
        head := if j = bucket src fid then some cp else (m.cbuffer j).head } := by
  by_cases hb : j = bucket src fid
  · subst hb
    by_cases hc : bucket src fid = cp
    · simp [create, hc]
    · simp [create, hc]
  · by_cases hc : j = cp
    · subst hc
      simp [create, hb]
    · simp [create, hb, hc]

end create

/-- The shape of the table: the free list, and at most one context a bucket. -/
structure Indexed (m : Contexts P) (fl : List Slot) : Prop where
  free : Links (fun a => (m.cbuffer a).next) m.free fl
  nodup : fl.Nodup
  chain : ∀ k cp, (m.cbuffer k).head = some cp →
    (m.cbuffer cp).next = none ∧ cp ∉ fl ∧
      ∃ src fid, (m.cbuffer cp).src = src ∧ (m.cbuffer cp).fid = fid.val ∧ bucket src fid = k
  clear : ∀ a ∈ fl, (m.cbuffer a).pkt = none
  count : fl.length + (Finset.univ.filter fun k => (m.cbuffer k).head ≠ none).card = maxCnts

/-- The free list of the constructor goes down from any cell to the first one. -/
private theorem links_init (memory : Slot → Context P) (k : ℕ) (hk : k < maxCnts) :
    ∃ fl, Links (fun a => ((init memory).cbuffer a).next) (some ⟨k, hk⟩) fl ∧ fl.Nodup ∧
      fl.length = k + 1 ∧ ∀ a ∈ fl, a.val ≤ k := by
  induction k with
  | zero => exact ⟨[⟨0, hk⟩], by simp [init], by simp, rfl, by simp⟩
  | succ k ih =>
      obtain ⟨fl, links, nodup, length, below⟩ := ih (Nat.lt_of_succ_lt hk)
      have new : (⟨k + 1, hk⟩ : Slot) ∉ fl := fun mem => by
        have := below _ mem
        simp only at this
        omega
      refine ⟨⟨k + 1, hk⟩ :: fl, ⟨rfl, links⟩, List.nodup_cons.mpr ⟨new, nodup⟩, by simp [length],
        List.forall_mem_cons.mpr ⟨le_rfl, fun a ha => (below a ha).trans (Nat.le_succ k)⟩⟩

theorem indexed_init (memory : Slot → Context P) : ∃ fl, (init memory).Indexed fl := by
  obtain ⟨fl, links, nodup, length, -⟩ := links_init memory (maxCnts - 1) (by decide)
  refine ⟨fl, links, nodup, ?_, fun _ _ => rfl, ?_⟩
  · intro k cp head
    cases head
  · simp [init, length, maxCnts]

/-- Pairs of one bucket have the same fragment identifier. -/
theorem fid_eq_of_bucket_eq {src src' : ℕ} {fid fid' : Fin 8}
    (h : bucket src fid = bucket src' fid') : fid = fid' := by
  have same := congrArg Fin.val h
  simp only [bucket, maxCnts, Nat.shiftLeft_eq] at same
  omega

/-- What `get_context` can do: return the head of the bucket, or fill an empty
bucket from the free list. -/
inductive Got (m : Contexts P) (src : ℕ) (fid : Fin 8) : Slot → Contexts P → Prop
  | found (cp : Slot) (head : (m.cbuffer (bucket src fid)).head = some cp) : Got m src fid cp m
  | created (cp : Slot) (empty : (m.cbuffer (bucket src fid)).head = none)
      (free : m.free = some cp) : Got m src fid cp (m.create cp src fid)

variable {fl : List Slot}

/-- The head of a bucket agrees with every pair of the bucket in the identifier,
so the walk does not get past it. -/
theorem Indexed.getContext_of_head (h : m.Indexed fl)
    (head : (m.cbuffer (bucket src fid)).head = some cp) :
    m.getContext src fid = some (cp, m) := by
  obtain ⟨-, -, src', fid', -, fidEq, same⟩ := h.chain _ _ head
  have stop : (m.walk src fid).guard (some cp) = false := by
    rw [fid_eq_of_bucket_eq same] at fidEq
    simp [walk, fidEq]
  rw [getContext, head, Loop.exec_of_not_guard _ stop]
  rfl

theorem getContext_of_empty (empty : (m.cbuffer (bucket src fid)).head = none) :
    m.getContext src fid = m.free.map fun cp => (cp, m.create cp src fid) := by
  rw [getContext, empty, Loop.exec_of_not_guard _ rfl]
  rfl

/-- There is a free cell as long as a bucket is empty. -/
theorem Indexed.exists_free (h : m.Indexed fl) {k : Slot} (empty : (m.cbuffer k).head = none) :
    ∃ cp rest, m.free = some cp ∧ fl = cp :: rest := by
  cases fl with
  | cons cp rest => exact ⟨cp, rest, h.free.1, rfl⟩
  | nil =>
      have full := h.count
      rw [List.length_nil, Nat.zero_add] at full
      have all := (Finset.card_eq_iff_eq_univ _).mp (full.trans (Fintype.card_fin _).symm)
      have used : k ∈ Finset.univ.filter fun k => (m.cbuffer k).head ≠ none := by
        rw [all]
        exact Finset.mem_univ k
      exact absurd empty (Finset.mem_filter.mp used).2

/-- The new context fills its bucket, and the table keeps its shape. -/
theorem Indexed.create {rest : List Slot} (h : m.Indexed (cp :: rest))
    (empty : (m.cbuffer (bucket src fid)).head = none) :
    (m.create cp src fid).Indexed rest := by
  have new : cp ∉ rest := (List.nodup_cons.mp h.nodup).1
  constructor
  · apply Links.congr h.free.2
    intro a ha
    have other : a ≠ cp := fun same => new (same ▸ ha)
    simp [create_apply, other]
  · exact (List.nodup_cons.mp h.nodup).2
  · intro k cp' head
    simp only [create_apply] at head ⊢
    split at head
    · next here =>
        cases head
        exact ⟨if_pos rfl, new, src, fid, if_pos rfl, if_pos rfl, here.symm⟩
    · obtain ⟨last, used, src', fid', srcEq, fidEq, same⟩ := h.chain k cp' head
      have other : cp' ≠ cp := fun eq => used (eq ▸ List.mem_cons_self)
      simp only [if_neg other]
      exact ⟨last, fun mem => used (List.mem_cons_of_mem _ mem), src', fid', srcEq, fidEq, same⟩
  · intro a ha
    rw [create_apply]
    exact h.clear a (List.mem_cons_of_mem _ ha)
  · have grown : (Finset.univ.filter fun k => ((m.create cp src fid).cbuffer k).head ≠ none) =
        insert (bucket src fid) (Finset.univ.filter fun k => (m.cbuffer k).head ≠ none) := by
      ext k
      by_cases here : k = bucket src fid <;> simp [create_apply, here]
    have count := h.count
    rw [List.length_cons] at count
    rw [grown, Finset.card_insert_of_notMem (by simp [empty])]
    omega

/-- `get_context` returns, and the table keeps its shape. -/
theorem Indexed.getContext (h : m.Indexed fl) (src : ℕ) (fid : Fin 8) :
    ∃ cp m', m.getContext src fid = some (cp, m') ∧ Got m src fid cp m' ∧
      ∃ fl', m'.Indexed fl' := by
  cases head : (m.cbuffer (bucket src fid)).head with
  | some cp => exact ⟨cp, m, h.getContext_of_head head, .found cp head, fl, h⟩
  | none =>
      obtain ⟨cp, rest, free, rfl⟩ := h.exists_free head
      refine ⟨cp, m.create cp src fid, ?_, .created cp head free, rest, h.create head⟩
      rw [getContext_of_empty head, free]
      rfl

/-- The context returned is the head of its bucket from then on. -/
theorem Got.head {m' : Contexts P} (h : Got m src fid cp m') :
    (m'.cbuffer (bucket src fid)).head = some cp := by
  cases h with
  | found head => exact head
  | created empty free => simp [create_apply]

/-- No bucket loses its context, and no context in use changes its pair. -/
theorem Got.kept {m' : Contexts P} (h : Got m src fid cp m') {k cp' : Slot}
    (used : (m.cbuffer k).head = some cp') : (m'.cbuffer k).head = some cp' := by
  cases h with
  | found head => exact used
  | created empty free =>
      have other : k ≠ bucket src fid := by
        rintro rfl
        rw [empty] at used
        cases used
      simpa [create_apply, other] using used

end Contexts

/-- A call of `get_context`. -/
structure Call where
  src : ℕ
  fid : Fin 8
deriving DecidableEq

namespace Call

/-- The bucket that a call looks in. -/
def bucket (c : Call) : Slot := Rle.bucket c.src c.fid

/-- The call as a step of the table. -/
def step (m : Contexts P) (c : Call) : Option (Contexts P) :=
  (m.getContext c.src c.fid).map Prod.snd

end Call

/-- The context that call number `k` returns. -/
def returned (m : Contexts P) (calls : List Call) (k : ℕ) : Option Slot :=
  calls[k]?.bind fun c => (run Call.step m (calls.take k)).bind fun m =>
    (m.getContext c.src c.fid).map Prod.fst

/-- What the callers of `get_context` rely on. -/
structure Faithful (m : Contexts P) (calls : List Call) : Prop where
  own : ∀ k c, calls[k]? = some c → ∃ m' cp m'', run Call.step m (calls.take k) = some m' ∧
    m'.getContext c.src c.fid = some (cp, m'') ∧ (m''.cbuffer cp).src = c.src ∧
      (m''.cbuffer cp).fid = c.fid
  same : ∀ k k' c c', calls[k]? = some c → calls[k']? = some c' →
    (returned m calls k = returned m calls k' ↔ c = c')
  found : ∀ k k' c, k < k' → calls[k]? = some c → calls[k']? = some c → ∃ m' cp,
    run Call.step m (calls.take k') = some m' ∧ m'.getContext c.src c.fid = some (cp, m')

/-- The table after `calls`: every bucket asked for holds the context of the first
call that asked for it. -/
structure Serves (calls : List Call) (m : Contexts P) : Prop where
  indexed : ∃ fl, m.Indexed fl
  known : ∀ c ∈ calls, ∃ cp, (m.cbuffer c.bucket).head = some cp
  origin : ∀ k cp, (m.cbuffer k).head = some cp → ∃ c ∈ calls, c.bucket = k ∧
    (m.cbuffer cp).src = c.src ∧ (m.cbuffer cp).fid = c.fid

variable {m m' : Contexts P} {calls : List Call} {c : Call}

theorem serves_init (memory : Slot → Context P) : Serves [] (Contexts.init memory) :=
  ⟨Contexts.indexed_init memory, by simp, fun _ _ head => by cases head⟩

/-- Every call returns, and adds its own pair to those served. -/
theorem Serves.step (h : Serves calls m) (c : Call) :
    ∃ cp m', m.getContext c.src c.fid = some (cp, m') ∧ Contexts.Got m c.src c.fid cp m' ∧
      Serves (calls ++ [c]) m' := by
  obtain ⟨fl, indexed⟩ := h.indexed
  obtain ⟨cp, m', result, got, indexed'⟩ := indexed.getContext c.src c.fid
  refine ⟨cp, m', result, got, indexed', ?_, ?_⟩
  · intro d hd
    obtain old | new := List.mem_append.mp hd
    · obtain ⟨cp', used⟩ := h.known d old
      exact ⟨cp', got.kept used⟩
    · obtain rfl := List.mem_singleton.mp new
      exact ⟨cp, got.head⟩
  · intro k cp' head
    cases got with
    | found _ =>
        obtain ⟨d, hd, rest⟩ := h.origin k cp' head
        exact ⟨d, List.mem_append_left _ hd, rest⟩
    | created empty free =>
        rw [Contexts.create_apply] at head
        simp only at head
        split at head
        · next here =>
            cases head
            exact ⟨c, List.mem_append_right _ (List.mem_singleton.mpr rfl), here.symm,
              by simp [Contexts.create_apply], by simp [Contexts.create_apply]⟩
        · obtain ⟨d, hd, place, src, fid⟩ := h.origin k cp' head
          have links := indexed.free
          rw [free] at links
          obtain ⟨rest, rfl⟩ := links.exists_cons
          have other : cp' ≠ cp := by
            rintro rfl
            exact (indexed.chain k cp' head).2.1 List.mem_cons_self
          refine ⟨d, List.mem_append_left _ hd, place, ?_, ?_⟩
          · simpa [Contexts.create_apply, other] using src
          · simpa [Contexts.create_apply, other] using fid

theorem serves_run (memory : Slot → Context P) (calls : List Call) :
    ∃ m, run Call.step (Contexts.init memory) calls = some m ∧ Serves calls m := by
  induction calls using List.reverseRecOn with
  | nil => exact ⟨_, rfl, serves_init memory⟩
  | append_singleton calls c ih =>
      obtain ⟨m, reach, serves⟩ := ih
      obtain ⟨cp, m', result, -, serves'⟩ := serves.step c
      exact ⟨m', run_snoc_eq_some.mpr ⟨m, reach, by rw [Call.step, result]; rfl⟩, serves'⟩

/-- A bucket keeps its context to the end of a run. -/
theorem head_kept {pre : List Call} (serves : Serves pre m) (reach : run Call.step m calls = some m')
    {k cp : Slot} (used : (m.cbuffer k).head = some cp) : (m'.cbuffer k).head = some cp := by
  have both := run_invariant (I := fun a : Contexts P =>
    (∃ pre, Serves pre a) ∧ (a.cbuffer k).head = some cp) ⟨⟨pre, serves⟩, used⟩ ?_ reach
  · exact both.2
  · rintro a c b ⟨⟨pre, ha⟩, head⟩ step
    obtain ⟨cp', b', result, got, hb⟩ := ha.step c
    rw [Call.step, result] at step
    obtain rfl := Option.some.inj step
    exact ⟨⟨_, hb⟩, got.kept head⟩

/-- Each call returns the context that its bucket has at the end. -/
theorem returned_eq_head (memory : Slot → Context P) (k : ℕ) (found : calls[k]? = some c)
    (reach : run Call.step (Contexts.init memory) calls = some m) :
    returned (Contexts.init memory) calls k = (m.cbuffer c.bucket).head := by
  obtain ⟨m₀, m₁', before, step, rest⟩ := exists_step_of_getElem found reach
  obtain ⟨m₀', before', serves⟩ := serves_run memory (calls.take k)
  obtain rfl := Option.some.inj (before.symm.trans before')
  obtain ⟨cp, m₁, result, got, serves₁⟩ := serves.step c
  rw [Call.step, result] at step
  obtain rfl := Option.some.inj step
  have head : (m.cbuffer c.bucket).head = some cp := head_kept serves₁ rest got.head
  rw [returned, found, Option.bind_some, before, Option.bind_some, result, head]
  rfl

/-- Two buckets never hold the same context. -/
theorem Serves.head_inj (h : Serves calls m) {k k' cp : Slot}
    (head : (m.cbuffer k).head = some cp) (head' : (m.cbuffer k').head = some cp) : k = k' := by
  obtain ⟨⟨src, fid⟩, -, rfl, srcEq, fidEq⟩ := h.origin k cp head
  obtain ⟨⟨src', fid'⟩, -, rfl, srcEq', fidEq'⟩ := h.origin k' cp head'
  obtain rfl : src = src' := srcEq.symm.trans srcEq'
  obtain rfl : fid = fid' := Fin.ext (fidEq.symm.trans fidEq')
  rfl

/-- Calls get the same context exactly when they share a bucket. -/
theorem returned_eq_iff (memory : Slot → Context P) {k k' : ℕ} {d : Call}
    (found : calls[k]? = some c) (found' : calls[k']? = some d) :
    returned (Contexts.init memory) calls k = returned (Contexts.init memory) calls k' ↔
      c.bucket = d.bucket := by
  obtain ⟨m, reach, serves⟩ := serves_run memory calls
  rw [returned_eq_head memory k found reach, returned_eq_head memory k' found' reach]
  constructor
  · intro same
    obtain ⟨cp, head⟩ := serves.known c (List.mem_of_getElem? found)
    exact serves.head_inj head (same ▸ head)
  · intro same
    rw [same]

/-- `get_context` serves its callers exactly when no two different pairs among
their calls share a bucket. -/
theorem getContext_faithful_iff (memory : Slot → Context P) (calls : List Call) :
    Faithful (Contexts.init memory) calls ↔
      ∀ c ∈ calls, ∀ d ∈ calls, c.bucket = d.bucket → c = d := by
  constructor
  · intro faithful c hc d hd share
    obtain ⟨k, found⟩ := List.mem_iff_getElem?.mp hc
    obtain ⟨k', found'⟩ := List.mem_iff_getElem?.mp hd
    exact (faithful.same k k' c d found found').mp ((returned_eq_iff memory found found').mpr share)
  · intro apart
    constructor
    · intro k c found
      obtain ⟨m, reach, serves⟩ := serves_run memory (calls.take k)
      obtain ⟨cp, m', result, got, serves'⟩ := serves.step c
      obtain ⟨d, hd, place, src, fid⟩ := serves'.origin _ cp got.head
      have asked : d ∈ calls := by
        obtain old | new := List.mem_append.mp hd
        · exact List.mem_of_mem_take old
        · exact (List.mem_singleton.mp new) ▸ List.mem_of_getElem? found
      obtain rfl := apart d asked c (List.mem_of_getElem? found) place
      exact ⟨m, cp, m', reach, result, src, fid⟩
    · intro k k' c d found found'
      rw [returned_eq_iff memory found found']
      exact ⟨apart c (List.mem_of_getElem? found) d (List.mem_of_getElem? found'),
        fun same => same ▸ rfl⟩
    · intro k k' c before found _
      obtain ⟨m, reach, serves⟩ := serves_run memory (calls.take k')
      have asked : c ∈ calls.take k' :=
        List.mem_of_getElem? ((List.getElem?_take_of_lt before).trans found)
      obtain ⟨cp, head⟩ := serves.known c asked
      obtain ⟨fl, indexed⟩ := serves.indexed
      exact ⟨m, cp, reach, indexed.getContext_of_head head⟩

/-- Sources 0 and 64 share a bucket, and source 64 gets the context of source 0. -/
theorem getContext_shared :
    ¬ Faithful (Contexts.init fun _ => (Context.zero : Context ℕ)) [⟨0, 0⟩, ⟨64, 0⟩] := by
  intro faithful
  have share : (⟨0, 0⟩ : Call).bucket = (⟨64, 0⟩ : Call).bucket := by decide
  have same := (faithful.same 0 1 _ _ rfl rfl).mp ((returned_eq_iff _ rfl rfl).mpr share)
  cases same

end Mftdma.Rle
