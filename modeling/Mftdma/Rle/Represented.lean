import Mftdma.Rle.Payload

/-!
# Where the fragment list of a burst ends

`new_frag` takes `last` for the end of the list, and an empty one for an empty list. `Sound`
says that it is right to do so for every payload, and that it then appends. The constructor
and `new_frag` keep this; `copy` keeps it for empty payloads only.
-/

namespace Mftdma.Rle

open Execution

universe u

variable {P : Type u}

namespace Memory

variable {m t : Memory P} {k : ℕ} {l : ℕ → List ℕ} {op : PayloadOp P}

/-- `last` is NULL exactly when `head` is, and otherwise the final node of the list. -/
structure Represents (m : Memory P) (k : ℕ) : Prop where
  null : (m.payload k).last = none ↔ (m.payload k).head = none
  final : ∀ a ∈ (m.payload k).last, ∃ l, Links m.next (m.payload k).head (l ++ [a])

/-- `new_frag` with the packet `p` puts one fragment behind those in the list `l`. -/
structure Appends (m : Memory P) (k : ℕ) (p : P) (l : List ℕ) : Prop where
  links : Links (m.newFrag k p).next ((m.newFrag k p).payload k).head (l ++ [m.nodes])
  frags : (l ++ [m.nodes]).map (m.newFrag k p).frag = l.map m.frag ++ [m.fragHdr p]

/-- Every payload is represented as it should be, and `new_frag` appends to its list. -/
def Sound (m : Memory P) : Prop :=
  ∀ k < m.payloads, m.Represents k ∧
    ∀ p l, Links m.next (m.payload k).head l → m.Appends k p l

/-- No payload with fragments is copied. -/
def CopiesEmpty (m : Memory P) (op : PayloadOp P) : Prop :=
  ∀ k, op = .copy k → k < m.payloads → (m.payload k).head = none

theorem newFrag_frags {l : List ℕ} (h : m.Threads k l) (p : P) :
    (l ++ [m.nodes]).map (m.newFrag k p).frag = l.map m.frag ++ [m.fragHdr p] := by
  have frag : (m.newFrag k p).frag = (m.linkHdr (m.fragHdr p) (m.payload k).last).frag := by
    rw [newFrag_eq]
    rfl
  have old : l.map (m.newFrag k p).frag = l.map m.frag :=
    List.map_congr_left fun a ha => by rw [frag, linkHdr_frag (h.made a ha)]
  rw [List.map_append, old, List.map_singleton, frag, Memory.frag, linkHdr_node_new h.last_lt]
  rfl

theorem reached_eq {l : List ℕ} (last : (m.payload k).last = l.getLast?) : m.reached k l = l := by
  rw [reached]
  split_ifs with none
  · exact (List.getLast?_eq_none_iff.mp (last.symm.trans none)).symm
  · rfl

theorem Threads.appends {l : List ℕ} (h : m.Threads k l)
    (last : (m.payload k).last = l.getLast?) (p : P) : m.Appends k p l := by
  have links := (h.newFrag p).links
  rw [reached_eq last] at links
  exact ⟨links, newFrag_frags h p⟩

/-- `new_frag` for each packet in turn. -/
def fill (m : Memory P) (k : ℕ) (ps : List P) : Memory P := ps.foldl (fun m p => m.newFrag k p) m

/-- The packets of the new fragments follow those that the payload had. -/
theorem Threads.fill {l : List ℕ} (h : m.Threads k l) (last : (m.payload k).last = l.getLast?)
    (ps : List P) : ∃ l', (m.fill k ps).Threads k l' ∧
      (l'.map (m.fill k ps).frag).map FragHdr.alpdu = (l.map m.frag).map FragHdr.alpdu ++ ps := by
  induction ps generalizing m l with
  | nil => exact ⟨l, h, (List.append_nil _).symm⟩
  | cons p ps ih =>
      have own := h.newFrag p
      rw [reached_eq last] at own
      obtain ⟨l', threads, packets⟩ := ih own (by rw [newFrag_payload_self, List.getLast?_concat])
      refine ⟨l', threads, packets.trans ?_⟩
      rw [newFrag_frags h p, List.map_append, List.append_assoc]
      rfl

/-- The payload of a burst is the list of its packets, in the order in which they are put in. -/
theorem Threaded.burst (h : m.Threaded l) (ps : List P) :
    ∃ l', (m.construct.fill m.payloads ps).Threads m.payloads l' ∧
      (l'.map (m.construct.fill m.payloads ps).frag).map FragHdr.alpdu = ps := by
  have own := h.construct.each m.payloads (Nat.lt_succ_self _)
  rw [Function.update_self] at own
  exact own.fill (congrArg RlePayload.last (construct_payload_self m)) ps

/-- With lists as they are, it all comes down to `last`. -/
theorem Threaded.sound_iff (h : m.Threaded l) :
    m.Sound ↔ ∀ k < m.payloads, (m.payload k).last = (l k).getLast? := by
  refine forall₂_congr fun k hk => ?_
  have own := h.each k hk
  have head : (m.payload k).head = (l k).head? := own.links.head?_eq
  constructor
  · rintro ⟨represents, -⟩
    cases last : (m.payload k).last with
    | none =>
        have empty : (l k).head? = none := head ▸ represents.null.mp last
        rw [List.head?_eq_none_iff.mp empty]
        rfl
    | some a => exact (own.last a last).symm
  · intro last
    refine ⟨⟨?_, fun a ha => ?_⟩, fun p l' links => ?_⟩
    · rw [last, head, List.getLast?_eq_none_iff, List.head?_eq_none_iff]
    · obtain ⟨front, split⟩ := List.getLast?_eq_some_iff.mp (last.symm.trans ha)
      exact ⟨front, split ▸ own.links⟩
    · rw [links.unique own.links]
      exact own.appends last p

/-- When one payload gets a list, the others being as they were, it comes down to its `last`. -/
theorem Sound.update_iff {new : List ℕ} (sound : m.Sound) (h : m.Threaded l)
    (h' : t.Threaded (Function.update l k new)) (hk : k < t.payloads)
    (others : ∀ j < t.payloads, j ≠ k → j < m.payloads ∧ t.payload j = m.payload j) :
    t.Sound ↔ (t.payload k).last = new.getLast? := by
  rw [h'.sound_iff]
  constructor
  · intro all
    have own := all k hk
    rwa [Function.update_self] at own
  · intro own j hj
    by_cases same : j = k
    · rw [same, Function.update_self]
      exact own
    · obtain ⟨before, payload⟩ := others j hj same
      rw [Function.update_of_ne same, payload]
      exact h.sound_iff.mp sound j before

/-- What one operation does to sound payloads. -/
theorem sound_step_iff (h : m.Threaded l) (sound : m.Sound) (step : m.step op = some t) :
    t.Sound ↔ m.CopiesEmpty op := by
  have before : ∀ {j}, j < m.payloads + 1 → j ≠ m.payloads → j < m.payloads := fun hj other =>
    Nat.lt_of_le_of_ne (Nat.le_of_lt_succ hj) other
  cases op with
  | construct =>
      obtain rfl := Option.some.inj step
      refine iff_of_true ?_ fun _ none => by cases none
      apply (sound.update_iff h h.construct (Nat.lt_succ_self _) fun j hj other =>
        ⟨before hj other, Function.update_of_ne other _ _⟩).mpr
      exact congrArg RlePayload.last (construct_payload_self m)
  | newFrag k p =>
      obtain ⟨hk, same⟩ := Option.ite_none_right_eq_some.mp step
      obtain rfl := Option.some.inj same
      refine iff_of_true ?_ fun _ none => by cases none
      apply (sound.update_iff h (h.newFrag hk p) (by rwa [newFrag_payloads]) fun j hj other =>
        ⟨newFrag_payloads m k p ▸ hj, newFrag_payload_of_ne p other⟩).mpr
      rw [newFrag_payload_self, List.getLast?_concat]
  | copy k =>
      obtain ⟨hk, returned⟩ := Option.ite_none_right_eq_some.mp step
      obtain ⟨_, found, copied⟩ := (h.each k hk).copy
      obtain rfl := Option.some.inj (found.symm.trans returned)
      rw [sound.update_iff h (h.copy copied) (copied.payloads ▸ Nat.lt_succ_self _)
        fun j hj other => ⟨before (copied.payloads ▸ hj) other, copied.payload j other⟩]
      have empty : (m.copies (l k)).getLast? = none ↔ (m.payload k).head = none := by
        rw [List.getLast?_eq_none_iff, copies, List.range'_eq_nil_iff, List.length_eq_zero_iff,
          (h.each k hk).links.head?_eq, List.head?_eq_none_iff]
      rw [copied.last, eq_comm, empty]
      exact ⟨fun none _ same _ => by cases same; exact none, fun all => all k rfl hk⟩

/-- Whatever operations are made, every payload is represented as it should be exactly as
long as none that has fragments is copied. -/
theorem represented_iff (node : ℕ → FragHdr P) (payload : ℕ → RlePayload)
    (ops : List (PayloadOp P)) : Throughout step Sound (start node payload) ops ↔
      Along step CopiesEmpty (start node payload) ops := by
  refine throughout_iff_along_of_stuck (W := fun m => ∃ l, m.Threaded l)
    ⟨_, threaded_start node payload⟩ (fun _ none => absurd none (Nat.not_lt_zero _))
    (fun _ _ _ ⟨_, h⟩ step => h.step step)
    (fun _ _ _ ⟨_, h⟩ sound step => sound_step_iff h sound step) ?_
  rintro m op ⟨l, h⟩ stuck k rfl hk
  obtain ⟨t, returned, -⟩ := (h.each k hk).copy
  rw [step, if_pos hk, returned] at stuck
  cases stuck

/-- `new_frag` on a copy forgets the fragments that were copied. -/
theorem Threaded.newFrag_copy (h : m.Threaded l) (copied : m.Copy (l k) t) (p : P) :
    Links (t.newFrag m.payloads p).next ((t.newFrag m.payloads p).payload m.payloads).head
      [t.nodes] := by
  have own := (h.copy copied).each m.payloads (copied.payloads ▸ Nat.lt_succ_self _)
  have links := (own.newFrag p).links
  rwa [reached, if_pos copied.last] at links

/-- Memory that is all zero. -/
def zero : Memory ℕ := start (fun _ => ⟨0, 0, 0, 0, 0, none⟩) fun _ => ⟨none, none⟩

/-- A payload gets a fragment and is copied: the copy has the fragment, but no `last`. -/
theorem copied_not_sound : ¬ ∀ ops t, run step zero ops = some t → t.Sound := by
  intro all
  have copied : (run step zero [.construct, .newFrag 0 7, .copy 0]).map (fun t =>
      (t.payloads, (t.payload 1).head, (t.payload 1).last)) = some (2, some 1, none) := by
    decide
  obtain ⟨t, reach, pointers⟩ := Option.map_eq_some_iff.mp copied
  simp only [Prod.mk.injEq] at pointers
  obtain ⟨made, head, last⟩ := pointers
  obtain ⟨represents, -⟩ := all _ t reach 1 (made ▸ Nat.one_lt_two)
  rw [represents.null.mp last] at head
  cases head

end Memory

end Mftdma.Rle
