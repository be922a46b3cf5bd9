import Mathlib.Algebra.BigOperators.Group.List.Basic
import Mathlib.Data.List.TakeWhile
import Mathlib.Tactic.Abel
import Mftdma.Rle.Receiver
import Mftdma.Rle.Sender

/-!
# Reassembly when bursts are lost

A lost burst takes all its fragments with it. The receiver accepts a last
fragment by the number it expects and by the length it has counted, and both can
be right although fragments are missing: a context keeps its length when a packet
is discarded, so bytes of an earlier packet can stand in for the lost ones.

What the context has counted is what it held when the first fragment of the
packet came, which is zero if that was its true first fragment, and what came
since. A packet is therefore accepted with fragments missing exactly when it has
the number expected and the bytes held amount to the bytes lost.
-/

namespace Mftdma.Rle

open Execution

/-- The fragments a sender emits, each with the mark that its burst arrives. The
flag of an event says that the burst is lost. -/
def Sender.transmit : Sender → List (SenderEvent × Bool) → List (Frag × Bool)
  | _, [] => []
  | s, (e, lost) :: es => (s.step e).2.map (fun fh => (fh, !lost)) ++ transmit (s.step e).1 es

/-- The fragments that arrive. -/
def received (fs : List (Frag × Bool)) : List Frag := (fs.filter fun g => g.2).map Prod.fst

/-- Bytes sent of a packet. -/
def sentLength (uid : ℕ) (fs : List (Frag × Bool)) : BitVec 32 :=
  ((fs.filter fun g => g.1.alpdu.uid = uid).map fun g => g.1.length).sum

/-- Bytes that arrived of a packet. -/
def receivedLength (uid : ℕ) (fs : List (Frag × Bool)) : BitVec 32 :=
  sentLength uid (fs.filter fun g => g.2)

/-- Bytes lost of a packet. -/
def lostLength (uid : ℕ) (fs : List (Frag × Bool)) : BitVec 32 :=
  sentLength uid (fs.filter fun g => !g.2)

section stream

variable (index : ℤ) (src : ℕ) (memory : Slot → Context AlPdu)

/-- The receiver after the fragments `got`. -/
def after (got : List Frag) : Option Receiver :=
  run (Receiver.recvFrag index src) (Receiver.init memory) got

/-- What the context held when the first of the fragments `got` of a packet came,
or holds now if there are none: nothing counts if it was the true first one. -/
def held (uid : ℕ) (fid : Fin 8) (got : List Frag) : Option (BitVec 32) :=
  if ∃ g ∈ got, g.alpdu.uid = uid ∧ g.startEnd = 2 then some 0
  else (after index src memory (got.takeWhile fun g => g.alpdu.uid ≠ uid)).bind fun r =>
    (r.table.look src fid).map Buffer.len

/-- A last fragment for this station arrives at the buffer `b` after `xs`. -/
structure LastArrives (fs xs : List (Frag × Bool)) (fh : Frag) (b : Buffer AlPdu) : Prop where
  split : ∃ ys, fs = xs ++ (fh, true) :: ys
  last : fh.startEnd = 1
  own : fh.alpdu.macDA = index
  buffer : ∃ r, after index src memory (received xs) = some r ∧
    r.table.look src fh.fragId = some b

/-- Whatever is accepted is the packet of the fragment, with nothing missing. -/
def Safe (fs : List (Frag × Bool)) : Prop :=
  ∀ xs fh b, LastArrives index src memory fs xs fh b → b.Accepts fh →
    b.pkt = some fh.alpdu ∧ ∀ g ∈ xs, g.1.alpdu.uid = fh.alpdu.uid → g.2 = true

/-- No packet with fragments missing comes to its last one with the number that is
expected and as many bytes held as were lost. -/
def Unmasked (fs : List (Frag × Bool)) : Prop :=
  ∀ xs fh b, LastArrives index src memory fs xs fh b → b.expSn = fh.seqno →
    (∃ g ∈ xs, g.1.alpdu.uid = fh.alpdu.uid ∧ g.2 = false) →
      held index src memory fh.alpdu.uid fh.fragId (received xs) ≠
        some (lostLength fh.alpdu.uid xs)

end stream

section lists

variable {uid : ℕ} {fs xs ys : List (Frag × Bool)} {fh : Frag} {ok : Bool}

theorem transmit_map (s : Sender) (es : List (SenderEvent × Bool)) :
    (s.transmit es).map Prod.fst = (s.bursts (es.map Prod.fst)).flatten := by
  induction es generalizing s with
  | nil => rfl
  | cons e es ih =>
      obtain ⟨e, lost⟩ := e
      simp [Sender.transmit, Sender.bursts, ih, Function.comp_def]

@[simp] theorem received_append : received (xs ++ ys) = received xs ++ received ys := by
  simp [received]

@[simp] theorem received_singleton : received [(fh, ok)] = if ok then [fh] else [] := by
  cases ok <;> rfl

theorem mem_received {g : Frag} : g ∈ received fs ↔ (g, true) ∈ fs := by
  simp [received]

@[simp] theorem sentLength_append :
    sentLength uid (xs ++ ys) = sentLength uid xs + sentLength uid ys := by
  simp [sentLength]

@[simp] theorem receivedLength_append :
    receivedLength uid (xs ++ ys) = receivedLength uid xs + receivedLength uid ys := by
  simp [receivedLength]

theorem sentLength_singleton :
    sentLength uid [(fh, ok)] = if fh.alpdu.uid = uid then fh.length else 0 := by
  by_cases own : fh.alpdu.uid = uid <;> simp [sentLength, own]

theorem receivedLength_singleton :
    receivedLength uid [(fh, ok)] = if fh.alpdu.uid = uid ∧ ok then fh.length else 0 := by
  cases ok
  · simp [receivedLength, sentLength]
  · simp [receivedLength, sentLength_singleton]

/-- A packet that has not been sent has no bytes. -/
theorem sentLength_eq_zero (h : ∀ g ∈ fs, g.1.alpdu.uid ≠ uid) : sentLength uid fs = 0 := by
  have none : fs.filter (fun g => g.1.alpdu.uid = uid) = [] :=
    List.filter_eq_nil_iff.mpr fun g hg => by simpa using h g hg
  rw [sentLength, none]
  rfl

theorem receivedLength_eq_zero (h : ∀ g ∈ received fs, g.alpdu.uid ≠ uid) :
    receivedLength uid fs = 0 := by
  apply sentLength_eq_zero
  intro g hg
  obtain ⟨mem, ok⟩ := List.mem_filter.mp hg
  obtain ⟨fh, ok'⟩ := g
  obtain rfl : ok' = true := ok
  exact h fh (mem_received.mpr mem)

/-- What is sent arrives or is lost. -/
theorem received_add_lost (uid : ℕ) (fs : List (Frag × Bool)) :
    receivedLength uid fs + lostLength uid fs = sentLength uid fs := by
  rw [receivedLength, lostLength, ← sentLength_append]
  exact (((List.filter_append_perm _ fs).filter _).map _).sum_eq

end lists

section tracking

variable {index : ℤ} {src : ℕ} {memory : Slot → Context AlPdu} {xs : List (Frag × Bool)}
  {fh : Frag} {ok : Bool} {w w' : Wire} {r r' : Receiver} {a : AlPdu} {rest : BitVec 32}
  {f : Fin 8} {uid : ℕ} {got : List Frag}

/-- Later fragments of a packet do not change what was held. -/
theorem held_snoc (index : ℤ) (src : ℕ) (memory : Slot → Context AlPdu) (f : Fin 8)
    (got : List Frag) (own : fh.alpdu.uid = uid) (later : fh.startEnd ≠ 2) :
    held index src memory uid f (got ++ [fh]) = held index src memory uid f got := by
  have first : (∃ g ∈ got ++ [fh], g.alpdu.uid = uid ∧ g.startEnd = 2) ↔
      ∃ g ∈ got, g.alpdu.uid = uid ∧ g.startEnd = 2 := by
    simpa [or_and_right, exists_or] using fun _ se => absurd se later
  have before : (got ++ [fh]).takeWhile (fun g => g.alpdu.uid ≠ uid) =
      got.takeWhile fun g => g.alpdu.uid ≠ uid := by
    rw [List.takeWhile_append]
    split
    · next whole =>
        rw [(List.takeWhile_prefix _).eq_of_length whole]
        simp [own]
    · rfl
  rw [held, held, if_congr first rfl rfl, before]

/-- Fragments of other packets do not either, once one of the packet has arrived. -/
theorem held_append (arrived : ∃ g ∈ got, g.alpdu.uid = uid) {new : List Frag}
    (foreign : ∀ g ∈ new, g.alpdu.uid ≠ uid) :
    held index src memory uid f (got ++ new) = held index src memory uid f got := by
  obtain ⟨g, mem, same⟩ := arrived
  have first : (∃ g ∈ got ++ new, g.alpdu.uid = uid ∧ g.startEnd = 2) ↔
      ∃ g ∈ got, g.alpdu.uid = uid ∧ g.startEnd = 2 := by
    constructor
    · rintro ⟨g', mem', own, se⟩
      obtain old | late := List.mem_append.mp mem'
      · exact ⟨g', old, own, se⟩
      · exact absurd own (foreign g' late)
    · rintro ⟨g', mem', own⟩
      exact ⟨g', List.mem_append_left _ mem', own⟩
  have before : (got ++ new).takeWhile (fun g => g.alpdu.uid ≠ uid) =
      got.takeWhile fun g => g.alpdu.uid ≠ uid := by
    rw [List.takeWhile_append, if_neg]
    intro whole
    have all := (List.takeWhile_prefix _).eq_of_length whole
    simpa [same] using List.takeWhile_eq_self_iff.mp all g mem
  rw [held, held, if_congr first rfl rfl, before]

/-- When none of its fragments has arrived, what is held is in the buffer now. -/
theorem held_of_none (none : ∀ g ∈ got, g.alpdu.uid ≠ uid) {b : Buffer AlPdu}
    (reach : after index src memory got = some r) (found : r.table.look src f = some b) :
    held index src memory uid f got = some b.len := by
  have first : ¬ ∃ g ∈ got, g.alpdu.uid = uid ∧ g.startEnd = 2 := by
    rintro ⟨g, mem, own, -⟩
    exact none g mem own
  have all : got.takeWhile (fun g => g.alpdu.uid ≠ uid) = got :=
    List.takeWhile_eq_self_iff.mpr fun g hg => by simpa using none g hg
  rw [held, if_neg first, all, reach, Option.bind_some, found]
  rfl

/-- A packet of the priority `f` that is being sent, and the buffer it goes to. -/
structure Tracked (index : ℤ) (src : ℕ) (memory : Slot → Context AlPdu) (xs : List (Frag × Bool))
    (r : Receiver) (f : Fin 8) (a : AlPdu) (rest : BitVec 32) : Prop where
  first : ∃ g ∈ xs, g.1.alpdu.uid = a.uid ∧ g.1.startEnd = 2
  all : ∀ g ∈ xs, g.1.alpdu.uid = a.uid → g.1.fragId = f
  sum : sentLength a.uid xs + rest = a.totalLength
  buffer : a.macDA = index → (∃ g ∈ received xs, g.alpdu.uid = a.uid) → ∃ b base,
    r.table.lane src f = some b ∧
      held index src memory a.uid f (received xs) = some base ∧
      b.len = base + receivedLength a.uid xs ∧
      ((∃ g ∈ received xs, g.alpdu.uid = a.uid ∧ g.startEnd = 2) → b.pkt = some a)

/-- Sender and receiver after the fragments `xs`. -/
structure Tracks (index : ℤ) (src : ℕ) (memory : Slot → Context AlPdu) (xs : List (Frag × Bool))
    (w : Wire) (r : Receiver) : Prop where
  indexed : ∃ fl, r.table.Indexed fl
  seen : ∀ g ∈ xs, g.1.alpdu.uid ∈ w.seen
  lane : ∀ f a rest, w.opened f = some (a, rest) → Tracked index src memory xs r f a rest

theorem tracks_init (index : ℤ) (src : ℕ) (memory : Slot → Context AlPdu) :
    Tracks index src memory [] Wire.idle (Receiver.init memory) where
  indexed := Contexts.indexed_init memory
  seen := by simp
  lane f a rest opened := by cases opened

/-- A packet keeps its account while a fragment of another one passes. -/
theorem Tracked.other (h : Tracked index src memory xs r f a rest)
    (foreign : fh.alpdu.uid ≠ a.uid) (same : r'.table.lane src f = r.table.lane src f) :
    Tracked index src memory (xs ++ [(fh, ok)]) r' f a rest := by
  have quiet : ∀ g ∈ received [(fh, ok)], g.alpdu.uid ≠ a.uid := by
    cases ok <;> simp [foreign]
  have arrived : ∀ P : Frag → Prop, (∃ g ∈ received (xs ++ [(fh, ok)]), g.alpdu.uid = a.uid ∧ P g) →
      ∃ g ∈ received xs, g.alpdu.uid = a.uid ∧ P g := by
    rintro P ⟨g, mem, own, hg⟩
    rw [received_append] at mem
    obtain old | new := List.mem_append.mp mem
    · exact ⟨g, old, own, hg⟩
    · exact absurd own (quiet g new)
  obtain ⟨g, mem, own, se⟩ := h.first
  refine ⟨⟨g, List.mem_append_left _ mem, own, se⟩, ?_, ?_, ?_⟩
  · intro g mem own
    obtain old | new := List.mem_append.mp mem
    · exact h.all g old own
    · obtain rfl := List.mem_singleton.mp new
      exact absurd own foreign
  · rw [sentLength_append, sentLength_singleton, if_neg foreign, add_zero]
    exact h.sum
  · intro here got
    have before : ∃ g ∈ received xs, g.alpdu.uid = a.uid := by
      obtain ⟨g, mem, own⟩ := got
      obtain ⟨g, mem, own, -⟩ := arrived (fun _ => True) ⟨g, mem, own, trivial⟩
      exact ⟨g, mem, own⟩
    obtain ⟨b, base, lane, heldEq, len, pkt⟩ := h.buffer here before
    refine ⟨b, base, same.trans lane, ?_, ?_, fun first => pkt (arrived _ first)⟩
    · rw [received_append, held_append before quiet]
      exact heldEq
    · rw [receivedLength_append, receivedLength_singleton,
        if_neg fun own => foreign own.1, add_zero]
      exact len

/-- The account of a packet is opened by its first fragment. -/
theorem Tracked.start (new : ∀ g ∈ xs, g.1.alpdu.uid ≠ fh.alpdu.uid) (se : fh.startEnd = 2)
    (lane : ok = true → fh.alpdu.macDA = index → ∃ b : Buffer AlPdu,
      r'.table.lane src fh.fragId = some (b.add fh)) :
    Tracked index src memory (xs ++ [(fh, ok)]) r' fh.fragId fh.alpdu
      (fh.alpdu.totalLength - fh.length) := by
  have unheard : ∀ g ∈ received xs, g.alpdu.uid ≠ fh.alpdu.uid := fun g hg =>
    new _ (mem_received.mp hg)
  refine ⟨⟨(fh, ok), by simp, rfl, se⟩, ?_, ?_, ?_⟩
  · intro g mem own
    obtain old | last := List.mem_append.mp mem
    · exact absurd own (new g old)
    · rw [List.mem_singleton.mp last]
  · rw [sentLength_append, sentLength_eq_zero new, sentLength_singleton, if_pos rfl]
    abel
  · rintro own ⟨g, mem, same⟩
    rw [received_append] at mem
    obtain old | last := List.mem_append.mp mem
    · exact absurd same (unheard g old)
    cases ok with
    | false => simp at last
    | true =>
        obtain ⟨b, lane⟩ := lane rfl own
        refine ⟨b.add fh, 0, lane, ?_, ?_, fun _ => ?_⟩
        · exact if_pos ⟨fh, by simp, rfl, se⟩
        · rw [receivedLength_append, receivedLength_eq_zero unheard, receivedLength_singleton]
          simp [Buffer.add, Buffer.start, se]
        · simp [Buffer.add, Buffer.start, se]

/-- The account of a packet, read in the buffer that the next fragment finds. -/
theorem Tracked.account {b : Buffer AlPdu} (h : Tracked index src memory xs r f a rest)
    (reach : after index src memory (received xs) = some r) (own : a.macDA = index)
    (found : r.table.look src f = some b)
    (used : ∀ d, r.table.lane src f = some d → b = d) :
    ∃ base, held index src memory a.uid f (received xs) = some base ∧
      b.len = base + receivedLength a.uid xs ∧
        ((∃ g ∈ received xs, g.alpdu.uid = a.uid ∧ g.startEnd = 2) → b.pkt = some a) := by
  by_cases some : ∃ g ∈ received xs, g.alpdu.uid = a.uid
  · obtain ⟨d, base, lane, heldEq, len, pkt⟩ := h.buffer own some
    obtain rfl := used d lane
    exact ⟨base, heldEq, len, pkt⟩
  · have none : ∀ g ∈ received xs, g.alpdu.uid ≠ a.uid := fun g mem same => some ⟨g, mem, same⟩
    refine ⟨b.len, held_of_none none reach found, ?_, ?_⟩
    · rw [receivedLength_eq_zero none, add_zero]
    · rintro ⟨g, mem, same, -⟩
      exact absurd same (none g mem)

/-- A fragment in the middle is entered into the account of its packet. -/
theorem Tracked.middle (h : Tracked index src memory xs r fh.fragId fh.alpdu rest)
    (se : fh.startEnd = 0) (reach : after index src memory (received xs) = some r)
    (lost : ok = false → r' = r)
    (lane : ok = true → fh.alpdu.macDA = index → ∃ b, r.table.look src fh.fragId = some b ∧
      (∀ d, r.table.lane src fh.fragId = some d → b = d) ∧
      r'.table.lane src fh.fragId = some (b.add fh)) :
    Tracked index src memory (xs ++ [(fh, ok)]) r' fh.fragId fh.alpdu (rest - fh.length) := by
  obtain ⟨g₀, mem₀, own₀, se₀⟩ := h.first
  refine ⟨⟨g₀, List.mem_append_left _ mem₀, own₀, se₀⟩, ?_, ?_, ?_⟩
  · intro g mem own
    obtain old | last := List.mem_append.mp mem
    · exact h.all g old own
    · rw [List.mem_singleton.mp last]
  · rw [sentLength_append, sentLength_singleton, if_pos rfl, ← h.sum]
    abel
  · intro own got
    cases ok with
    | false =>
        obtain rfl := lost rfl
        simpa [receivedLength_singleton] using h.buffer own (by simpa using got)
    | true =>
        obtain ⟨b, found, used, lane⟩ := lane rfl own
        have add : (b.add fh).len = b.len + fh.length := by simp [Buffer.add, Buffer.start, se]
        have later : fh.startEnd ≠ 2 := by simp [se]
        have sameHeld := held_snoc index src memory fh.fragId (received xs) rfl later
        have firsts : (∃ g ∈ received (xs ++ [(fh, true)]), g.alpdu.uid = fh.alpdu.uid ∧
            g.startEnd = 2) → ∃ g ∈ received xs, g.alpdu.uid = fh.alpdu.uid ∧ g.startEnd = 2 := by
          rintro ⟨g, mem, same, first⟩
          rw [received_append] at mem
          obtain old | last := List.mem_append.mp mem
          · exact ⟨g, old, same, first⟩
          · rw [received_singleton, if_pos rfl, List.mem_singleton] at last
            exact absurd first (last ▸ later)
        -- what was held, counted from the buffer before this fragment
        have before : ∃ base, held index src memory fh.alpdu.uid fh.fragId (received xs) =
            some base ∧ b.len = base + receivedLength fh.alpdu.uid xs ∧
              ((∃ g ∈ received xs, g.alpdu.uid = fh.alpdu.uid ∧ g.startEnd = 2) →
                b.pkt = some fh.alpdu) :=
          h.account reach own found used
        obtain ⟨base, heldEq, len, pkt⟩ := before
        refine ⟨b.add fh, base, lane, ?_, ?_, fun first => ?_⟩
        · rw [received_append, received_singleton, if_pos rfl, sameHeld, heldEq]
        · rw [add, len, receivedLength_append, receivedLength_singleton, if_pos ⟨rfl, rfl⟩]
          abel
        · simp [Buffer.add, Buffer.start, se, pkt (firsts first)]

theorem Tracks.mem_seen (h : Tracks index src memory xs w r)
    (opened : w.opened f = some (a, rest)) : a.uid ∈ w.seen := by
  obtain ⟨g, mem, own, -⟩ := (h.lane f a rest opened).first
  exact own ▸ h.seen g mem

/-- A fragment belongs to none of the packets that are being sent in the other
priorities. -/
theorem Tracks.foreign (h : Tracks index src memory xs w r) (sends : w.Sends fh w')
    (opened : w.opened f = some (a, rest)) (other : f ≠ fh.fragId) : fh.alpdu.uid ≠ a.uid := by
  intro same
  have busy : ∀ rest', w.opened fh.fragId ≠ some (fh.alpdu, rest') := by
    intro rest' opened'
    obtain ⟨x, mem, own, -⟩ := (h.lane _ _ _ opened').first
    have here := (h.lane _ _ _ opened').all x mem own
    have there := (h.lane f a rest opened).all x mem (own.trans same)
    exact other (there.symm.trans here)
  cases sends with
  | whole se closed new => exact new (same ▸ h.mem_seen opened)
  | first se closed new => exact new (same ▸ h.mem_seen opened)
  | middle rest' se opened' => exact busy rest' opened'
  | last se opened' seqno => exact busy fh.length opened'

theorem Tracks.seen_step (h : Tracks index src memory xs w r) (sends : w.Sends fh w') :
    ∀ g ∈ xs ++ [(fh, ok)], g.1.alpdu.uid ∈ w'.seen := by
  intro g mem
  obtain old | last := List.mem_append.mp mem
  · have before := h.seen g old
    cases sends with
    | whole => exact List.mem_cons_of_mem _ before
    | first => exact List.mem_cons_of_mem _ before
    | middle => exact before
    | last => exact before
  · rw [List.mem_singleton.mp last]
    cases sends with
    | whole => exact List.mem_cons_self
    | first => exact List.mem_cons_self
    | middle rest se opened => exact h.mem_seen opened
    | last se opened => exact h.mem_seen opened

/-- Every fragment that is sent keeps the accounts, whether it arrives or not. -/
theorem Tracks.step (h : Tracks index src memory xs w r) (sends : w.Sends fh w')
    (reach : after index src memory (received xs) = some r)
    (step : if ok then r.recvFrag index src fh = some r' else r' = r) :
    Tracks index src memory (xs ++ [(fh, ok)]) w' r' := by
  obtain ⟨fl, indexed⟩ := h.indexed
  have frame : (∃ fl, r'.table.Indexed fl) ∧
      ∀ g ≠ fh.fragId, r'.table.lane src g = r.table.lane src g := by
    cases ok with
    | false =>
        obtain rfl : r' = r := step
        exact ⟨⟨fl, indexed⟩, fun _ _ => rfl⟩
    | true => exact Receiver.recvFrag_frame indexed step
  have lost : ok = false → r' = r := by
    rintro rfl
    exact step
  have add : fh.startEnd &&& 1 = 0 → ok = true → fh.alpdu.macDA = index →
      ∃ b, r.table.look src fh.fragId = some b ∧
        (∀ d, r.table.lane src fh.fragId = some d → b = d) ∧
        r'.table.lane src fh.fragId = some (b.add fh) := by
    rintro open_ rfl own
    obtain ⟨b, found, used, lane, -⟩ := Receiver.recvFrag_add indexed own open_ step
    exact ⟨b, found, used, lane⟩
  refine ⟨frame.1, h.seen_step sends, fun f a rest opened => ?_⟩
  by_cases here : f = fh.fragId
  · subst here
    cases sends with
    | whole se closed new =>
        rw [show w.opened fh.fragId = none from closed] at opened
        cases opened
    | first se closed new =>
        simp only [Function.update_self] at opened
        cases opened
        refine .start (fun g mem same => new (same ▸ h.seen g mem)) se fun arrives own => ?_
        obtain ⟨b, -, -, lane⟩ := add (by simp [se]) arrives own
        exact ⟨b, lane⟩
    | middle rest₀ se opened₀ =>
        simp only [Function.update_self] at opened
        cases opened
        exact (h.lane _ _ _ opened₀).middle se reach lost (add (by simp [se]))
    | last se opened₀ seqno =>
        simp only [Function.update_self] at opened
        cases opened
  · rw [(sends.other here).1] at opened
    exact (h.lane f a rest opened).other (h.foreign sends opened here) (frame.2 f here)

/-- The accounts hold after every stream, as long as the receiver runs. -/
theorem tracks_run (legal : Legal (xs.map Prod.fst) w)
    (reach : after index src memory (received xs) = some r) : Tracks index src memory xs w r := by
  induction xs using List.reverseRecOn generalizing w r with
  | nil =>
      obtain rfl := Option.some.inj reach
      cases legal
      exact tracks_init index src memory
  | append_singleton xs g ih =>
      obtain ⟨fh, ok⟩ := g
      rw [List.map_append, List.map_singleton] at legal
      obtain ⟨w₀, legal₀, sends⟩ := legal_snoc_iff.mp legal
      cases ok with
      | false =>
          have same : received (xs ++ [(fh, false)]) = received xs := by simp
          rw [same] at reach
          exact (ih legal₀ reach).step sends reach rfl
      | true =>
          have snoc : received (xs ++ [(fh, true)]) = received xs ++ [fh] := by simp
          rw [after, snoc] at reach
          obtain ⟨r₀, reach₀, step⟩ := run_snoc_eq_some.mp reach
          exact (ih legal₀ reach₀).step sends reach₀ step

/-- The checks at a last fragment compare what was held with what is lost. -/
theorem Tracked.accepts_iff {b : Buffer AlPdu} {base : BitVec 32}
    (h : Tracked index src memory xs r fh.fragId fh.alpdu fh.length) (last : fh.startEnd = 1)
    (len : b.len = base + receivedLength fh.alpdu.uid xs) :
    b.Accepts fh ↔ base = lostLength fh.alpdu.uid xs ∧ b.expSn = fh.seqno := by
  have total : fh.alpdu.totalLength =
      receivedLength fh.alpdu.uid xs + lostLength fh.alpdu.uid xs + fh.length := by
    rw [received_add_lost, h.sum]
  have counted : (b.add fh).len = base + receivedLength fh.alpdu.uid xs + fh.length := by
    simp [Buffer.add, Buffer.start, last, len]
  have number : (b.add fh).expSn = b.expSn := by simp [Buffer.add, Buffer.start, last]
  rw [Buffer.Accepts, counted, number, total, add_left_inj, add_comm base, add_right_inj]

end tracking

/-- At one last fragment: what is accepted is complete exactly when what is held
does not make up for what is lost. -/
private theorem safe_iff_unmasked {index : ℤ} {src : ℕ} {memory : Slot → Context AlPdu}
    {xs : List (Frag × Bool)} {fh : Frag} {b : Buffer AlPdu} {w : Wire} {r : Receiver}
    (tracks : Tracks index src memory xs w r)
    (reach : after index src memory (received xs) = some r)
    (found : r.table.look src fh.fragId = some b)
    (opened : w.opened fh.fragId = some (fh.alpdu, fh.length)) (last : fh.startEnd = 1)
    (own : fh.alpdu.macDA = index) :
    (b.Accepts fh → b.pkt = some fh.alpdu ∧
        ∀ g ∈ xs, g.1.alpdu.uid = fh.alpdu.uid → g.2 = true) ↔
      (b.expSn = fh.seqno → (∃ g ∈ xs, g.1.alpdu.uid = fh.alpdu.uid ∧ g.2 = false) →
        held index src memory fh.alpdu.uid fh.fragId (received xs) ≠
          some (lostLength fh.alpdu.uid xs)) := by
  obtain ⟨fl, indexed⟩ := tracks.indexed
  obtain ⟨b', found', used, -⟩ := indexed.look src fh.fragId
  obtain rfl := Option.some.inj (found.symm.trans found')
  have tracked := tracks.lane _ _ _ opened
  obtain ⟨base, heldEq, len, pkt⟩ := tracked.account reach own found used
  by_cases complete : ∀ g ∈ xs, g.1.alpdu.uid = fh.alpdu.uid → g.2 = true
  · have whole : b.pkt = some fh.alpdu := by
      obtain ⟨g, mem, same, first⟩ := tracked.first
      obtain ⟨g, ok⟩ := g
      obtain rfl : ok = true := complete _ mem same
      exact pkt ⟨g, mem_received.mpr mem, same, first⟩
    refine ⟨fun _ _ ⟨g, mem, same, lost⟩ => ?_, fun _ _ => ⟨whole, complete⟩⟩
    rw [complete g mem same] at lost
    cases lost
  · have missing : ∃ g ∈ xs, g.1.alpdu.uid = fh.alpdu.uid ∧ g.2 = false := by
      by_contra none
      apply complete
      intro g mem same
      by_contra lost
      exact none ⟨g, mem, same, by simpa using lost⟩
    rw [tracked.accepts_iff last len, heldEq]
    constructor
    · intro safe number _ masked
      exact complete (safe ⟨Option.some.inj masked, number⟩).2
    · rintro unmasked ⟨bytes, number⟩
      exact absurd (congrArg some bytes) (unmasked number missing)

/-- Reassembly is safe over every stream exactly when no loss is masked. -/
theorem reassembly_safe_iff (index : ℤ) (src : ℕ) (memory : Slot → Context AlPdu)
    (es : List (SenderEvent × Bool)) :
    Safe index src memory (Sender.init.transmit es) ↔
      Unmasked index src memory (Sender.init.transmit es) := by
  refine forall_congr' fun xs => forall_congr' fun fh => forall_congr' fun b =>
    forall_congr' fun arrives => ?_
  obtain ⟨⟨ys, split⟩, last, own, r, reach, found⟩ := arrives
  obtain ⟨w, legal⟩ := bursts_legal (es.map Prod.fst)
  rw [← transmit_map, split, List.map_append, List.map_cons] at legal
  obtain ⟨w₀, before, stream⟩ := legal.prefix
  refine safe_iff_unmasked (tracks_run before reach) reach found ?_ last own
  cases stream with
  | cons sends _ => exact (sends.of_last last).1

/-- Two packets whose first fragments are lost: the 13 bytes that arrive of the
first one stand in for the 13 bytes lost of the second. -/
def lostHeads : List (SenderEvent × Bool) :=
  [(.urgent 1 20, false), (.slot 12, true), (.slot 15, false),
    (.urgent 1 20, false), (.slot 15, true), (.slot 12, false)]

/-- The second packet is accepted with a NULL packet in the context. -/
theorem lostHeads_not_safe :
    ¬ Safe 1 0 (fun _ => Context.zero) (Sender.init.transmit lostHeads) := by
  intro safe
  have arrives : LastArrives 1 0 (fun _ => Context.zero) (Sender.init.transmit lostHeads)
      ((Sender.init.transmit lostHeads).take 3)
      { startEnd := 1, length := 10, fragId := 0, seqno := 1
        alpdu := { uid := 1, macDA := 1, totalLength := 23 } }
      { pkt := none, expSn := 1, len := 13 } := by
    refine ⟨⟨[], by decide +kernel⟩, rfl, rfl, Option.bind_eq_some_iff.mp ?_⟩
    decide +kernel
  have accepted := safe _ _ _ arrives (by decide +kernel)
  cases accepted.1

end Mftdma.Rle
