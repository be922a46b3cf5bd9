import Mathlib.Data.BitVec
import Mathlib.Data.List.Basic

/-!
# Fragments on the channel

A `Frag` is the part of `frag_hdr` and of the packet behind it that a receiver
reads. `Wire` is the abstract view of the sender: for each priority it knows the
packet in the middle of being sent, with the bytes still to come, and the number
of the next last fragment. `Wire.Sends` lists the four kinds of fragment that
such a sender may emit, and `Legal` closes it over a whole stream.

Within a priority the packets follow each other, each one whole or as a first
fragment, some in the middle and a last one, and the lengths add up.
-/

namespace Mftdma.Rle

/-- The packet behind a fragment: which one it is, the station it is for, and the
`total_length` of its header, which is final when its first fragment is sent. -/
structure AlPdu where
  uid : ℕ
  macDA : ℤ
  totalLength : BitVec 32
deriving DecidableEq

/-- `struct frag_hdr` -/
structure Frag where
  startEnd : BitVec 32
  length : BitVec 32
  fragId : Fin 8
  seqno : BitVec 8
  alpdu : AlPdu
deriving DecidableEq

/-- The sender as the channel sees it. -/
structure Wire where
  opened : Fin 8 → Option (AlPdu × BitVec 32)
  next : Fin 8 → BitVec 8
  seen : List ℕ

namespace Wire

/-- Nothing has been sent. -/
def idle : Wire where
  opened _ := none
  next _ := 0
  seen := []

/-- The fragments that may come next. -/
inductive Sends (w : Wire) (fh : Frag) : Wire → Prop
  | whole (se : fh.startEnd = 3) (closed : w.opened fh.fragId = none)
      (new : fh.alpdu.uid ∉ w.seen) : Sends w fh { w with seen := fh.alpdu.uid :: w.seen }
  | first (se : fh.startEnd = 2) (closed : w.opened fh.fragId = none)
      (new : fh.alpdu.uid ∉ w.seen) :
      Sends w fh
        { w with
          opened := Function.update w.opened fh.fragId
            (some (fh.alpdu, fh.alpdu.totalLength - fh.length))
          seen := fh.alpdu.uid :: w.seen }
  | middle (rest : BitVec 32) (se : fh.startEnd = 0)
      (opened : w.opened fh.fragId = some (fh.alpdu, rest)) :
      Sends w fh
        { w with
          opened := Function.update w.opened fh.fragId (some (fh.alpdu, rest - fh.length)) }
  | last (se : fh.startEnd = 1) (opened : w.opened fh.fragId = some (fh.alpdu, fh.length))
      (seqno : fh.seqno = w.next fh.fragId) :
      Sends w fh
        { w with
          opened := Function.update w.opened fh.fragId none
          next := Function.update w.next fh.fragId (w.next fh.fragId + 1) }

/-- A stream of fragments from `w` on. -/
inductive Stream : Wire → List Frag → Wire → Prop
  | nil (w : Wire) : Stream w [] w
  | cons {w w' w'' : Wire} {fh : Frag} {fs : List Frag} (step : w.Sends fh w')
      (rest : Stream w' fs w'') : Stream w (fh :: fs) w''

variable {w w' w'' : Wire} {fh : Frag} {xs ys : List Frag}

/-- A fragment leaves the other priorities alone. -/
theorem Sends.other (h : w.Sends fh w') {f : Fin 8} (other : f ≠ fh.fragId) :
    w'.opened f = w.opened f ∧ w'.next f = w.next f := by
  cases h with
  | whole => exact ⟨rfl, rfl⟩
  | first => exact ⟨Function.update_of_ne other _ _, rfl⟩
  | middle => exact ⟨Function.update_of_ne other _ _, rfl⟩
  | last => exact ⟨Function.update_of_ne other _ _, Function.update_of_ne other _ _⟩

/-- A last fragment holds all that was to come of its packet, and the next number. -/
theorem Sends.of_last (h : w.Sends fh w') (last : fh.startEnd = 1) :
    w.opened fh.fragId = some (fh.alpdu, fh.length) ∧ fh.seqno = w.next fh.fragId := by
  cases h with
  | whole se => exact absurd (se.symm.trans last) (by decide)
  | first se => exact absurd (se.symm.trans last) (by decide)
  | middle _ se => exact absurd (se.symm.trans last) (by decide)
  | last _ opened seqno => exact ⟨opened, seqno⟩

theorem Stream.append (first : w.Stream xs w') (second : w'.Stream ys w'') :
    w.Stream (xs ++ ys) w'' := by
  induction first with
  | nil => exact second
  | cons step _ ih => exact .cons step (ih second)

theorem Stream.exists_of_append (h : w.Stream (xs ++ ys) w'') :
    ∃ w', w.Stream xs w' ∧ w'.Stream ys w'' := by
  induction xs generalizing w with
  | nil => exact ⟨w, .nil w, h⟩
  | cons x xs ih =>
      cases h with
      | cons step rest =>
          obtain ⟨w', first, second⟩ := ih rest
          exact ⟨w', .cons step first, second⟩

end Wire

/-- What a sender that starts afresh may put on the channel. -/
def Legal (fs : List Frag) (w : Wire) : Prop := Wire.idle.Stream fs w

variable {w w' : Wire} {fh : Frag} {fs xs ys : List Frag}

theorem Legal.prefix (h : Legal (xs ++ ys) w) : ∃ w', Legal xs w' ∧ w'.Stream ys w :=
  h.exists_of_append

/-- A stream is built up at its end. -/
theorem legal_snoc_iff : Legal (fs ++ [fh]) w ↔ ∃ w', Legal fs w' ∧ w'.Sends fh w := by
  constructor
  · intro h
    obtain ⟨w', first, second⟩ := h.exists_of_append
    cases second with
    | cons step rest =>
        cases rest
        exact ⟨w', first, step⟩
  · rintro ⟨w', first, step⟩
    exact first.append (.cons step (.nil _))

end Mftdma.Rle
