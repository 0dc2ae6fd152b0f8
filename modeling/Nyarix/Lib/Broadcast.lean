import Mathlib.Data.List.Basic
import Mathlib.Data.List.Perm.Basic

/-! A broadcast channel: one ring of values, read through cursors that it can overtake. To each cursor
the ring looks like a mailbox of its own, which loses its oldest value when it is full. -/

namespace Broadcast
variable {E : Type*}

/-- What receiving answers, short of an end of the channel. -/
inductive Recv (E : Type*) where
  | value (e : E)
  | lagged
  | empty
  deriving DecidableEq, Repr

/-- The last values sent, and how many were sent in all. -/
structure Ring (E : Type*) where
  slots : Nat
  held : List E
  tail : Nat
  deriving DecidableEq, Repr

namespace Ring

def new (slots : Nat) : Ring E := ⟨slots, [], 0⟩

def oldest (r : Ring E) : Nat := r.tail - r.held.length

def send (r : Ring E) (e : E) : Ring E :=
  ⟨r.slots, (r.held ++ [e]).drop (r.held.length + 1 - r.slots), r.tail + 1⟩

/-- A cursor that was overtaken is set to the oldest value. -/
def recv (r : Ring E) (next : Nat) : Recv E × Nat :=
  if next < r.oldest then (.lagged, r.oldest)
  else
    match r.held[next - r.oldest]? with
    | some e => (.value e, next + 1)
    | none => (.empty, next)

structure Valid (r : Ring E) : Prop where
  pos : 0 < r.slots
  bounded : r.held.length ≤ r.slots
  sent : r.held.length ≤ r.tail

theorem valid_new {slots : Nat} (h : 0 < slots) : (new slots : Ring E).Valid := ⟨h, Nat.zero_le _, Nat.zero_le _⟩

theorem Valid.send {r : Ring E} (h : r.Valid) (e : E) : (r.send e).Valid := by
  obtain ⟨hpos, hbounded, hsent⟩ := h
  refine ⟨hpos, ?_, ?_⟩ <;>
    · simp only [Ring.send, List.length_drop, List.length_append, List.length_singleton]
      omega

end Ring

/-- The values that are still to be received, and whether some were lost since the last receipt. -/
structure Mailbox (E : Type*) where
  queue : List E
  overflowed : Bool
  deriving DecidableEq, Repr

namespace Mailbox

def empty : Mailbox E := ⟨[], false⟩

def send (slots : Nat) (m : Mailbox E) (e : E) : Mailbox E :=
  ⟨(m.queue ++ [e]).drop (m.queue.length + 1 - slots), m.overflowed || decide (slots < m.queue.length + 1)⟩

def evicted (slots : Nat) (m : Mailbox E) (e : E) : List E := (m.queue ++ [e]).take (m.queue.length + 1 - slots)

def recv (m : Mailbox E) : Recv E × Mailbox E :=
  if m.overflowed then (.lagged, ⟨m.queue, false⟩)
  else
    match m.queue with
    | [] => (.empty, m)
    | e :: queue => (.value e, ⟨queue, false⟩)

theorem queue_send (slots : Nat) (m : Mailbox E) (e : E) :
    m.evicted slots e ++ (m.send slots e).queue = m.queue ++ [e] := List.take_append_drop _ _

end Mailbox

namespace Ring
variable {r : Ring E} {next : Nat}

def mailbox (r : Ring E) (next : Nat) : Mailbox E := ⟨r.held.drop (next - r.oldest), decide (next < r.oldest)⟩

theorem mailbox_tail (h : r.Valid) : r.mailbox r.tail = .empty := by
  have := h.sent
  rw [mailbox, Mailbox.empty, oldest, List.drop_eq_nil_of_le (by omega), decide_eq_false (by omega)]

theorem mailbox_send (h : r.Valid) (hnext : next ≤ r.tail) (e : E) :
    (r.send e).mailbox next = (r.mailbox next).send r.slots e := by
  obtain ⟨hpos, hbounded, hsent⟩ := h
  have hlength : (r.send e).held.length = r.held.length + 1 - (r.held.length + 1 - r.slots) := by
    simp [send]
  have holdest : (r.send e).oldest = r.oldest + (r.held.length + 1 - r.slots) := by
    rw [oldest, hlength, oldest]
    simp only [send]
    omega
  have hunread : (r.held.drop (next - r.oldest)).length = r.held.length - (next - r.oldest) := List.length_drop
  simp only [mailbox, Mailbox.send, Mailbox.mk.injEq, holdest, hunread]
  have hle : next - r.oldest ≤ r.held.length := by
    rw [oldest]
    omega
  constructor
  · -- both cut the same prefix off the same values
    rw [← List.drop_append_of_le_length hle, List.drop_drop, send, List.drop_drop]
    congr 1
    rw [oldest] at hle ⊢
    omega
  · rw [Bool.eq_iff_iff, Bool.or_eq_true, decide_eq_true_eq, decide_eq_true_eq, decide_eq_true_eq]
    rw [oldest] at hle ⊢
    omega

theorem mailbox_recv (r : Ring E) (next : Nat) :
    (r.recv next).1 = (r.mailbox next).recv.1 ∧ r.mailbox (r.recv next).2 = (r.mailbox next).recv.2 := by
  by_cases hlag : next < r.oldest
  · have hcut : next - r.oldest = 0 := by omega
    simp only [recv, mailbox, Mailbox.recv, hlag, decide_true, if_true, Nat.sub_self, Nat.lt_irrefl, decide_false,
      hcut, and_self]
  · cases hvalue : r.held[next - r.oldest]? with
    | none =>
      have hempty : r.held.drop (next - r.oldest) = [] :=
        List.drop_eq_nil_of_le (List.getElem?_eq_none_iff.mp hvalue)
      simp [recv, mailbox, Mailbox.recv, hlag, hvalue, hempty]
    | some e =>
      obtain ⟨hlt, hget⟩ := List.getElem?_eq_some_iff.mp hvalue
      have hcons : r.held.drop (next - r.oldest) = e :: r.held.drop (next + 1 - r.oldest) := by
        rw [List.drop_eq_getElem_cons hlt, hget, show next + 1 - r.oldest = next - r.oldest + 1 by omega]
      have hlag' : ¬ next + 1 < r.oldest := by omega
      simp [recv, mailbox, Mailbox.recv, hlag, hvalue, hcons, hlag']

theorem recv_le_tail (h : r.Valid) (hnext : next ≤ r.tail) : (r.recv next).2 ≤ r.tail := by
  have := h.sent
  unfold recv
  split_ifs with hlag
  · exact Nat.sub_le _ _
  · cases hvalue : r.held[next - r.oldest]? with
    | none => exact hnext
    | some e =>
      have hlt := (List.getElem?_eq_some_iff.mp hvalue).1
      rw [oldest] at hlt
      dsimp only
      omega

end Ring
end Broadcast
