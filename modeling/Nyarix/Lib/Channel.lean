import Mathlib.Data.List.Basic

/-! Bounded first-in first-out channels, and watch channels that hold one latest value. -/

/-- A bounded channel; it always has room for at least one message. -/
structure Channel (α : Type*) where
  capacity : Nat
  buffer : List α
  pos : 0 < capacity
  bounded : buffer.length ≤ capacity

namespace Channel
variable {α : Type*}

def empty (capacity : Nat) (h : 0 < capacity) : Channel α := ⟨capacity, [], h, Nat.zero_le _⟩

def trySend (c : Channel α) (a : α) : Option (Channel α) :=
  if h : c.buffer.length < c.capacity then
    some ⟨c.capacity, c.buffer ++ [a], c.pos, by rw [List.length_append]; exact h⟩
  else none

def tryRecv (c : Channel α) : Option (α × Channel α) :=
  match c with
  | ⟨_, [], _, _⟩ => none
  | ⟨n, a :: rest, hn, h⟩ => some (a, ⟨n, rest, hn, Nat.le_of_succ_le h⟩)

def drain (c : Channel α) : List α × Channel α := (c.buffer, empty c.capacity c.pos)

theorem eq_of_buffer {c d : Channel α} (hcapacity : c.capacity = d.capacity) (hbuffer : c.buffer = d.buffer) : c = d := by
  obtain ⟨n, l, hn, hl⟩ := c
  obtain ⟨m, k, hm, hk⟩ := d
  congr 1

theorem trySend_eq_some {c d : Channel α} {a : α} :
    c.trySend a = some d ↔
      c.buffer.length < c.capacity ∧ d.buffer = c.buffer ++ [a] ∧ d.capacity = c.capacity := by
  obtain ⟨n, l, hn, hl⟩ := c
  obtain ⟨m, k, hm, hk⟩ := d
  simp only [trySend]
  split_ifs with h
  · simp only [Option.some.injEq, mk.injEq, h, true_and]
    exact ⟨fun ⟨h₁, h₂⟩ => ⟨h₂.symm, h₁.symm⟩, fun ⟨h₁, h₂⟩ => ⟨h₂.symm, h₁.symm⟩⟩
  · simp [h]

theorem trySend_eq_none {c : Channel α} {a : α} : c.trySend a = none ↔ c.buffer.length = c.capacity := by
  have := c.bounded
  unfold trySend
  split_ifs with h <;> simp only [false_iff, true_iff] <;> omega

theorem tryRecv_eq_some {c d : Channel α} {a : α} :
    c.tryRecv = some (a, d) ↔ c.buffer = a :: d.buffer ∧ d.capacity = c.capacity := by
  obtain ⟨n, l, hn, hl⟩ := c
  obtain ⟨m, k, hm, hk⟩ := d
  cases l with
  | nil => simp [tryRecv]
  | cons b l =>
    simp only [tryRecv, Option.some.injEq, Prod.mk.injEq, mk.injEq, List.cons.injEq]
    exact ⟨fun ⟨h, h₁, h₂⟩ => ⟨⟨h, h₂⟩, h₁.symm⟩, fun ⟨⟨h, h₂⟩, h₁⟩ => ⟨h, h₁.symm, h₂⟩⟩

theorem tryRecv_eq_none {c : Channel α} : c.tryRecv = none ↔ c.buffer = [] := by
  obtain ⟨n, l, hn, hl⟩ := c
  cases l <;> simp [tryRecv]

end Channel

/-- A watch channel seen by one receiver: the latest value, how often it was sent, the last
version the receiver saw, and how many senders are alive. -/
structure Watch (α : Type*) where
  value : α
  version : Nat
  seen : Nat
  senders : Nat

inductive Changed where
  | ok | err | pending
  deriving DecidableEq

namespace Watch
variable {α : Type*}

def new (a : α) : Watch α := ⟨a, 0, 0, 1⟩

def send (w : Watch α) (a : α) : Watch α := { w with value := a, version := w.version + 1 }

def saw (w : Watch α) : Watch α := { w with seen := w.version }

/-- An unseen version is reported first; only then does a channel without senders err. -/
def changed (w : Watch α) : Changed × Watch α :=
  if w.seen ≠ w.version then (.ok, w.saw)
  else if w.senders = 0 then (.err, w)
  else (.pending, w)

@[simp] theorem saw_value (w : Watch α) : w.saw.value = w.value := rfl

theorem changed_eq (w : Watch α) : w.changed =
    (if w.seen = w.version then if w.senders = 0 then .err else .pending else .ok, w.saw) := by
  obtain ⟨value, version, seen, senders⟩ := w
  simp only [changed, saw]
  split_ifs <;> simp_all

theorem changed_saw (w : Watch α) : w.saw.changed = (if w.senders = 0 then .err else .pending, w.saw) := by
  simp only [changed_eq, saw, if_true]

end Watch
