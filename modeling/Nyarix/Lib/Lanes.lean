import Mathlib.Data.List.ReduceOption
import Mathlib.Logic.Function.Basic
import Nyarix.Lib.Channel

/-! A queue made of several bounded lanes, whose receiver races the lanes in a fixed order.
A lane without senders is ready even when it is empty, and then answers with nothing. -/

namespace Lanes
variable {L α : Type*} [DecidableEq L]

/-- What polling the receiver of a lane gives; `none` while it has to wait. -/
def pollLane (alive : Bool) (c : Channel α) : Option (Option α × Channel α) :=
  match c.tryRecv with
  | some (a, c) => some (some a, c)
  | none => if alive then none else some (none, c)

/-- A biased race: the first lane in the order that is ready gives the answer. -/
def race (alive : Bool) : List L → (L → Channel α) → Option (Option α × (L → Channel α))
  | [], _ => none
  | l :: order, lanes =>
    match pollLane alive (lanes l) with
    | some (answer, c) => some (answer, Function.update lanes l c)
    | none => race alive order lanes

def trySend (lanes : L → Channel α) (l : L) (a : α) : Option (L → Channel α) :=
  ((lanes l).trySend a).map (Function.update lanes l)

def queued (order : List L) (lanes : L → Channel α) : List α := order.flatMap fun l => (lanes l).buffer

structure Moved (l : L) (a : α) (lanes lanes' : L → Channel α) : Prop where
  buffer : (lanes l).buffer.Perm (a :: (lanes' l).buffer)
  others : ∀ k, k ≠ l → lanes' k = lanes k

omit [DecidableEq L] in
theorem queued_congr {order : List L} {lanes lanes' : L → Channel α} (h : ∀ k ∈ order, lanes' k = lanes k) :
    queued order lanes' = queued order lanes :=
  List.flatMap_congr fun k hk => by rw [h k hk]

omit [DecidableEq L] in
theorem Moved.queued {l : L} {a : α} {lanes lanes' : L → Channel α} (h : Moved l a lanes lanes')
    {order : List L} (hnodup : order.Nodup) (hl : l ∈ order) :
    (queued order lanes).Perm (a :: queued order lanes') := by
  induction order with
  | nil => cases hl
  | cons k order ih =>
    obtain ⟨hk, hnodup⟩ := List.nodup_cons.mp hnodup
    simp only [Lanes.queued, List.flatMap_cons]
    by_cases hkl : k = l
    · subst hkl
      have hrest := queued_congr fun k' hk' => h.others k' fun heq => hk (heq ▸ hk')
      rw [Lanes.queued, Lanes.queued] at hrest
      rw [hrest]
      exact h.buffer.append_right _
    · rw [h.others k hkl]
      have hmem := (List.mem_cons.mp hl).resolve_left (Ne.symm hkl)
      exact ((ih hnodup hmem).append_left _).trans List.perm_middle

theorem trySend_moved {lanes lanes' : L → Channel α} {l : L} {a : α} (h : trySend lanes l a = some lanes') :
    Moved l a lanes' lanes := by
  obtain ⟨c, hc, rfl⟩ := Option.map_eq_some_iff.mp h
  refine ⟨?_, fun k hk => (Function.update_of_ne hk c lanes).symm⟩
  rw [Function.update_self, (Channel.trySend_eq_some.mp hc).2.1]
  exact List.perm_append_singleton a _

theorem race_alive {order : List L} {lanes lanes' : L → Channel α} {answer : Option α}
    (h : race true order lanes = some (answer, lanes')) :
    ∃ l ∈ order, ∃ a, answer = some a ∧ Moved l a lanes lanes' := by
  induction order with
  | nil => cases h
  | cons l order ih =>
    unfold race pollLane at h
    cases hr : (lanes l).tryRecv with
    | none =>
      rw [hr] at h
      obtain ⟨k, hk, hmoved⟩ := ih h
      exact ⟨k, List.mem_cons_of_mem l hk, hmoved⟩
    | some r =>
      obtain ⟨a, c⟩ := r
      rw [hr] at h
      obtain ⟨rfl, rfl⟩ := Prod.mk.inj (Option.some.inj h)
      refine ⟨l, List.mem_cons_self, a, rfl, ?_, fun k hk => Function.update_of_ne hk c lanes⟩
      rw [Function.update_self, (Channel.tryRecv_eq_some.mp hr).1]

theorem race_closed (l : L) (order : List L) (lanes : L → Channel α) :
    race false (l :: order) lanes =
      match (lanes l).tryRecv with
      | some (a, c) => some (some a, Function.update lanes l c)
      | none => some (none, lanes) := by
  unfold race pollLane
  cases (lanes l).tryRecv with
  | none => simp
  | some r => rfl

end Lanes

/-- A queue of lanes as its callers see it: the operations of the queue act on its lanes. -/
structure LaneQueue (S I L α : Type*) [DecidableEq L] where
  lanes : S → L → Channel α
  first : L
  rest : List L
  nodup : (first :: rest).Nodup
  complete : ∀ l, l ∈ first :: rest
  route : I → L
  item : I → α
  trySend : S → I → Option S
  /-- Poll `recv` while senders are alive, or after the last one was dropped. -/
  recv : Bool → S → Option (Option α × S)
  trySend_lanes : ∀ s i, (trySend s i).map lanes = Lanes.trySend (lanes s) (route i) (item i)
  recv_lanes : ∀ b s, (recv b s).map (Prod.map id lanes) = Lanes.race b (first :: rest) (lanes s)

inductive QueueEvent (I : Type*) where
  | send (i : I)
  | recv

structure QueueHistory (S α : Type*) where
  state : S
  accepted : List α
  received : List α

namespace LaneQueue
variable {S I L α : Type*} [DecidableEq L] (Q : LaneQueue S I L α)

/-- One event while senders are alive; a full lane refuses, an empty queue lets `recv` wait. -/
def event (h : QueueHistory S α) : QueueEvent I → QueueHistory S α
  | .send i =>
    match Q.trySend h.state i with
    | some s => { h with state := s, accepted := h.accepted ++ [Q.item i] }
    | none => h
  | .recv =>
    match Q.recv true h.state with
    | some (answer, s) => { h with state := s, received := h.received ++ answer.toList }
    | none => h

def history (s : S) (events : List (QueueEvent I)) : QueueHistory S α := events.foldl Q.event ⟨s, [], []⟩

/-- What calling `recv` again and again answers once every sender is dropped, and the state it
leaves; the answers end where a call would wait. -/
def answers : Nat → S → List (Option α) × S
  | 0, s => ([], s)
  | n + 1, s =>
    match Q.recv false s with
    | none => ([], s)
    | some (answer, s) => (answer :: (answers n s).1, (answers n s).2)

/-- Dropping the senders now loses nothing: `recv` answers nothing only when no lane holds a
message and no sender is left, and hands out each accepted message once. -/
structure ClosesCleanly (h : QueueHistory S α) : Prop where
  waitsWhileAlive : ∀ s, Q.recv true h.state ≠ some (none, s)
  onlyWhenEmpty : ∀ n s, Q.recv false (Q.answers n h.state).2 = some (none, s) →
    ∀ l, (Q.lanes (Q.answers n h.state).2 l).buffer = []
  exactlyOnce : ∃ n, ∀ m, n ≤ m →
    (h.received ++ (Q.answers m h.state).1.reduceOption).Perm h.accepted

def OnlyFirst (s : S) : Prop := ∀ l ∈ Q.rest, (Q.lanes s l).buffer = []

def queued (s : S) : List α := Lanes.queued (Q.first :: Q.rest) (Q.lanes s)

theorem trySend_eq_some {s s' : S} {i : I} (h : Q.trySend s i = some s') :
    (Q.queued s').Perm (Q.item i :: Q.queued s) := by
  have hl := Q.trySend_lanes s i
  rw [h] at hl
  exact (Lanes.trySend_moved hl.symm).queued Q.nodup (Q.complete _)

theorem recv_alive {s s' : S} {answer : Option α} (h : Q.recv true s = some (answer, s')) :
    ∃ a, answer = some a ∧ (Q.queued s).Perm (a :: Q.queued s') := by
  have hl := Q.recv_lanes true s
  rw [h] at hl
  obtain ⟨l, hl, a, ha, hmoved⟩ := Lanes.race_alive hl.symm
  exact ⟨a, ha, hmoved.queued Q.nodup hl⟩

theorem recv_closed_cons {s : S} {a : α} {more : List α} (h : (Q.lanes s Q.first).buffer = a :: more) :
    ∃ s', Q.recv false s = some (some a, s') ∧ (Q.lanes s' Q.first).buffer = more ∧
      ∀ l, l ≠ Q.first → Q.lanes s' l = Q.lanes s l := by
  have hl := Q.recv_lanes false s
  rw [Lanes.race_closed] at hl
  cases hr : (Q.lanes s Q.first).tryRecv with
  | none => rw [Channel.tryRecv_eq_none.mp hr] at h; cases h
  | some r =>
    obtain ⟨b, c⟩ := r
    have hbuf := (Channel.tryRecv_eq_some.mp hr).1
    obtain ⟨rfl, hmore⟩ := List.cons.inj (h.symm.trans hbuf)
    rw [hr] at hl
    obtain ⟨⟨answer, s'⟩, hs', hmap⟩ := Option.map_eq_some_iff.mp hl
    obtain ⟨rfl, hlanes⟩ := Prod.mk.inj hmap
    refine ⟨s', hs', ?_, fun l hne => ?_⟩
    · rw [hlanes, Function.update_self, hmore]
    · rw [hlanes, Function.update_of_ne hne]

theorem recv_closed_nil {s : S} (h : (Q.lanes s Q.first).buffer = []) :
    ∃ s', Q.recv false s = some (none, s') ∧ Q.lanes s' = Q.lanes s := by
  have hl := Q.recv_lanes false s
  rw [Lanes.race_closed, Channel.tryRecv_eq_none.mpr h] at hl
  obtain ⟨⟨answer, s'⟩, hs', hmap⟩ := Option.map_eq_some_iff.mp hl
  obtain ⟨rfl, hlanes⟩ := Prod.mk.inj hmap
  exact ⟨s', hs', hlanes⟩

theorem answers_eq (n : Nat) (s : S) :
    (Q.answers n s).1.reduceOption = (Q.lanes s Q.first).buffer.take n ∧
      (Q.lanes (Q.answers n s).2 Q.first).buffer = (Q.lanes s Q.first).buffer.drop n ∧
      ∀ l, l ≠ Q.first → Q.lanes (Q.answers n s).2 l = Q.lanes s l := by
  induction n generalizing s with
  | zero => exact ⟨rfl, rfl, fun _ _ => rfl⟩
  | succ n ih =>
    cases hbuf : (Q.lanes s Q.first).buffer with
    | nil =>
      obtain ⟨s', hrecv, hlanes⟩ := Q.recv_closed_nil hbuf
      obtain ⟨htake, hdrop, hothers⟩ := ih s'
      rw [hlanes, hbuf] at htake hdrop
      simp only [answers, hrecv]
      refine ⟨?_, ?_, fun l hl => by rw [hothers l hl, hlanes]⟩
      · simpa using htake
      · simpa using hdrop
    | cons a more =>
      obtain ⟨s', hrecv, hmore, hkept⟩ := Q.recv_closed_cons hbuf
      obtain ⟨htake, hdrop, hothers⟩ := ih s'
      rw [hmore] at htake hdrop
      simp only [answers, hrecv]
      refine ⟨?_, hdrop, fun l hl => by rw [hothers l hl, hkept l hl]⟩
      rw [List.reduceOption_cons_of_some, htake, List.take_succ_cons]

theorem history_accounted (s : S) (hs : Q.queued s = []) (events : List (QueueEvent I)) :
    (Q.history s events).accepted.Perm
      ((Q.history s events).received ++ Q.queued (Q.history s events).state) := by
  refine List.foldlRecOn events Q.event (motive := fun h : QueueHistory S α =>
    h.accepted.Perm (h.received ++ Q.queued h.state)) (by rw [hs]; exact .nil) fun h hh e _ => ?_
  cases e with
  | send i =>
    simp only [event]
    split
    · rename_i s' hs'
      have hq := (Q.trySend_eq_some hs').append_left h.received
      exact ((List.perm_append_singleton _ _).trans (hh.cons _)).trans
        (List.perm_middle.symm.trans hq.symm)
    · exact hh
  | recv =>
    simp only [event]
    split
    · rename_i answer s' hs'
      obtain ⟨a, rfl, hq⟩ := Q.recv_alive hs'
      rw [Option.toList_some, List.append_assoc]
      exact hh.trans (hq.append_left _)
    · exact hh

theorem closesCleanly_iff {s : S} (hs : Q.queued s = []) (events : List (QueueEvent I)) :
    Q.ClosesCleanly (Q.history s events) ↔ Q.OnlyFirst (Q.history s events).state := by
  have hacc := Q.history_accounted s hs events
  generalize Q.history s events = h at hacc
  have hne : ∀ l ∈ Q.rest, l ≠ Q.first := fun l hl heq => (List.nodup_cons.mp Q.nodup).1 (heq ▸ hl)
  constructor
  · intro hclean l hl
    -- once the first lane is drained, `recv` answers nothing whatever the other lanes hold
    obtain ⟨-, hdrop, hothers⟩ := Q.answers_eq (Q.lanes h.state Q.first).buffer.length h.state
    rw [List.drop_length] at hdrop
    obtain ⟨s', hrecv, -⟩ := Q.recv_closed_nil hdrop
    rw [← hothers l (hne l hl)]
    exact hclean.onlyWhenEmpty _ s' hrecv l
  · intro honly
    refine ⟨fun s' hrecv => ?_, fun n s' hrecv l => ?_, (Q.lanes h.state Q.first).buffer.length, fun m hm => ?_⟩
    · obtain ⟨a, ha, -⟩ := Q.recv_alive hrecv
      cases ha
    · obtain ⟨-, hdrop, hothers⟩ := Q.answers_eq n h.state
      rcases List.mem_cons.mp (Q.complete l) with rfl | hl
      · cases hbuf : (Q.lanes (Q.answers n h.state).2 Q.first).buffer with
        | nil => rfl
        | cons a more =>
          obtain ⟨s'', hrecv', -⟩ := Q.recv_closed_cons hbuf
          rw [hrecv] at hrecv'
          cases hrecv'
      · rw [hothers l (hne l hl), honly l hl]
    · have hqueued : Q.queued h.state = (Q.lanes h.state Q.first).buffer := by
        have hrest : Q.rest.flatMap (fun l => (Q.lanes h.state l).buffer) = [] :=
          List.flatMap_eq_nil_iff.mpr honly
        rw [queued, Lanes.queued, List.flatMap_cons, hrest, List.append_nil]
      rw [(Q.answers_eq m h.state).1, List.take_of_length_le hm, ← hqueued]
      exact hacc.symm

end LaneQueue
