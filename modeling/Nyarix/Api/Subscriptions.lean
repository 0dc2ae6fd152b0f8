import Mathlib.Logic.Function.Iterate
import Nyarix.Api.EventBus

/-! What a subscription gets of the events published to it: each is handled once and in order, still
unread, or overwritten. What other subscriptions do makes no difference. -/

namespace Nyarix
open Broadcast (Mailbox Recv)

def EventTask.unread (t : EventTask (Mailbox Event)) : List Event := (t.receiver.map Mailbox.queue).getD []

def EventTaskStep.kills : EventTaskStep → Bool
  | .abort => true
  | .panic => true
  | _ => false

/-- The step ends the task by force: it is aborted, or its handler panics. -/
def BusStep.kills (i : Nat) : BusStep → Bool
  | .task j step => j == i && step.kills
  | _ => false

namespace Mailboxes

def receiver (s : Mailboxes) (i : Nat) : Option (Mailbox Event) := s.tasks[i]?.bind EventTask.receiver

def offer (s : Mailboxes) (i : Nat) : BusStep → List Event
  | .publish event => if s.closed then [] else (s.receiver i).toList.map fun _ => event
  | _ => []

def overwrite (s : Mailboxes) (i : Nat) : BusStep → List Event
  | .publish event => if s.closed then [] else (s.receiver i).toList.flatMap fun m => m.evicted s.slots event
  | _ => []

def offered (s : Mailboxes) (i : Nat) : List BusStep → List Event
  | [] => []
  | step :: steps => s.offer i step ++ (s.step step).offered i steps

def overwritten (s : Mailboxes) (i : Nat) : List BusStep → List Event
  | [] => []
  | step :: steps => s.overwrite i step ++ (s.step step).overwritten i steps

end Mailboxes

/-- The books of a task: what it handled, has not read and lost is what it was offered. A task ended by
force leaves its unread events out. -/
structure Ledger (t : EventTask (Mailbox Event)) (closed killed : Bool) (offered lost : List Event) : Prop where
  order : (t.handled ++ t.unread.filter t.filter.matches).Sublist (offered.filter t.filter.matches)
  balance : t.receiver.isSome ∨ killed = false →
    (t.handled ++ t.unread.filter t.filter.matches ++ lost.filter t.filter.matches).Perm
      (offered.filter t.filter.matches)
  ends : t.receiver = none → killed = false → closed = true
  aborted : t.aborted = true → killed = true

namespace Ledger
variable {t : EventTask (Mailbox Event)} {closed killed : Bool} {offered lost : List Event}

theorem spawn (filter : EventFilter) (handlerTimeout : Option Duration) (closed : Bool) :
    Ledger (.spawn filter handlerTimeout .empty) closed false [] [] :=
  ⟨List.Sublist.refl _, fun _ => List.Perm.refl _, fun h => (nomatch h), fun h => (nomatch h)⟩

theorem deliver (h : Ledger t closed killed offered lost) (slots : Nat) (event : Event) {m : Mailbox Event}
    (hm : t.receiver = some m) :
    Ledger (t.deliver slots event) closed killed (offered ++ [event]) (lost ++ m.evicted slots event) := by
  have hunread : t.unread = m.queue := by rw [EventTask.unread, hm]; rfl
  have hunread' : (t.deliver slots event).unread = (m.send slots event).queue := by
    rw [EventTask.unread, EventTask.deliver, hm]
    rfl
  have hqueue := m.queue_send slots event
  have horder := h.order
  have hbalance := h.balance (.inl (by rw [hm]; rfl))
  rw [hunread] at horder hbalance
  refine ⟨?_, fun _ => ?_, fun hnone => ?_, h.aborted⟩
  · rw [hunread', List.filter_append]
    have hsuffix : ((m.send slots event).queue.filter t.filter.matches).Sublist
        ((m.queue ++ [event]).filter t.filter.matches) := by
      rw [← hqueue]
      exact (List.sublist_append_right _ _).filter _
    rw [List.filter_append] at hsuffix
    have hboth := horder.append (List.Sublist.refl ([event].filter t.filter.matches))
    rw [List.append_assoc] at hboth
    exact (hsuffix.append_left t.handled).trans hboth
  · change List.Perm (t.handled ++ (t.deliver slots event).unread.filter t.filter.matches ++
      (lost ++ m.evicted slots event).filter t.filter.matches) ((offered ++ [event]).filter t.filter.matches)
    rw [hunread', List.perm_iff_count]
    intro e
    have hcount := (List.perm_iff_count.mp hbalance) e
    have hmoved := congrArg (fun l => (l.filter t.filter.matches).count e) hqueue
    simp only [List.filter_append, List.count_append] at hcount hmoved ⊢
    omega
  · rw [EventTask.deliver, hm] at hnone
    cases hnone

theorem of_same {t' : EventTask (Mailbox Event)} (h : Ledger t closed killed offered lost) (hfilter : t'.filter = t.filter)
    (hhandled : t'.handled = t.handled) (hreceiver : t'.receiver = t.receiver) (haborted : t'.aborted = t.aborted) :
    Ledger t' closed killed offered lost := by
  have hunread : t'.unread = t.unread := by rw [EventTask.unread, hreceiver, EventTask.unread]
  constructor
  · rw [hfilter, hhandled, hunread]
    exact h.order
  · rw [hfilter, hhandled, hunread, hreceiver]
    exact h.balance
  · rw [hreceiver]
    exact h.ends
  · rw [haborted]
    exact h.aborted

theorem kill (h : Ledger t closed killed offered lost) : Ledger t closed true offered lost :=
  ⟨h.order, fun halive => h.balance (.inl (halive.resolve_right Bool.noConfusion)), fun _ hkilled => (nomatch hkilled),
    fun _ => rfl⟩

theorem close (h : Ledger t closed killed offered lost) : Ledger t true killed offered lost :=
  ⟨h.order, h.balance, fun _ _ => rfl, h.aborted⟩

theorem finish (h : Ledger t closed killed offered lost) (hend : killed = true ∨ closed = true ∧ t.unread = []) :
    Ledger t.finished closed killed offered lost := by
  have hunread : t.finished.unread = [] := rfl
  refine ⟨?_, fun halive => ?_, fun _ hkilled => ?_, h.aborted⟩
  · rw [hunread, List.filter_nil, List.append_nil]
    exact (List.sublist_append_left t.handled _).trans h.order
  · have hkilled : killed = false := halive.resolve_left Bool.noConfusion
    have hempty := (hend.resolve_left (by rw [hkilled]; exact Bool.noConfusion)).2
    have hbalance := h.balance (.inr hkilled)
    rw [hempty] at hbalance
    exact hbalance
  · exact (hend.resolve_left (by rw [hkilled]; exact Bool.noConfusion)).1

theorem receive (h : Ledger t closed killed offered lost) {m : Mailbox Event} (hm : t.receiver = some m) :
    Ledger (t.receive Mailbox.recv closed m) closed killed offered lost := by
  obtain ⟨queue, overflowed⟩ := m
  have hunread : t.unread = queue := by rw [EventTask.unread, hm]; rfl
  unfold EventTask.receive Mailbox.recv
  cases overflowed with
  | true =>
    have horder := h.order
    have hbalance := h.balance (.inl (by rw [hm]; rfl))
    rw [hunread] at horder hbalance
    exact ⟨horder, fun _ => hbalance, fun hnone => (nomatch hnone), h.aborted⟩
  | false =>
    cases queue with
    | nil =>
      cases closed with
      | true => exact h.finish (.inr ⟨rfl, hunread⟩)
      | false => exact h.of_same rfl rfl hm.symm rfl
    | cons event queue =>
      have horder := h.order
      have hbalance := h.balance (.inl (by rw [hm]; rfl))
      rw [hunread] at horder hbalance
      dsimp only
      by_cases hmatches : t.filter.matches event = true
      · rw [List.filter_cons_of_pos hmatches] at horder hbalance
        simp only [if_neg Bool.false_ne_true, if_pos hmatches]
        refine ⟨?_, fun _ => ?_, fun hnone => (nomatch hnone), h.aborted⟩
        · change ((t.handled ++ [event]) ++ queue.filter t.filter.matches).Sublist _
          rw [List.append_assoc]
          exact horder
        · change ((t.handled ++ [event]) ++ queue.filter t.filter.matches ++ _).Perm _
          rw [List.append_assoc t.handled]
          exact hbalance
      · rw [List.filter_cons_of_neg hmatches] at horder hbalance
        simp only [if_neg Bool.false_ne_true, if_neg hmatches]
        exact ⟨horder, fun _ => hbalance, fun hnone => (nomatch hnone), h.aborted⟩

theorem step (h : Ledger t closed killed offered lost) (step : EventTaskStep) :
    Ledger (t.step Mailbox.recv closed step) closed (killed || step.kills) offered lost := by
  cases step with
  | poll =>
    change Ledger _ closed (killed || false) offered lost
    rw [Bool.or_false]
    unfold EventTask.step
    dsimp only
    split_ifs with hgone haborted
    · exact h
    · exact h.finish (.inl (h.aborted haborted))
    · exact h.of_same rfl rfl rfl rfl
  | recv =>
    change Ledger _ closed (killed || false) offered lost
    rw [Bool.or_false]
    unfold EventTask.step
    cases hreceiver : t.receiver with
    | none => exact h
    | some m =>
      dsimp only
      split_ifs
      · exact h.receive hreceiver
      · exact h
  | finish timedOut =>
    change Ledger _ closed (killed || false) offered lost
    rw [Bool.or_false]
    unfold EventTask.step
    cases t.handling with
    | none => exact h
    | some event =>
      dsimp only
      split_ifs <;> exact h.of_same rfl rfl rfl rfl
  | suspend =>
    change Ledger _ closed (killed || false) offered lost
    rw [Bool.or_false]
    unfold EventTask.step
    dsimp only
    split_ifs
    · exact h.of_same rfl rfl rfl rfl
    · exact h
  | panic =>
    change Ledger _ closed (killed || true) offered lost
    rw [Bool.or_true]
    unfold EventTask.step
    dsimp only
    split_ifs
    · exact h.kill.finish (.inl rfl)
    · exact h.kill
  | abort =>
    change Ledger _ closed (killed || true) offered lost
    rw [Bool.or_true]
    exact ⟨h.kill.order, h.kill.balance, h.kill.ends, fun _ => rfl⟩

theorem complete_iff (h : Ledger t closed killed offered lost) (halive : t.receiver.isSome ∨ killed = false) :
    t.handled ++ t.unread.filter t.filter.matches = offered.filter t.filter.matches ↔
      ∀ event ∈ lost, t.filter.matches event = false := by
  have hlength := (h.balance halive).length_eq
  rw [List.length_append] at hlength
  constructor
  · intro hall event hevent
    rw [hall] at hlength
    have hnil := List.eq_nil_of_length_eq_zero (Nat.left_eq_add.mp hlength.symm)
    exact Bool.eq_false_iff.mpr (List.filter_eq_nil_iff.mp hnil event hevent)
  · intro hnone
    have hnil := List.filter_eq_nil_iff.mpr fun event hevent => Bool.eq_false_iff.mp (hnone event hevent)
    rw [hnil, List.length_nil, Nat.add_zero] at hlength
    exact h.order.eq_of_length hlength

end Ledger

namespace Mailboxes

/-- The books of subscription `i`; nothing is in them before it is made. -/
structure Books (s : Mailboxes) (i : Nat) (killed : Bool) (offered lost : List Event) : Prop where
  ledger : ∀ t, s.tasks[i]? = some t → Ledger t s.closed killed offered lost
  blank : s.tasks[i]? = none → offered = [] ∧ lost = []

theorem books_new (slots i : Nat) : (new slots).Books i false [] [] := ⟨fun _ ht => (nomatch ht), fun _ => ⟨rfl, rfl⟩⟩

variable {s : Mailboxes} {i : Nat} {killed : Bool} {offered lost : List Event}

theorem offer_publish (hopen : s.closed = false) (event : Event) :
    s.offer i (.publish event) = (s.receiver i).toList.map fun _ => event := by
  rw [offer, hopen]
  rfl

theorem overwrite_publish (hopen : s.closed = false) (event : Event) :
    s.overwrite i (.publish event) = (s.receiver i).toList.flatMap fun m => m.evicted s.slots event := by
  rw [overwrite, hopen]
  rfl

theorem Books.publish (h : s.Books i killed offered lost) (hopen : s.closed = false) (event : Event) :
    Books { s with tasks := s.tasks.map (EventTask.deliver s.slots event) } i killed
      (offered ++ s.offer i (.publish event)) (lost ++ s.overwrite i (.publish event)) := by
  rw [offer_publish hopen, overwrite_publish hopen, receiver]
  constructor
  · intro t ht
    dsimp only at ht
    rw [List.getElem?_map] at ht
    obtain ⟨u, hu, rfl⟩ := Option.map_eq_some_iff.mp ht
    rw [hu, Option.bind_some]
    cases hm : u.receiver with
    | none =>
      have hsame : u.deliver s.slots event = u := by
        rw [EventTask.deliver, hm]
        exact congrArg (fun c => { u with receiver := c }) hm.symm
      rw [hsame]
      simpa using h.ledger u hu
    | some m => simpa using (h.ledger u hu).deliver s.slots event hm
  · intro hnone
    dsimp only at hnone
    rw [List.getElem?_map, Option.map_eq_none_iff] at hnone
    rw [hnone]
    simpa using h.blank hnone

theorem Books.step (h : s.Books i killed offered lost) (step : BusStep) :
    (s.step step).Books i (killed || step.kills i) (offered ++ s.offer i step) (lost ++ s.overwrite i step) := by
  cases step with
  | publish event =>
    change Books _ i (killed || false) _ _
    rw [Bool.or_false, Mailboxes.step]
    split_ifs with hclosed
    · rw [offer, overwrite, if_pos hclosed, if_pos hclosed, List.append_nil, List.append_nil]
      exact h
    · exact h.publish (Bool.eq_false_iff.mpr hclosed) event
  | subscribe filter handlerTimeout =>
    change Books _ i (killed || false) (offered ++ []) (lost ++ [])
    rw [Bool.or_false, List.append_nil, List.append_nil, Mailboxes.step]
    split_ifs with hclosed
    · exact h
    · constructor
      · intro t ht
        dsimp only at ht
        rcases Nat.lt_or_ge i s.tasks.length with hi | hi
        · rw [List.getElem?_append_left hi] at ht
          exact h.ledger t ht
        · -- the task is subscription `i` itself, whose books are blank so far
          obtain ⟨rfl, rfl⟩ := h.blank (List.getElem?_eq_none hi)
          rw [List.getElem?_append_right hi] at ht
          have hnew := List.mem_singleton.mp (List.mem_of_getElem? ht)
          rw [hnew]
          cases killed with
          | true => exact (Ledger.spawn filter handlerTimeout s.closed).kill
          | false => exact Ledger.spawn filter handlerTimeout s.closed
      · intro hnone
        dsimp only at hnone
        have hlen := List.getElem?_eq_none_iff.mp hnone
        rw [List.length_append] at hlen
        exact h.blank (List.getElem?_eq_none (by omega))
  | close =>
    change Books _ i (killed || false) (offered ++ []) (lost ++ [])
    rw [Bool.or_false, List.append_nil, List.append_nil]
    exact ⟨fun t ht => (h.ledger t ht).close, h.blank⟩
  | task j step =>
    change Books _ i (killed || _) (offered ++ []) (lost ++ [])
    rw [List.append_nil, List.append_nil, BusStep.kills]
    constructor
    · intro t ht
      dsimp only [Mailboxes.step] at ht
      rw [List.getElem?_modify] at ht
      obtain ⟨u, hu, hut⟩ := Option.map_eq_some_iff.mp ht
      have hledger := h.ledger u hu
      split_ifs at hut with hij
      · rw [← hut, hij, beq_self_eq_true, Bool.true_and]
        exact hledger.step step
      · rw [← hut, beq_eq_false_iff_ne.mpr hij, Bool.false_and, Bool.or_false]
        exact hledger
    · intro hnone
      dsimp only [Mailboxes.step] at hnone
      rw [List.getElem?_modify, Option.map_eq_map, Option.map_eq_none_iff] at hnone
      exact h.blank hnone

theorem Books.run (h : s.Books i killed offered lost) (steps : List BusStep) :
    (s.run steps).Books i (killed || steps.any (BusStep.kills i)) (offered ++ s.offered i steps)
      (lost ++ s.overwritten i steps) := by
  induction steps generalizing s killed offered lost with
  | nil =>
    rw [List.any_nil, Bool.or_false, Mailboxes.offered, overwritten, List.append_nil, List.append_nil]
    exact h
  | cons step steps ih =>
    rw [List.any_cons, ← Bool.or_assoc, Mailboxes.offered, overwritten, ← List.append_assoc, ← List.append_assoc]
    exact ih (h.step step)

end Mailboxes

namespace EventBus

def offered (bus : EventBus) (i : Nat) : List BusStep → List Event
  | [] => []
  | step :: steps => bus.view.offer i step ++ (bus.step step).offered i steps

def overwritten (bus : EventBus) (i : Nat) : List BusStep → List Event
  | [] => []
  | step :: steps => bus.view.overwrite i step ++ (bus.step step).overwritten i steps

variable {bus : EventBus}

theorem offered_view (h : bus.Valid) (i : Nat) (steps : List BusStep) :
    bus.offered i steps = bus.view.offered i steps := by
  induction steps generalizing bus with
  | nil => rfl
  | cons step steps ih => rw [offered, Mailboxes.offered, ih (h.step step), view_step h]

theorem overwritten_view (h : bus.Valid) (i : Nat) (steps : List BusStep) :
    bus.overwritten i steps = bus.view.overwritten i steps := by
  induction steps generalizing bus with
  | nil => rfl
  | cons step steps ih => rw [overwritten, Mailboxes.overwritten, ih (h.step step), view_step h]

theorem ledger_run {slots : Nat} (h : 0 < slots) (steps : List BusStep) {i : Nat} {t : EventTask (Mailbox Event)}
    (ht : ((new slots).run steps).view.tasks[i]? = some t) :
    Ledger t ((new slots).run steps).closed (steps.any (BusStep.kills i)) ((new slots).offered i steps)
      ((new slots).overwritten i steps) := by
  have hbooks := (Mailboxes.books_new slots i).run steps
  have hview := view_run (valid_new h) steps
  rw [Bool.false_or, List.nil_append, List.nil_append] at hbooks
  change ((new slots).view.run steps).Books i _ ((new slots).view.offered i steps)
    ((new slots).view.overwritten i steps) at hbooks
  rw [← offered_view (valid_new h), ← overwritten_view (valid_new h), ← hview] at hbooks
  exact hbooks.ledger t ht

/-- A subscription handles what its filter lets through of the events published to it, in that order and
none of them twice. Unless it was ended by force, what it has not handled is unread or overwritten; so
it misses nothing exactly if nothing that it filters for was overwritten. -/
theorem events_accounted_for {slots : Nat} (h : 0 < slots) (steps : List BusStep) {i : Nat}
    {t : EventTask (Mailbox Event)} (ht : ((new slots).run steps).view.tasks[i]? = some t) :
    (t.handled ++ t.unread.filter t.filter.matches).Sublist
        (((new slots).offered i steps).filter t.filter.matches) ∧
      (t.receiver.isSome ∨ steps.any (BusStep.kills i) = false →
        (t.handled ++ t.unread.filter t.filter.matches ++
            ((new slots).overwritten i steps).filter t.filter.matches).Perm
          (((new slots).offered i steps).filter t.filter.matches) ∧
        (t.handled ++ t.unread.filter t.filter.matches = ((new slots).offered i steps).filter t.filter.matches ↔
          ∀ event ∈ (new slots).overwritten i steps, t.filter.matches event = false)) ∧
      (t.receiver = none → steps.any (BusStep.kills i) = false → ((new slots).run steps).closed = true) := by
  have hledger := ledger_run h steps ht
  exact ⟨hledger.order, fun halive => ⟨hledger.balance halive, hledger.complete_iff halive⟩, hledger.ends⟩

theorem events_accounted_for_overtaken : ∃ t, ((new 1).run overtaken).view.tasks[0]? = some t ∧
    (t.handled ++ t.unread.filter t.filter.matches).Sublist
      (((new 1).offered 0 overtaken).filter t.filter.matches) ∧ t.handled = [.custom "b"] :=
  ⟨_, rfl, (events_accounted_for Nat.zero_lt_one overtaken rfl).1, rfl⟩

end EventBus

def BusStep.concerns (i : Nat) : BusStep → Bool
  | .task j _ => j == i
  | _ => true

namespace Mailboxes
variable {s s' : Mailboxes} {i : Nat}

/-- Subscription `i` cannot tell the two apart. -/
structure SameFor (i : Nat) (s s' : Mailboxes) : Prop where
  slots : s.slots = s'.slots
  closed : s.closed = s'.closed
  length : s.tasks.length = s'.tasks.length
  task : s.tasks[i]? = s'.tasks[i]?

theorem SameFor.of_foreign {step : BusStep} (h : step.concerns i = false) : SameFor i (s.step step) s := by
  cases step with
  | task j step =>
    have hij : j ≠ i := by simpa [BusStep.concerns] using h
    refine ⟨rfl, rfl, List.length_modify _ _ _, ?_⟩
    rw [Mailboxes.step, List.getElem?_modify_ne _ _ hij]
  | publish event => cases h
  | subscribe filter handlerTimeout => cases h
  | close => cases h

theorem SameFor.trans {s'' : Mailboxes} (h : SameFor i s s') (h' : SameFor i s' s'') : SameFor i s s'' :=
  ⟨h.slots.trans h'.slots, h.closed.trans h'.closed, h.length.trans h'.length, h.task.trans h'.task⟩

theorem SameFor.step (h : SameFor i s s') (step : BusStep) : SameFor i (s.step step) (s'.step step) := by
  obtain ⟨hslots, hclosed, hlength, htask⟩ := h
  cases step with
  | publish event =>
    unfold Mailboxes.step
    dsimp only
    rw [hclosed, hslots]
    split_ifs
    · exact ⟨hslots, hclosed, hlength, htask⟩
    · exact ⟨rfl, rfl, by simpa using hlength, by simp [htask]⟩
  | subscribe filter handlerTimeout =>
    unfold Mailboxes.step
    dsimp only
    rw [hclosed]
    split_ifs
    · exact ⟨hslots, hclosed, hlength, htask⟩
    · refine ⟨hslots, rfl, by simpa using hlength, ?_⟩
      dsimp only
      rcases Nat.lt_or_ge i s.tasks.length with hi | hi
      · rw [List.getElem?_append_left hi, List.getElem?_append_left (hlength ▸ hi), htask]
      · rw [List.getElem?_append_right hi, List.getElem?_append_right (hlength ▸ hi), hlength]
  | close => exact ⟨hslots, rfl, hlength, htask⟩
  | task j step =>
    refine ⟨hslots, hclosed, by simpa [Mailboxes.step] using hlength, ?_⟩
    simp only [Mailboxes.step, List.getElem?_modify, htask, hclosed]

theorem SameFor.run (h : SameFor i s s') (steps : List BusStep) :
    SameFor i (s.run steps) (s'.run (steps.filter (BusStep.concerns i))) := by
  induction steps generalizing s s' with
  | nil => exact h
  | cons step steps ih =>
    cases hconcerns : step.concerns i with
    | true =>
      rw [List.filter_cons_of_pos hconcerns]
      exact ih (h.step step)
    | false =>
      rw [List.filter_cons_of_neg (by rw [hconcerns]; exact Bool.false_ne_true)]
      exact ih ((SameFor.of_foreign hconcerns).trans h)

end Mailboxes

namespace EventBus

/-- However slow another subscription is, and however it ends: to subscription `i` it makes no difference. -/
theorem subscription_is_alone {slots : Nat} (h : 0 < slots) (steps : List BusStep) (i : Nat) :
    ((new slots).run steps).view.tasks[i]? =
      ((new slots).run (steps.filter (BusStep.concerns i))).view.tasks[i]? := by
  rw [view_run (valid_new h), view_run (valid_new h), view_new]
  exact (Mailboxes.SameFor.run ⟨rfl, rfl, rfl, rfl⟩ steps).task

def neighbours : List BusStep :=
  [.subscribe .all none, .subscribe .all none, .publish (.custom "a"), .task 0 .poll, .task 0 .recv, .task 1 .poll,
    .task 0 .panic, .task 1 .recv, .publish (.custom "b"), .task 1 (.finish false)]

theorem subscription_is_alone_neighbours : ∃ t, ((new 4).run neighbours).view.tasks[1]? = some t ∧
    ((new 4).run (neighbours.filter (BusStep.concerns 1))).view.tasks[1]? = some t ∧
      t.handled = [.custom "a"] ∧ t.unread = [.custom "b"] := by
  have halone := subscription_is_alone (Nat.succ_pos 3) neighbours 1
  exact ⟨_, rfl, halone.symm.trans rfl, rfl, rfl⟩

end EventBus

namespace EventTask
variable {t : EventTask (Mailbox Event)}

def turn (closed : Bool) (t : EventTask (Mailbox Event)) : EventTask (Mailbox Event) :=
  (t.step Mailbox.recv closed (.finish false)).step Mailbox.recv closed .recv

theorem turn_gone (closed : Bool) (h : t.receiver = none) :
    (t.turn closed).receiver = none ∧ (t.turn closed).handled = t.handled := by
  unfold turn
  cases hhandling : t.handling with
  | none => simp [EventTask.step, hhandling, h]
  | some event =>
    cases hpolled : t.polled <;> simp [EventTask.step, hhandling, hpolled, h]

theorem turn_polled (closed : Bool) (h : t.polled = true) {m : Mailbox Event} (hm : t.receiver = some m) :
    t.turn closed = { t with handling := none }.receive Mailbox.recv closed m := by
  have hfinish : t.step Mailbox.recv closed (.finish false) = { t with handling := none } := by
    unfold EventTask.step
    cases hhandling : t.handling with
    | none => exact congrArg (fun handling => { t with handling := handling }) hhandling
    | some event =>
      rw [h]
      simp
  rw [turn, hfinish]
  simp [EventTask.step, hm, h]

theorem turns_gone (closed : Bool) (n : Nat) (h : t.receiver = none) :
    ((turn closed)^[n] t).receiver = none ∧ ((turn closed)^[n] t).handled = t.handled := by
  induction n generalizing t with
  | zero => exact ⟨h, rfl⟩
  | succ n ih =>
    obtain ⟨hgone, hhandled⟩ := turn_gone closed h
    rw [Function.iterate_succ_apply, ← hhandled]
    exact ih hgone

theorem turns_end (n : Nat) (h : t.polled = true) {m : Mailbox Event} (hm : t.receiver = some m)
    (hn : m.queue.length + m.overflowed.toNat < n) :
    ((turn true)^[n] t).receiver = none ∧
      ((turn true)^[n] t).handled = t.handled ++ m.queue.filter t.filter.matches := by
  induction n generalizing t m with
  | zero => exact absurd hn (Nat.not_lt_zero _)
  | succ n ih =>
    obtain ⟨queue, overflowed⟩ := m
    rw [Function.iterate_succ_apply, turn_polled true h hm]
    unfold EventTask.receive Mailbox.recv
    dsimp only at hn ⊢
    cases overflowed with
    | true =>
      rw [Bool.toNat_true] at hn
      refine ih (t := { t with receiver := some ⟨queue, false⟩, handling := none }) (m := ⟨queue, false⟩) h rfl ?_
      exact Nat.lt_of_succ_lt_succ hn
    | false =>
      cases queue with
      | nil =>
        rw [List.filter_nil, List.append_nil]
        exact turns_gone true n rfl
      | cons event queue =>
        rw [List.length_cons, Bool.toNat_false] at hn
        simp only [if_neg Bool.false_ne_true]
        by_cases hmatches : t.filter.matches event = true
        · rw [if_pos hmatches, List.filter_cons_of_pos hmatches]
          have hrest := ih
            (t := { t with receiver := some ⟨queue, false⟩, handling := some event, handled := t.handled ++ [event] })
            (m := ⟨queue, false⟩) h rfl (Nat.lt_of_succ_lt_succ hn)
          refine ⟨hrest.1, hrest.2.trans ?_⟩
          exact List.append_assoc t.handled [event] _
        · rw [if_neg hmatches, List.filter_cons_of_neg hmatches]
          exact ih (t := { t with receiver := some ⟨queue, false⟩, handling := none }) (m := ⟨queue, false⟩) h rfl
            (Nat.lt_of_succ_lt_succ hn)

end EventTask

namespace EventBus

/-- Poll subscription `i` and let it take `n` turns. -/
def drain (i n : Nat) : List BusStep :=
  .task i .poll :: (List.replicate n [.task i (.finish false), .task i .recv]).flatten

end EventBus

namespace Mailboxes
variable {s : Mailboxes} {i : Nat} {t : EventTask (Mailbox Event)}

theorem run_turns (n : Nat) (ht : s.tasks[i]? = some t) :
    (s.run (List.replicate n [.task i (.finish false), .task i .recv]).flatten).tasks[i]? =
      some ((EventTask.turn s.closed)^[n] t) := by
  induction n generalizing s t with
  | zero => exact ht
  | succ n ih =>
    rw [List.replicate_succ, List.flatten_cons, Function.iterate_succ_apply]
    apply ih (s := (s.step (.task i (.finish false))).step (.task i .recv))
    simp [Mailboxes.step, ht, EventTask.turn]

end Mailboxes

namespace EventBus

/-- When the bus is gone, a subscription that was not aborted still handles what is unread, and then ends. -/
theorem closed_bus_drains {slots : Nat} (h : 0 < slots) (steps : List BusStep) {i : Nat} {t : EventTask (Mailbox Event)}
    (ht : ((new slots).run steps).view.tasks[i]? = some t) (hclosed : ((new slots).run steps).closed = true)
    (halive : t.receiver.isSome) (haborted : t.aborted = false) :
    ∃ t', ((new slots).run (steps ++ drain i (t.unread.length + 2))).view.tasks[i]? = some t' ∧ t'.receiver = none ∧
      t'.handled = t.handled ++ t.unread.filter t.filter.matches := by
  obtain ⟨m, hm⟩ := Option.isSome_iff_exists.mp halive
  have hunread : t.unread = m.queue := by rw [EventTask.unread, hm]; rfl
  have hpoll : t.step Mailbox.recv true .poll = { t with polled := true } := by
    unfold EventTask.step
    cases hpolled : t.polled with
    | true => simp [← hpolled]
    | false => simp [hm, haborted]
  have hview : ((new slots).run (steps ++ drain i (t.unread.length + 2))).view =
      ((new slots).run steps).view.run (drain i (t.unread.length + 2)) := by
    rw [run_append, view_run ((valid_new h).run steps)]
  rw [hview]
  have hpolled : (((new slots).run steps).view.step (.task i .poll)).tasks[i]? = some { t with polled := true } := by
    have hstate : ((new slots).run steps).view.closed = true := hclosed
    rw [Mailboxes.step, List.getElem?_modify_eq, ht, hstate]
    exact congrArg some hpoll
  have hturns := Mailboxes.run_turns (t.unread.length + 2) hpolled
  have hstate : (((new slots).run steps).view.step (.task i .poll)).closed = true := hclosed
  rw [hstate] at hturns
  refine ⟨_, hturns, ?_⟩
  rw [hunread]
  exact EventTask.turns_end (t := { t with polled := true }) _ rfl hm (by have := m.overflowed.toNat_le; omega)

def closedUnread : List BusStep := [.subscribe .all none, .publish (.custom "a"), .publish (.custom "b"), .close]

theorem closed_bus_drains_unread : ∃ t, ((new 2).run (closedUnread ++ drain 0 4)).view.tasks[0]? = some t ∧
    t.receiver = none ∧ t.handled = [.custom "a", .custom "b"] := by
  obtain ⟨t, ht, hgone, hhandled⟩ := closed_bus_drains Nat.zero_lt_two closedUnread (i := 0) rfl rfl rfl rfl
  exact ⟨t, ht, hgone, hhandled⟩

end EventBus
end Nyarix
