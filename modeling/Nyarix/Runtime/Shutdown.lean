import Nyarix.Runtime.Host

/-! When a requested shutdown gets through. The token is polled in the select only, so a
cancelled loop still waits for a resume at its head, for the graph's lock and for the sink. -/

namespace Nyarix
open Transition

/-- How far a cancelled loop is from leaving its main loop. -/
def Phase.toLeave : Phase → Nat
  | .init => 6
  | .lock .main _ => 5
  | .running .main _ => 4
  | .deliver .main _ => 3
  | .head => 2
  | .select => 1
  | _ => 0

namespace RunState
variable {G K X : Type} {E : Engine G K X} {s t : RunState G}

/-- The loop needs another party to go on: it waits for the lock, a walk or the sink, or at its
head while a live handle keeps it paused. -/
def Obstructed (s : RunState G) : Prop := s.AwaitsOthers ∨ s.phase = .head ∧ s.pause.Paused

theorem leftMain_step {l : LoopLabel K X} (h : s.phase.leftMain = true) (hs : s.step E l = some t) :
    t.phase.leftMain = true := by
  cases step_cases hs with
  | initialized hp | resumed hp | stopped hp | paused hp | received hp | closed hp =>
    rw [hp] at h
    cases h
  | @unfinished stage _ _ _ hp | @delivered stage _ _ hp =>
    rw [hp] at h
    cases stage <;> first | rfl | cases h
  | @executed stage _ _ _ outcome hp =>
    rw [hp] at h
    cases stage <;> first | exact Stage.leftMain_after outcome | cases h
  | @refused stage output hp => cases stage <;> rfl
  | outside hd => rw [(undisturbed hd).phase, h]
  | _ => rfl

theorem cancelled_step (hc : s.cancelled = true) (hmain : s.phase.leftMain = false) {a : Own K}
    (h : s.step E (.own a) = some t) : ¬ s.Obstructed ∧ t.cancelled = true ∧ t.phase.toLeave < s.phase.toLeave := by
  have hgo : ∀ p : Phase, s.phase = p → ¬ s.Obstructed → t.cancelled = true → t.phase.toLeave < p.toLeave →
      ¬ s.Obstructed ∧ t.cancelled = true ∧ t.phase.toLeave < s.phase.toLeave :=
    fun p hp hfree hct hlt => ⟨hfree, hct, hp ▸ hlt⟩
  have hbehind : ∀ p : Phase, s.phase = p → p.leftMain = true → False := fun p hp hleft => by
    rw [hp, hleft] at hmain
    cases hmain
  cases step_cases h with
  | initialized hp hm | failed hp hm =>
    exact hgo _ hp (by simp [Obstructed, AwaitsOthers, hp, hm]) hc (Nat.le_of_ble_eq_true rfl)
  | resumed hp hw =>
    refine hgo _ hp ?_ hc (Nat.le_of_ble_eq_true rfl)
    rcases hw with hv | hn
    · simp [Obstructed, AwaitsOthers, hp, GraphPause.Paused, hv]
    · simp [Obstructed, AwaitsOthers, hp, GraphPause.Paused, hn]
  | stopped hp =>
    exact hgo _ hp (by simp [Obstructed, AwaitsOthers, hp]) hc (Nat.le_of_ble_eq_true rfl)
  | paused hp hc' | received hp hc' | closed hp hc' => exact absurd (hc'.symm.trans hc) Bool.false_ne_true
  | @unfinished stage _ _ _ hp hm =>
    obtain rfl : stage = .main := by cases stage <;> first | rfl | exact (hbehind _ hp rfl).elim
    exact hgo _ hp (by simp [Obstructed, AwaitsOthers, hp, hm]) hc (Nat.le_of_ble_eq_true rfl)
  | @executed stage _ _ _ outcome hp hm =>
    obtain rfl : stage = .main := by cases stage <;> first | rfl | exact (hbehind _ hp rfl).elim
    refine hgo _ hp (by simp [Obstructed, AwaitsOthers, hp, hm]) hc ?_
    simp only [Stage.after]
    cases outcome.output <;> exact Nat.le_of_ble_eq_true rfl
  | @delivered stage output sink hp ho hs =>
    obtain rfl : stage = .main := by cases stage <;> first | rfl | exact (hbehind _ hp rfl).elim
    exact hgo _ hp (by simp [Obstructed, AwaitsOthers, hp, hs]) hc (Nat.le_of_ble_eq_true rfl)
  | @refused stage output hp ho =>
    obtain rfl : stage = .main := by cases stage <;> first | rfl | exact (hbehind _ hp rfl).elim
    exact hgo _ hp (by simp [Obstructed, AwaitsOthers, hp, ho]) hc (Nat.le_of_ble_eq_true rfl)
  | drained hp | emptied hp | shutDown hp => exact (hbehind _ hp rfl).elim

theorem cancelled_enabled [Inhabited K] (hc : s.cancelled = true) (hmain : s.phase.leftMain = false)
    (hfree : ¬ s.Obstructed) : ∃ a t, s.step E (.own a) = some t := by
  simp only [Obstructed, AwaitsOthers, not_or] at hfree
  cases hp : s.phase with
  | init =>
    simp only [hp] at hfree
    cases hi : E.initializeAllNodes s.graph with
    | mk graph result =>
      match result, hi with
      | .returned (.ok ()), hi => exact ⟨.poll, _, by simp only [step, act, poll, hp, hfree, hi]; rfl⟩
      | .returned (.error _), hi => exact ⟨.poll, _, by simp only [step, act, poll, hp, hfree, hi]; rfl⟩
      | .panicked _, hi => exact ⟨.poll, _, by simp only [step, act, poll, hp, hfree, hi]; rfl⟩
  | head =>
    have hw : s.pause.value = false ∨ s.pause.senders = 0 := by
      simp only [hp, GraphPause.Paused, not_and, true_implies] at hfree
      have := hfree.2
      cases hv : s.pause.value
      · exact .inl rfl
      · exact .inr (Nat.eq_zero_of_not_pos (this hv))
    refine ⟨.poll, ?_⟩
    simp only [step, act, poll, hp, GraphPause.waitUntilResumed_eq]
    rcases hw with hv | hn
    · exact ⟨_, by rw [hv]; rfl⟩
    · cases hv : s.pause.value
      · exact ⟨_, rfl⟩
      · exact ⟨_, by rw [if_pos rfl, if_pos hn]⟩
  | select => exact ⟨.poll, _, by simp only [step, act, poll, hp, select, hc]; rfl⟩
  | lock stage packet =>
    simp only [hp] at hfree
    exact ⟨.execute default, _, by simp only [step, act, hp, hfree]; rfl⟩
  | running => simp [hp] at hfree
  | deliver stage output =>
    simp only [hp] at hfree
    by_cases ho : s.sinkOpen = true
    · cases hs : s.sink.trySend output with
      | none => exact absurd ⟨ho, hs⟩ hfree.1
      | some sink => exact ⟨.poll, _, by simp only [step, act, poll, hp, deliver, ho, hs]; rfl⟩
    · exact ⟨.poll, _, by simp only [step, act, poll, hp, deliver, ho]; rfl⟩
  | drain | shutdown | returned => simp [hp, Phase.leftMain] at hmain

/-- A cancelled loop has a step of its own towards leaving exactly if it needs nobody else for it. -/
theorem shutdown_unblocked_iff [Inhabited K] (hc : s.cancelled = true) (hmain : s.phase.leftMain = false) :
    (∃ a t, s.step E (.own a) = some t ∧ t.phase.toLeave < s.phase.toLeave) ↔ ¬ s.Obstructed := by
  constructor
  · rintro ⟨a, t, ht, -⟩
    exact (cancelled_step hc hmain ht).1
  · intro hfree
    obtain ⟨a, t, ht⟩ := cancelled_enabled (E := E) hc hmain hfree
    exact ⟨a, t, ht, (cancelled_step hc hmain ht).2.2⟩

/-- Nobody stands in the loop's way: it is not paused, the graph's lock is free, no walk goes on
for ever, and the sink takes an output if the loop may still have one. -/
structure Clear (s : RunState G) : Prop where
  resumed : ¬ s.pause.Paused
  unlocked : s.locked = false
  walking : ∀ stage packet, s.phase ≠ .running stage packet
  room : 3 ≤ s.phase.toLeave → s.sinkOpen = true → s.sink.buffer.length < s.sink.capacity

theorem clear_not_obstructed (h : s.Clear) (hmain : s.phase.leftMain = false) : ¬ s.Obstructed := by
  rintro (hw | ⟨-, hpaused⟩)
  · unfold AwaitsOthers at hw
    split at hw
    · simp [h.unlocked] at hw
    · simp [h.unlocked] at hw
    · simp [h.unlocked] at hw
    · exact h.walking _ _ ‹_›
    · rename_i stage output hp
      obtain rfl : stage = .main := by cases stage <;> simp_all [Phase.leftMain]
      have hroom := h.room (by rw [hp]; exact le_rfl) hw.1
      exact absurd (Channel.trySend_eq_none.mp hw.2) hroom.ne
    · exact hw
  · exact h.resumed hpaused

theorem clear_step (hreturns : ∀ readings graph packet, (E.execute readings graph packet).2 ≠ none)
    (hc : s.cancelled = true) (h : s.Clear) {a : Own K} (hs : s.step E (.own a) = some t) :
    t.phase.leftMain = true ∨ t.Clear := by
  cases step_cases hs with
  | initialized hp => exact .inr ⟨h.resumed, h.unlocked, fun _ _ hrun => (by cases hrun), fun hle => by simp [Phase.toLeave] at hle⟩
  | resumed hp hw hv hn =>
    refine .inr ⟨?_, h.unlocked, fun _ _ hrun => (by cases hrun), fun hle => by simp [Phase.toLeave] at hle⟩
    exact fun hpaused => h.resumed ⟨hv.symm.trans hpaused.1, lt_of_lt_of_eq hpaused.2 hn⟩
  | paused hp hc' | received hp hc' | closed hp hc' => exact absurd (hc'.symm.trans hc) Bool.false_ne_true
  | @unfinished stage packet readings graph hp hm he => exact absurd (by rw [he]) (hreturns readings s.graph packet)
  | @executed stage packet readings graph outcome hp hm he =>
    cases stage with
    | drain => exact .inl (Stage.leftMain_after outcome)
    | main =>
      refine .inr ⟨h.resumed, h.unlocked, fun stage packet hrun => ?_, fun _ => h.room (by simp [hp, Phase.toLeave])⟩
      simp only [Stage.after] at hrun
      cases hout : outcome.output <;> simp [hout, Stage.next] at hrun
  | @delivered stage output sink hp ho hsend =>
    cases stage with
    | drain => exact .inl rfl
    | main => exact .inr ⟨h.resumed, h.unlocked, fun _ _ hrun => (by cases hrun), fun hle => by simp [Stage.next, Phase.toLeave] at hle⟩
  | @refused stage output hp =>
    cases stage <;> exact .inl rfl
  | _ => exact .inl rfl

/-- With its way clear, a cancelled loop leaves the main loop by its own steps alone. -/
theorem cancelled_leaves [Inhabited K]
    (hreturns : ∀ readings graph packet, (E.execute readings graph packet).2 ≠ none)
    (hc : s.cancelled = true) (h : s.Clear) :
    Inevitable (step E) LoopLabel.isOwn (fun t => t.phase.leftMain = true) s := by
  refine inevitable_of_rank (P := fun u : RunState G => u.cancelled = true ∧ u.Clear) (fun u => u.phase.toLeave)
    (fun u ⟨huc, hu⟩ => ?_) (fun u l v ⟨huc, hu⟩ hl hv => ?_) ⟨hc, h⟩
  · cases hmain : u.phase.leftMain with
    | true => exact .inl rfl
    | false =>
      obtain ⟨a, v, hv⟩ := cancelled_enabled (E := E) huc hmain (clear_not_obstructed hu hmain)
      exact .inr ⟨.own a, v, rfl, hv⟩
  · cases l with
    | own a =>
      cases hmain : u.phase.leftMain with
      | true => exact .inl (leftMain_step hmain hv)
      | false =>
        obtain ⟨-, hcv, hlt⟩ := cancelled_step huc hmain hv
        exact (clear_step hreturns huc hu hv).imp_right fun hclear => ⟨⟨hcv, hclear⟩, hlt⟩
    | expire | outside => cases hl

def heldAtHead : List (LoopLabel (List Reading) (Edit StubNode)) :=
  [.outside .pause, .own .poll, .outside .cancel]

theorem shutdown_unblocked_iff_relay : ∃ s, run (step relayEngine) relayState [.outside .cancel] = some s ∧
    ((∃ a t, s.step relayEngine (.own a) = some t ∧ t.phase.toLeave < s.phase.toLeave) ↔ ¬ s.Obstructed) :=
  ⟨_, rfl, shutdown_unblocked_iff rfl rfl⟩

theorem heldAtHead_blocked : ∃ s, run (step relayEngine) relayState heldAtHead = some s ∧
    s.cancelled = true ∧ s.phase.leftMain = false ∧ ∀ a, s.step relayEngine (.own a) = none := by
  refine ⟨_, rfl, rfl, rfl, fun a => ?_⟩
  cases a <;> rfl

end RunState
end Nyarix
