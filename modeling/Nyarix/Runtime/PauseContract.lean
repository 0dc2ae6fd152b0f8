import Nyarix.Runtime.Host

/-! The pause contract of the loop. The main loop takes no packet while it is paused, the drain
step does; and a pause flag left set by the last handle keeps the main loop from taking any. -/

namespace Nyarix
open Transition

def Phase.inMain : Phase → Bool
  | .head | .select | .lock .main _ | .running .main _ | .deliver .main _ => true
  | _ => false

/-- How far the main loop is from taking the packet that is available. -/
def Phase.toTake : Phase → Nat
  | .lock .. => 4
  | .deliver .. => 3
  | .head => 2
  | .running .. => 0
  | _ => 1

namespace RunState
variable {G K X : Type} {E : Engine G K X} {s t u : RunState G}

/-- A packet that the step takes is taken while no live handle keeps the loop paused. -/
def TakesResumed (E : Engine G K X) (s : RunState G) (l : LoopLabel K X) : Prop :=
  ∀ t, s.step E l = some t → t.taken ≠ s.taken → ¬ s.pause.Paused

/-- A round of the drain step while the loop is paused finds the source empty. -/
def DrainsResumed (s : RunState G) (l : LoopLabel K X) : Prop :=
  l = .own .poll → s.phase = .drain → s.source.buffer ≠ [] → ¬ s.pause.Paused

theorem takesResumed_iff (s : RunState G) (l : LoopLabel K X) : s.TakesResumed E l ↔ s.DrainsResumed l := by
  constructor
  · rintro h rfl hp hb
    cases hr : s.source.tryRecv with
    | none => exact absurd (Channel.tryRecv_eq_none.mp hr) hb
    | some r =>
      refine h (s.take .drain r.1 r.2) ?_ (by simp [take])
      simp only [step, act, poll, hp, hr]
  · intro h t ht hne
    cases step_cases ht with
    | received hp hc hv hr => exact fun hpaused => Bool.noConfusion (hv.symm.trans hpaused.1)
    | drained hp hr =>
      refine h rfl hp fun hb => ?_
      rw [Channel.tryRecv_eq_none.mpr hb] at hr
      cases hr
    | outside hd => exact absurd (undisturbed hd).taken hne
    | _ => exact absurd rfl hne

/-- No packet starts while paused, in runs whose drain steps find none to start. -/
theorem no_packet_starts_while_paused_iff (graph : G) (source sink : Channel Packet) (pause : GraphPause)
    (ls : List (LoopLabel K X)) :
    Along (step E) (TakesResumed E) (init graph source sink pause) ls ↔
      Along (step E) DrainsResumed (init graph source sink pause) ls :=
  along_congr takesResumed_iff _ ls

theorem drain_takes_while_paused : ∃ s t, run (step relayEngine) relayState
    [.own .poll, .own .poll, .outside .pause, .outside .cancel, .own .poll] = some s ∧
    s.step relayEngine (.own .poll) = some t ∧ t.taken ≠ s.taken ∧ s.pause.Paused :=
  ⟨_, _, rfl, rfl, by simp [relayState, init, take], rfl, Nat.one_pos⟩

/-- Whatever others do but cancel, the loop takes a packet within four steps of its own, and it
can make them except while it waits for others. -/
def TakesSoon (E : Engine G K X) (s : RunState G) : Prop :=
  ∀ ls t, run (step E) s ls = some t → (∀ l ∈ ls, l ≠ .outside .cancel) →
    s.taken.length < t.taken.length ∨
      ls.countP LoopLabel.isOwn ≤ 4 ∧ (t.AwaitsOthers ∨ ∃ a u, t.step E (.own a) = some u)

/-- No handle is alive, the flag reads false, and a packet is available to the main loop or to the
drain step right behind it. -/
structure Unpaused (s : RunState G) : Prop where
  handles : s.pause.senders = 0
  resumed : s.pause.value = false
  running : s.cancelled = false
  available : s.source.buffer ≠ []
  phase : s.phase.inMain = true ∨ s.phase = .drain

theorem disturb_pause {a : Outside X} (hs : s.pause.senders = 0) (h : s.disturb E a = some t) :
    t.pause = s.pause ∧ (a ≠ .cancel → t.cancelled = s.cancelled) := by
  cases a with
  | send packet =>
    obtain ⟨-, h⟩ := Option.ite_none_right_eq_some.mp h
    obtain ⟨source, -, rfl⟩ := Option.map_eq_some_iff.mp h
    exact ⟨rfl, fun _ => rfl⟩
  | receive =>
    obtain ⟨-, h⟩ := Option.ite_none_right_eq_some.mp h
    obtain ⟨_, -, rfl⟩ := Option.map_eq_some_iff.mp h
    exact ⟨rfl, fun _ => rfl⟩
  | cancel =>
    cases h
    exact ⟨rfl, fun ha => absurd rfl ha⟩
  | closeSource | closeSink =>
    cases h
    exact ⟨rfl, fun _ => rfl⟩
  | pause | resume | cloneHandle | dropHandle =>
    obtain ⟨hpos, -⟩ := Option.ite_none_right_eq_some.mp h
    exact absurd hs hpos.ne'
  | lock | unlock | edit =>
    obtain ⟨-, ⟨⟩⟩ := Option.ite_none_right_eq_some.mp h
    exact ⟨rfl, fun _ => rfl⟩

theorem taken_mono {l : LoopLabel K X} (h : s.step E l = some t) : s.taken.length ≤ t.taken.length := by
  cases step_cases h with
  | received | drained => simp [take]
  | outside hd => rw [(undisturbed hd).taken]
  | _ => exact le_rfl

theorem stage_eq_main {phase : Phase} (h : phase.inMain = true ∨ phase = .drain) {stage : Stage} {packet : Packet}
    (hp : phase = .lock stage packet ∨ phase = .running stage packet ∨ phase = .deliver stage packet) :
    stage = .main := by
  cases stage with
  | main => rfl
  | drain =>
    rcases hp with rfl | rfl | rfl <;> rcases h with h | h
    all_goals first | exact absurd h Bool.false_ne_true | cases h

theorem unpaused_step (h : s.Unpaused) {l : LoopLabel K X} (hl : l ≠ .outside .cancel)
    (hs : s.step E l = some t) : s.taken.length < t.taken.length ∨
      (t.Unpaused ∧ t.taken.length = s.taken.length) ∧ t.phase.toTake + l.isOwn.toNat ≤ s.phase.toTake := by
  have hphase := h.phase
  -- whichever phase the loop goes to, the flag, the token and the source stay as they are
  have hgo : ∀ (t : RunState G), t.pause.senders = s.pause.senders → t.pause.value = s.pause.value →
      t.cancelled = s.cancelled → t.source = s.source → t.taken = s.taken →
      (t.phase.inMain = true ∨ t.phase = .drain) → t.phase.toTake + l.isOwn.toNat ≤ s.phase.toTake →
      s.taken.length < t.taken.length ∨ (t.Unpaused ∧ t.taken.length = s.taken.length) ∧
        t.phase.toTake + l.isOwn.toNat ≤ s.phase.toTake :=
    fun t hh hv hc hsrc ht hp hle => .inr ⟨⟨⟨hh.trans h.handles, hv.trans h.resumed, hc.trans h.running,
      by rw [hsrc]; exact h.available, hp⟩, by rw [ht]⟩, hle⟩
  cases step_cases hs with
  | resumed hp hw hv hn => exact hgo _ hn hv rfl rfl rfl (.inl rfl) (by rw [hp]; exact le_rfl)
  | stopped hp hc => exact absurd (h.running.symm.trans hc) Bool.false_ne_true
  | paused hp hc hv => exact absurd (h.resumed.symm.trans hv) Bool.false_ne_true
  | received | drained => simp [take]
  | closed hp hc hv hr => exact absurd (Channel.tryRecv_eq_none.mp hr) h.available
  | emptied hp hr => exact absurd (Channel.tryRecv_eq_none.mp hr) h.available
  | unfinished hp =>
    obtain rfl := stage_eq_main hphase (.inl hp)
    exact hgo _ rfl rfl rfl rfl rfl (.inl rfl) (by rw [hp]; exact Nat.le_of_ble_eq_true rfl)
  | @executed _ _ _ _ outcome hp =>
    obtain rfl := stage_eq_main hphase (.inl hp)
    refine hgo _ rfl rfl rfl rfl rfl (.inl ?_) ?_
    · simp only [Stage.after]
      cases outcome.output <;> rfl
    · rw [hp]
      simp only [Stage.after]
      cases outcome.output <;> exact Nat.le_of_ble_eq_true rfl
  | delivered hp =>
    obtain rfl := stage_eq_main hphase (.inr (.inr hp))
    exact hgo _ rfl rfl rfl rfl rfl (.inl rfl) (by rw [hp]; exact le_rfl)
  | refused hp =>
    obtain rfl := stage_eq_main hphase (.inr (.inr hp))
    exact hgo _ rfl rfl rfl rfl rfl (.inr rfl) (by rw [hp]; exact Nat.le_of_ble_eq_true rfl)
  | initialized hp | failed hp | shutDown hp | expiredShutdown hp => simp [hp, Phase.inMain] at hphase
  | expiredDrain hp => rcases hp with ⟨packet, hp⟩ | ⟨output, hp⟩ <;> simp [hp, Phase.inMain] at hphase
  | @outside a _ hd =>
    have hu := undisturbed hd
    obtain ⟨packets, hsource, -⟩ := hu.source
    obtain ⟨hpause, hcancel⟩ := disturb_pause h.handles hd
    refine .inr ⟨⟨⟨hpause ▸ h.handles, hpause ▸ h.resumed, (hcancel fun ha => hl (ha ▸ rfl)).trans h.running, ?_,
      hu.phase ▸ h.phase⟩, by rw [hu.taken]⟩, by rw [hu.phase]; exact le_rfl⟩
    rw [hsource]
    exact fun hnil => h.available (List.append_eq_nil_iff.mp hnil).1

theorem unpaused_enabled [Inhabited K] (h : s.Unpaused) : s.AwaitsOthers ∨ ∃ a u, s.step E (.own a) = some u := by
  have hphase := h.phase
  unfold AwaitsOthers
  cases hp : s.phase with
  | head =>
    refine .inr ⟨.poll, { s with phase := .select }, ?_⟩
    simp [step, act, poll, hp, GraphPause.waitUntilResumed_eq, h.resumed]
  | select =>
    obtain ⟨packet, rest, hb⟩ := List.exists_cons_of_ne_nil h.available
    cases hr : s.source.tryRecv with
    | none => exact absurd (Channel.tryRecv_eq_none.mp hr) h.available
    | some r =>
      refine .inr ⟨.poll, ({ s with pause := s.pause.saw } : RunState G).take .main r.1 r.2, ?_⟩
      simp [step, act, poll, hp, select, h.running, GraphPause.waitUntilPaused_eq, h.resumed, hr]
  | lock stage packet =>
    cases hm : s.locked with
    | true => exact .inl rfl
    | false => exact .inr ⟨.execute default, _, by simp only [step, act, hp, hm]; rfl⟩
  | running => exact .inl trivial
  | deliver stage output =>
    by_cases ho : s.sinkOpen = true
    · cases hs : s.sink.trySend output with
      | none => exact .inl ⟨ho, hs⟩
      | some sink => exact .inr ⟨.poll, _, by simp only [step, act, poll, hp, deliver, ho, hs]; rfl⟩
    · exact .inr ⟨.poll, _, by simp only [step, act, poll, hp, deliver, ho]; rfl⟩
  | drain =>
    cases hr : s.source.tryRecv with
    | none => exact absurd (Channel.tryRecv_eq_none.mp hr) h.available
    | some r => exact .inr ⟨.poll, _, by simp only [step, act, poll, hp, hr]; rfl⟩
  | init | shutdown | returned => simp [hp, Phase.inMain] at hphase

theorem unpaused_takesSoon [Inhabited K] (h : s.Unpaused) : s.TakesSoon E := by
  intro ls t hrun hls
  have hrank := run_ranked (P := fun u : RunState G => u.Unpaused ∧ u.taken.length = s.taken.length)
    (Q := fun u : RunState G => s.taken.length < u.taken.length) (fun u => u.phase.toTake) LoopLabel.isOwn
    (fun u l v ⟨hu, hlen⟩ hl hv => by
      have := unpaused_step hu hl hv
      rwa [hlen] at this)
    (fun u l v hu hv => lt_of_lt_of_le hu (taken_mono hv)) ⟨h, rfl⟩ (along_of_forall fun l hl _ => hls l hl) hrun
  refine hrank.imp_right fun ⟨⟨ht, _⟩, hle⟩ => ⟨?_, unpaused_enabled ht⟩
  have : s.phase.toTake ≤ 4 := by cases s.phase <;> exact Nat.le_of_ble_eq_true rfl
  omega

/-- At the head or in the select of an iteration, with the flag set and no handle to clear it. -/
structure Cycling (s : RunState G) : Prop where
  handles : s.pause.senders = 0
  paused : s.pause.value = true
  running : s.cancelled = false
  phase : s.phase = .head ∨ s.phase = .select

theorem cycling_step (h : s.Cycling) : ∃ t, s.step E (.own .poll) = some t ∧ t.Cycling ∧ t.taken = s.taken := by
  rcases h.phase with hp | hp
  · refine ⟨{ s with pause := s.pause.saw, phase := .select }, ?_, ⟨h.handles, h.paused, h.running, .inr rfl⟩, rfl⟩
    simp [step, act, poll, hp, GraphPause.waitUntilResumed_eq, h.paused, h.handles]
  · refine ⟨{ s with phase := .head }, ?_, ⟨h.handles, h.paused, h.running, .inl rfl⟩, rfl⟩
    simp [step, act, poll, hp, select, h.running, GraphPause.waitUntilPaused_eq, h.paused]

theorem cycling_run (h : s.Cycling) (n : Nat) :
    ∃ t, run (step E) s (List.replicate n (.own .poll)) = some t ∧ t.taken = s.taken := by
  induction n generalizing s with
  | zero => exact ⟨s, rfl, rfl⟩
  | succ n ih =>
    obtain ⟨t, ht, hc, htaken⟩ := cycling_step (E := E) h
    obtain ⟨u, hu, hut⟩ := ih hc
    exact ⟨u, run_cons.mpr ⟨t, ht, hu⟩, hut.trans htaken⟩

theorem cycling_not_takesSoon (h : s.Cycling) : ¬ s.TakesSoon E := by
  intro hsoon
  obtain ⟨t, ht, htaken⟩ := cycling_run (E := E) h 5
  rcases hsoon _ t ht (fun l hl => by rw [List.eq_of_mem_replicate hl]; nofun) with hlt | ⟨hle, -⟩
  · rw [htaken] at hlt
    exact lt_irrefl _ hlt
  · exact absurd hle (Nat.not_le.mpr (Nat.lt_succ_self 4))

theorem dropped_flag {ls : List (LoopLabel K X)} (hs : s.pause.senders = 0) (h : run (step E) s ls = some t) :
    t.pause.senders = 0 ∧ t.pause.value = s.pause.value := by
  refine run_invariant (P := fun u : RunState G => u.pause.senders = 0 ∧ u.pause.value = s.pause.value)
    (fun u l v ⟨hu, hv⟩ hstep => ?_) ⟨hs, rfl⟩ h
  cases step_cases hstep with
  | resumed hp hw hval hsend => exact ⟨hsend.trans hu, hval.trans hv⟩
  | outside hd => rw [(disturb_pause hu hd).1]; exact ⟨hu, hv⟩
  | _ => exact ⟨hu, hv⟩

/-- After the drop of the last handle the main loop takes the packets that come if the flag read
false at the drop; if it read true, no iteration of the loop takes any. -/
theorem dropped_handles_resume_iff [Inhabited K] {ls : List (LoopLabel K X)} (hlast : u.pause.senders = 1)
    (hs : run (step E) u (.outside .dropHandle :: ls) = some s) (hc : s.cancelled = false)
    (hmain : s.phase.inMain = true) (hb : s.source.buffer ≠ []) :
    (u.pause.value = false → s.TakesSoon E ∧ ∀ t, s.phase = .select → s.step E (.own .poll) = some t → t.phase ≠ .head) ∧
      (s.phase = .head ∨ s.phase = .select → s.TakesSoon E → u.pause.value = false) := by
  obtain ⟨v, hv, hrest⟩ := run_cons.mp hs
  have hdrop : v.pause.senders = 0 ∧ v.pause.value = u.pause.value := by
    simp only [step, disturb, hlast, Nat.one_pos, if_true, Option.some.injEq] at hv
    rw [← hv]
    exact ⟨rfl, rfl⟩
  obtain ⟨hhandles, hvalue⟩ := dropped_flag hdrop.1 hrest
  have hflag : s.pause.value = u.pause.value := hvalue.trans hdrop.2
  constructor
  · intro hfalse
    refine ⟨unpaused_takesSoon ⟨hhandles, hflag.trans hfalse, hc, hb, .inl hmain⟩, fun t hp ht hhead => ?_⟩
    cases step_cases ht with
    | paused hp' hc' hv' => exact absurd ((hflag.trans hfalse).symm.trans hv') Bool.false_ne_true
    | initialized hp' | failed hp' | resumed hp' | delivered hp' | refused hp' | drained hp' | emptied hp' | shutDown hp' =>
      rw [hp] at hp'
      cases hp'
    | stopped | received | closed => cases hhead
  · intro hp hsoon
    by_contra htrue
    exact cycling_not_takesSoon ⟨hhandles, hflag.trans (by simpa using htrue), hc, hp⟩ hsoon

theorem dropped_handles_resume_iff_relay : ∃ s,
    run (step relayEngine) relayState [.outside .dropHandle, .own .poll] = some s ∧
    ((relayState.pause.value = false → s.TakesSoon relayEngine ∧
        ∀ t, s.phase = .select → s.step relayEngine (.own .poll) = some t → t.phase ≠ .head) ∧
      (s.phase = .head ∨ s.phase = .select → s.TakesSoon relayEngine → relayState.pause.value = false)) :=
  ⟨_, rfl, dropped_handles_resume_iff (E := relayEngine) (u := relayState) rfl
    (show run (step relayEngine) relayState [.outside .dropHandle, .own .poll] = some _ from rfl)
    rfl rfl (by decide)⟩

/-- The last handle is dropped while it pauses the loop, which then never takes the packet. -/
theorem dropped_while_paused_strands : ∃ s,
    run (step relayEngine) relayState [.outside .pause, .outside .dropHandle, .own .poll] = some s ∧
    s.pause.senders = 0 ∧ s.cancelled = false ∧ s.phase.inMain = true ∧ s.source.buffer ≠ [] ∧
    ¬ s.TakesSoon relayEngine :=
  ⟨_, rfl, rfl, rfl, rfl, by decide, cycling_not_takesSoon ⟨rfl, rfl, rfl, .inl rfl⟩⟩

end RunState
end Nyarix
