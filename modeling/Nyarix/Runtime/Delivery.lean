import Nyarix.Runtime.Host

/-! What becomes of the packets sent to the loop: they are taken in order, executed once each,
and their outputs are delivered in order; the drain step executes what the main loop left. -/

namespace Nyarix
open Transition

def LoopLabel.Undropped {K X : Type} : LoopLabel K X → Prop
  | .expire | .outside .closeSink => False
  | _ => True

namespace RunState
variable {G K X : Type} {E : Engine G K X} {s s' : RunState G}

/-- The books of the loop: what was sent is taken or still buffered, what was taken is executed or
in hand, and what the executions put out is delivered or on its way. -/
structure Ledger (s : RunState G) : Prop where
  sinkOpen : s.sinkOpen = true
  sent : s.sent = s.taken ++ s.source.buffer
  taken : s.taken = s.executed.map Prod.fst ++ s.phase.inHand
  delivered : s.executed.filterMap (·.2.output) = s.delivered ++ s.phase.outbound

theorem Ledger.of_idle (h : s.Ledger) (hs : s'.sinkOpen = s.sinkOpen) (hsent : s'.sent = s.sent)
    (hsource : s'.source = s.source) (ht : s'.taken = s.taken) (he : s'.executed = s.executed)
    (hd : s'.delivered = s.delivered) (hin : s'.phase.inHand = s.phase.inHand)
    (hout : s'.phase.outbound = s.phase.outbound) : s'.Ledger where
  sinkOpen := hs.trans h.sinkOpen
  sent := by rw [hsent, ht, hsource, h.sent]
  taken := by rw [ht, he, hin, h.taken]
  delivered := by rw [he, hd, hout, h.delivered]

theorem Ledger.take (h : s.Ledger) {packet : Packet} {source : Channel Packet} (hin : s.phase.inHand = [])
    (hout : s.phase.outbound = []) (hr : s.source.tryRecv = some (packet, source)) (stage : Stage) :
    (s.take stage packet source).Ledger where
  sinkOpen := h.sinkOpen
  sent := by
    change s.sent = s.taken ++ [packet] ++ source.buffer
    rw [h.sent, (Channel.tryRecv_eq_some.mp hr).1, List.append_assoc, List.singleton_append]
  taken := by
    have := h.taken
    rw [hin, List.append_nil] at this
    change s.taken ++ [packet] = s.executed.map Prod.fst ++ [packet]
    rw [this]
  delivered := by
    have := h.delivered
    rw [hout] at this
    exact this

theorem disturb_sinkOpen {a : Outside X} (h : s.disturb E a = some s') (ha : a ≠ .closeSink) :
    s'.sinkOpen = s.sinkOpen := by
  cases a with
  | send packet =>
    obtain ⟨-, h⟩ := Option.ite_none_right_eq_some.mp h
    obtain ⟨source, -, rfl⟩ := Option.map_eq_some_iff.mp h
    rfl
  | receive =>
    obtain ⟨-, h⟩ := Option.ite_none_right_eq_some.mp h
    obtain ⟨_, -, rfl⟩ := Option.map_eq_some_iff.mp h
    rfl
  | closeSink => exact absurd rfl ha
  | closeSource | cancel =>
    cases h
    rfl
  | pause | resume | cloneHandle | dropHandle | lock | unlock | edit =>
    obtain ⟨-, ⟨⟩⟩ := Option.ite_none_right_eq_some.mp h
    rfl

theorem Ledger.step (h : s.Ledger) {l : LoopLabel K X} (hl : l.Undropped) (hs : Step E s l s') : s'.Ledger := by
  cases hs with
  -- these steps take, execute and deliver nothing
  | initialized hp | failed hp | resumed hp | stopped hp | paused hp | closed hp | emptied hp | shutDown hp =>
    exact h.of_idle rfl rfl rfl rfl rfl rfl (by rw [hp]; rfl) (by rw [hp]; rfl)
  | received hp hc hv hr =>
    have hidle : ({ s with pause := s.pause.saw } : RunState G).Ledger :=
      h.of_idle rfl rfl rfl rfl rfl rfl rfl rfl
    exact hidle.take (by simp only [hp]; rfl) (by simp only [hp]; rfl) hr _
  | unfinished hp => exact h.of_idle rfl rfl rfl rfl rfl rfl (by rw [hp]; rfl) (by rw [hp]; rfl)
  | @executed stage packet readings graph outcome hp hm he =>
    -- the packet in hand becomes an executed one, and its outputs are on their way
    have htaken := h.taken
    have hdelivered := h.delivered
    rw [hp] at htaken hdelivered
    exact {
      sinkOpen := h.sinkOpen
      sent := h.sent
      taken := by
        simp only [List.map_append, List.map_cons, List.map_nil, Stage.inHand_after, List.append_nil]
        exact htaken
      delivered := by
        simp only [List.filterMap_append, Stage.outbound_after]
        rw [hdelivered, show (Phase.lock stage packet).outbound = [] from rfl, List.append_nil]
        congr 1 }
  | @delivered stage output sink hp ho hsend =>
    have htaken := h.taken
    have hdelivered := h.delivered
    rw [hp] at htaken hdelivered
    exact {
      sinkOpen := h.sinkOpen
      sent := h.sent
      taken := by
        rw [Stage.inHand_next]
        exact htaken
      delivered := by
        rw [Stage.outbound_next, List.append_nil]
        exact hdelivered }
  | refused hp ho => rw [h.sinkOpen] at ho; cases ho
  | drained hp hr => exact h.take (by rw [hp]; rfl) (by rw [hp]; rfl) hr _
  | expiredDrain | expiredShutdown => exact hl.elim
  | @outside a _ hd =>
    have hu := undisturbed hd
    obtain ⟨packets, hsource, hsent⟩ := hu.source
    exact {
      sinkOpen := (disturb_sinkOpen hd (by rintro rfl; exact hl)).trans h.sinkOpen
      sent := by rw [hsent, hu.taken, hsource, h.sent, List.append_assoc]
      taken := by rw [hu.taken, hu.executed, hu.phase, h.taken]
      delivered := by rw [hu.executed, hu.delivered, hu.phase, h.delivered] }

theorem ledger_init (graph : G) (source sink : Channel Packet) (pause : GraphPause) :
    (init graph source sink pause).Ledger := ⟨rfl, rfl, rfl, rfl⟩

/-- All that was sent when the main loop ended is executed before the nodes are shut down. -/
structure Drained (u s : RunState G) : Prop where
  ledger : s.Ledger
  leftMain : s.phase.leftMain = true
  sent : u.sent <+: s.sent
  executed : s.phase.ended = true → u.sent <+: s.executed.map Prod.fst

theorem Drained.step {u : RunState G} (h : Drained u s) {l : LoopLabel K X} (hl : l.Undropped)
    (hs : Step E s l s') : Drained u s' := by
  have hledger := h.ledger.step hl hs
  have hleft := h.leftMain
  cases hs with
  | initialized hp | failed hp | resumed hp | stopped hp | paused hp | received hp | closed hp =>
    rw [hp] at hleft
    cases hleft
  | @unfinished stage packet readings graph hp hm he =>
    rw [hp] at hleft
    obtain rfl : stage = .drain := by cases stage <;> first | rfl | cases hleft
    exact ⟨hledger, rfl, h.sent, fun hend => by cases hend⟩
  | @executed stage packet readings graph outcome hp hm he =>
    rw [hp] at hleft
    obtain rfl : stage = .drain := by cases stage <;> first | rfl | cases hleft
    exact ⟨hledger, Stage.leftMain_after outcome, h.sent, fun hend => by simp at hend⟩
  | @delivered stage output sink hp ho hsend =>
    rw [hp] at hleft
    obtain rfl : stage = .drain := by cases stage <;> first | rfl | cases hleft
    exact ⟨hledger, rfl, h.sent, fun hend => by cases hend⟩
  | refused hp ho => rw [h.ledger.sinkOpen] at ho; cases ho
  | drained hp hr => exact ⟨hledger, rfl, h.sent, fun hend => by cases hend⟩
  | emptied hp hr =>
    refine ⟨hledger, rfl, h.sent, fun _ => ?_⟩
    -- nothing is buffered or in hand any more
    have hsent := h.ledger.sent
    have htaken := h.ledger.taken
    rw [Channel.tryRecv_eq_none.mp hr, List.append_nil] at hsent
    rw [hp, show Phase.drain.inHand = [] from rfl, List.append_nil] at htaken
    rw [← htaken, ← hsent]
    exact h.sent
  | shutDown hp => exact ⟨hledger, rfl, h.sent, fun _ => h.executed (by rw [hp]; rfl)⟩
  | expiredDrain | expiredShutdown => exact hl.elim
  | @outside a _ hd =>
    have hu := undisturbed hd
    obtain ⟨packets, -, hsent⟩ := hu.source
    refine ⟨hledger, hu.phase ▸ hleft, h.sent.trans (hsent ▸ List.prefix_append _ _), fun hend => ?_⟩
    rw [hu.executed]
    exact h.executed (hu.phase ▸ hend)

/-- The loop loses, duplicates and reorders nothing. -/
theorem run_with_timeout_ledger {graph : G} {source sink : Channel Packet} {pause : GraphPause}
    {ls : List (LoopLabel K X)} (h : run (step E) (init graph source sink pause) ls = some s)
    (hls : ∀ l ∈ ls, l.Undropped) :
    s.taken <+: s.sent ∧ s.executed.map Prod.fst ++ s.phase.inHand = s.taken ∧
      s.delivered ++ s.phase.outbound = s.executed.filterMap (·.2.output) ∧
      ∀ ls₁ l ls₂ u v, ls = ls₁ ++ l :: ls₂ → run (step E) (init graph source sink pause) ls₁ = some u →
        u.phase.leftMain = false → u.step E l = some v → v.phase = .drain → s.phase.ended = true →
        v.taken ++ v.source.buffer <+: s.executed.map Prod.fst := by
  have hstep : ∀ (s : RunState G) (l : LoopLabel K X) (t : RunState G), s.Ledger → l.Undropped →
      s.step E l = some t → t.Ledger := fun _ _ _ hled hl hst => hled.step hl (step_cases hst)
  have hrun : ∀ {ms t}, run (step E) (init graph source sink pause) ms = some t → (∀ l ∈ ms, l.Undropped) →
      t.Ledger := fun hms hu => run_preserves hstep (ledger_init _ _ _ _) (along_of_forall fun l hl _ => hu l hl) hms
  have hledger := hrun h hls
  refine ⟨hledger.sent ▸ List.prefix_append _ _, hledger.taken.symm, hledger.delivered.symm, ?_⟩
  rintro ls₁ l ls₂ u v rfl hu - hv hdrain hend
  obtain ⟨u', hu', hrest⟩ := run_append.mp h
  obtain rfl : u = u' := Option.some.inj (hu.symm.trans hu')
  obtain ⟨v', hv', hrest⟩ := run_cons.mp hrest
  obtain rfl : v = v' := Option.some.inj (hv.symm.trans hv')
  have hvledger : v.Ledger := hstep u l v (hrun hu fun m hm => hls m (List.mem_append_left _ hm))
    (hls l (List.mem_append_right _ List.mem_cons_self)) hv
  have hdrained : Drained v v := ⟨hvledger, by rw [hdrain]; rfl, List.prefix_rfl, fun hend => by
    rw [hdrain] at hend
    cases hend⟩
  have := run_preserves (P := Drained v) (fun s l t hd hl hst => hd.step hl (step_cases hst)) hdrained
    (along_of_forall fun m hm _ => hls m (List.mem_append_right _ (List.mem_cons_of_mem l hm))) hrest
  exact hvledger.sent ▸ this.executed hend

def relayRun : List (LoopLabel (List Reading) (Edit StubNode)) :=
  [.own .poll, .own .poll, .own .poll, .own (.execute [⟨0, 0⟩, ⟨0, 0⟩]), .own .poll,
    .outside .cancel, .own .poll, .own .poll, .own .poll, .own (.execute [⟨0, 0⟩, ⟨0, 0⟩]), .own .poll, .own .poll]

theorem run_with_timeout_ledger_relay : ∃ s, run (step relayEngine) relayState relayRun = some s ∧
    (s.taken <+: s.sent ∧ s.executed.map Prod.fst ++ s.phase.inHand = s.taken ∧
      s.delivered ++ s.phase.outbound = s.executed.filterMap (·.2.output) ∧
      ∀ ls₁ l ls₂ u v, relayRun = ls₁ ++ l :: ls₂ →
        run (step relayEngine) relayState ls₁ = some u →
        u.phase.leftMain = false → u.step relayEngine l = some v → v.phase = .drain → s.phase.ended = true →
        v.taken ++ v.source.buffer <+: s.executed.map Prod.fst) :=
  ⟨_, rfl, run_with_timeout_ledger (E := relayEngine)
    (show run (step relayEngine) relayState relayRun = some _ from rfl)
    (by simp [relayRun, LoopLabel.Undropped])⟩

end RunState
end Nyarix
