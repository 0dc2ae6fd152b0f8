import Nyarix.Lib.Channel

/-! Pause and resume signals, as the execution loop polls them. Polling an async function
runs it to its end or to a wait; both functions here wait at most once for each change. -/

namespace Nyarix

abbrev GraphPause := Watch Bool

inductive Poll where
  | ready | pending
  deriving DecidableEq

namespace GraphPause

def pause (w : GraphPause) : GraphPause := w.send true

def resume (w : GraphPause) : GraphPause := w.send false

def Paused (w : GraphPause) : Prop := w.value = true ∧ 0 < w.senders

instance (w : GraphPause) : Decidable w.Paused := inferInstanceAs (Decidable (_ ∧ _))

/-- One poll of `wait_until_resumed`, for so many rounds of its loop. -/
def waitUntilResumed : Nat → GraphPause → Poll × GraphPause
  | 0, w => (.pending, w)
  | rounds + 1, w =>
    if w.value then
      match w.changed with
      | (.ok, w) => waitUntilResumed rounds w
      | (.err, w) => (.ready, w)
      | (.pending, w) => (.pending, w)
    else (.ready, w)

/-- One poll of `wait_until_paused`, for so many rounds of its loop; without handles it waits
for ever. -/
def waitUntilPaused : Nat → GraphPause → Poll × GraphPause
  | 0, w => (.pending, w)
  | rounds + 1, w =>
    if w.value then (.ready, w)
    else
      match w.changed with
      | (.ok, w) => waitUntilPaused rounds w
      | (.err, w) | (.pending, w) => (.pending, w)

/-- A poll sees at most one change, so its second round is its last. -/
def rounds : Nat := 2

theorem waitUntilResumed_eq (w : GraphPause) : waitUntilResumed rounds w =
    if w.value then (if w.senders = 0 then .ready else .pending, w.saw) else (.ready, w) := by
  by_cases hv : w.value
  · have hlast : waitUntilResumed 1 w.saw = (if w.senders = 0 then .ready else .pending, w.saw) := by
      rw [waitUntilResumed, Watch.saw_value, if_pos hv, Watch.changed_saw]
      by_cases hs : w.senders = 0 <;> simp only [hs, if_true, if_false]
    rw [rounds, waitUntilResumed, if_pos hv, if_pos hv, Watch.changed_eq]
    by_cases hseen : w.seen = w.version
    · by_cases hs : w.senders = 0 <;> simp only [hseen, hs, if_true, if_false]
    · simp only [hseen, if_false, hlast]
  · rw [rounds, waitUntilResumed, if_neg hv, if_neg hv]

theorem waitUntilPaused_eq (w : GraphPause) : waitUntilPaused rounds w =
    if w.value then (.ready, w) else (.pending, w.saw) := by
  by_cases hv : w.value
  · rw [rounds, waitUntilPaused, if_pos hv, if_pos hv]
  · have hlast : waitUntilPaused 1 w.saw = (.pending, w.saw) := by
      rw [waitUntilPaused, Watch.saw_value, if_neg hv, Watch.changed_saw]
      by_cases hs : w.senders = 0 <;> simp only [hs, if_true, if_false]
    rw [rounds, waitUntilPaused, if_neg hv, if_neg hv, Watch.changed_eq]
    by_cases hseen : w.seen = w.version
    · by_cases hs : w.senders = 0 <;> simp only [hseen, hs, if_true, if_false]
    · simp only [hseen, if_false, hlast]

end GraphPause
end Nyarix
