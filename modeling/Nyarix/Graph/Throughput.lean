import Mathlib.Algebra.Order.Field.Rat
import Mathlib.Data.BitVec
import Nyarix.Lib.SlidingWindow
import Nyarix.Metrics
import Nyarix.PacketCodec

/-! Throughput over a sliding window, of everything and of each flow: bytes are recorded at the time of the
call, and a rate is read at any later time. -/

namespace Nyarix

/-- A rate in bytes per second. Floating-point numbers are taken as exact, but division by zero is theirs. -/
inductive Rate where
  | finite (value : ℚ)
  | infinite
  | notANumber
  deriving DecidableEq

namespace Rate

def ofDivision (bytes : Nat) (duration : Duration) : Rate :=
  if duration = 0 then if bytes = 0 then .notANumber else .infinite
  else .finite (bytes / (duration / 1000000000))

def le : Rate → Rate → Bool
  | .finite a, .finite b => a ≤ b
  | .finite _, .infinite => true
  | .infinite, .infinite => true
  | _, _ => false

/-- The cast to an integer cuts off the fraction and saturates. -/
def toI64 : Rate → Int64
  | .finite value => .ofIntClamp (value.num.tdiv value.den)
  | .infinite => .maxValue
  | .notANumber => 0

end Rate

def rateFromWindow (window : List (Instant × BitVec 64)) (windowDuration : Duration) : Rate :=
  match window.head?, window.getLast? with
  | some first, some last =>
    let totalBytes : BitVec 64 := (window.map (·.2)).sum
    let elapsed := last.1 - first.1
    let denom :=
      if windowDuration < elapsed then windowDuration else if elapsed = 0 then windowDuration else elapsed
    .ofDivision totalBytes.toNat denom
  | _, _ => .finite 0

def pruneWindow (window : List (Instant × BitVec 64)) (cutoff : Instant) : List (Instant × BitVec 64) :=
  window.dropWhile fun entry => entry.1 < cutoff

structure ThroughputTracker where
  window : Duration
  total : List (Instant × BitVec 64)
  flows : HashMap FlowId (List (Instant × BitVec 64))
  metrics : Option MetricRegistry

namespace ThroughputTracker

def new : ThroughputTracker := ⟨5000000000, [], ∅, none⟩

def withMetrics (t : ThroughputTracker) (metrics : MetricRegistry) : ThroughputTracker :=
  { t with metrics := some metrics }

def withWindow (t : ThroughputTracker) (window : Duration) : ThroughputTracker := { t with window }

def totalThroughput (t : ThroughputTracker) : Rate := rateFromWindow t.total t.window

def flowThroughput (t : ThroughputTracker) (flowId : FlowId) : Rate :=
  match t.flows.lookup flowId with
  | some window => rateFromWindow window t.window
  | none => .finite 0

def prune (t : ThroughputTracker) (now : Instant) : ThroughputTracker × Unwind Unit :=
  match subDuration now t.window with
  | .panicked reason => (t, .panicked reason)
  | .returned cutoff => ({ t with
      total := pruneWindow t.total cutoff
      flows := HashMap.mapValues (fun _ window => pruneWindow window cutoff) t.flows }, .returned ())

def exportGauges (t : ThroughputTracker) : ThroughputTracker :=
  match t.metrics with
  | none => t
  | some metrics =>
    { t with metrics := some (metrics.gauge "flow" "throughput_bytes_per_sec" (·.set t.totalThroughput.toI64)) }

def pushBack (t : ThroughputTracker) (flowId : FlowId) (bytes : BitVec 64) (now : Instant) : ThroughputTracker :=
  { t with total := t.total ++ [(now, bytes)], flows := HashMap.push flowId (now, bytes) t.flows }

def record (t : ThroughputTracker) (flowId : FlowId) (bytes : BitVec 64) (now : Instant) :
    ThroughputTracker × Unwind Unit :=
  match (t.pushBack flowId bytes now).prune now with
  | (t, .panicked reason) => (t, .panicked reason)
  | (t, .returned ()) => (t.exportGauges, .returned ())

end ThroughputTracker

structure ByteRecord where
  flowId : FlowId
  bytes : BitVec 64
  now : Instant
  deriving DecidableEq

def ByteRecord.entry (r : ByteRecord) : Instant × BitVec 64 := (r.now, r.bytes)

namespace ThroughputTracker
open SlidingWindow

def run (t : ThroughputTracker) (records : List ByteRecord) : ThroughputTracker :=
  records.foldl (fun t r => (t.record r.flowId r.bytes r.now).1) t

def flowWindow (t : ThroughputTracker) (flowId : FlowId) : List (Instant × BitVec 64) :=
  (t.flows.lookup flowId).getD []

theorem flowThroughput_eq (t : ThroughputTracker) (flowId : FlowId) :
    t.flowThroughput flowId = rateFromWindow (t.flowWindow flowId) t.window := by
  unfold flowThroughput flowWindow
  cases t.flows.lookup flowId with
  | none => rfl
  | some window => rfl

theorem exportGauges_eq (t : ThroughputTracker) : ∃ metrics, t.exportGauges = { t with metrics } := by
  unfold exportGauges
  split
  · exact ⟨t.metrics, rfl⟩
  · exact ⟨_, rfl⟩

theorem flowWindow_mapValues (flows : HashMap FlowId (List (Instant × BitVec 64))) (cutoff : Instant)
    (flowId : FlowId) : ((HashMap.mapValues (fun _ window => pruneWindow window cutoff) flows).lookup flowId).getD [] =
      pruneWindow ((flows.lookup flowId).getD []) cutoff := by
  rw [HashMap.lookup_mapValues]
  cases flows.lookup flowId with
  | none => rfl
  | some window => rfl

theorem prune_windows (t : ThroughputTracker) (now : Instant) :
    (t.prune now).1.window = t.window ∧
      (t.prune now).1.total = pruneWindow t.total (now - t.window) ∧
      ∀ flowId, (t.prune now).1.flowWindow flowId = pruneWindow (t.flowWindow flowId) (now - t.window) := by
  have hzero : ∀ l, pruneWindow l 0 = l := fun l => by
    cases l <;> rfl
  unfold prune subDuration
  by_cases hwindow : t.window ≤ now
  · rw [if_pos hwindow]
    exact ⟨rfl, rfl, fun flowId => flowWindow_mapValues t.flows _ flowId⟩
  · have hcutoff : now - t.window = 0 := Nat.sub_eq_zero_of_le (Nat.le_of_not_le hwindow)
    rw [if_neg hwindow, hcutoff, hzero]
    exact ⟨rfl, rfl, fun flowId => (hzero _).symm⟩

theorem flowWindow_pushBack (t : ThroughputTracker) (r : ByteRecord) (flowId : FlowId) :
    (t.pushBack r.flowId r.bytes r.now).flowWindow flowId =
      if r.flowId = flowId then t.flowWindow flowId ++ [r.entry] else t.flowWindow flowId := by
  show ((HashMap.push r.flowId (r.now, r.bytes) t.flows).lookup flowId).getD [] = _
  rw [HashMap.lookup_push]
  by_cases hflow : r.flowId = flowId
  · rw [if_pos hflow, if_pos hflow.symm, hflow]
    rfl
  · rw [if_neg hflow, if_neg (Ne.symm hflow)]
    rfl

theorem record_windows (t : ThroughputTracker) (r : ByteRecord) :
    (t.record r.flowId r.bytes r.now).1.window = t.window ∧
      (t.record r.flowId r.bytes r.now).1.total = pruneWindow (t.total ++ [r.entry]) (r.now - t.window) ∧
      ∀ flowId, (t.record r.flowId r.bytes r.now).1.flowWindow flowId = pruneWindow
        (if r.flowId = flowId then t.flowWindow flowId ++ [r.entry] else t.flowWindow flowId) (r.now - t.window) := by
  obtain ⟨hwindow, htotal, hflows⟩ := (t.pushBack r.flowId r.bytes r.now).prune_windows r.now
  have hrecord : ∃ metrics, (t.record r.flowId r.bytes r.now).1 =
      { ((t.pushBack r.flowId r.bytes r.now).prune r.now).1 with metrics } := by
    unfold record
    rcases (t.pushBack r.flowId r.bytes r.now).prune r.now with ⟨pruned, ⟨⟩ | reason⟩
    · exact pruned.exportGauges_eq
    · exact ⟨pruned.metrics, rfl⟩
  obtain ⟨metrics, hmetrics⟩ := hrecord
  rw [hmetrics]
  exact ⟨hwindow, htotal, fun flowId => (hflows flowId).trans (by rw [flowWindow_pushBack]; rfl)⟩

variable {records : List ByteRecord} {window : Duration} {metrics : Option MetricRegistry}

def fresh (window : Duration) (metrics : Option MetricRegistry) : ThroughputTracker :=
  { new.withWindow window with metrics }

/-- The records that the last one left in the window. -/
def kept (window : Duration) (records : List ByteRecord) : List ByteRecord :=
  records.filter (recent ByteRecord.now (· - window) records)

theorem run_concat (t : ThroughputTracker) (records : List ByteRecord) (r : ByteRecord) :
    t.run (records ++ [r]) = ((t.run records).record r.flowId r.bytes r.now).1 := by
  rw [run, List.foldl_append]
  rfl

theorem pruneWindow_map (l : List ByteRecord) (now : Instant) :
    pruneWindow (l.map ByteRecord.entry) (now - window) =
      (SlidingWindow.prune ByteRecord.now (· - window) now l).map ByteRecord.entry :=
  List.dropWhile_map

theorem run_observe (window : Duration) (metrics : Option MetricRegistry) (records : List ByteRecord) :
    ((fresh window metrics).run records).window = window ∧
      ((fresh window metrics).run records).total =
        (records.foldl (observe ByteRecord.now (· - window) fun _ => true) []).map ByteRecord.entry ∧
      ∀ flowId, ((fresh window metrics).run records).flowWindow flowId =
        (records.foldl (observe ByteRecord.now (· - window) (·.flowId = flowId)) []).map ByteRecord.entry := by
  induction records using List.reverseRecOn with
  | nil => exact ⟨rfl, rfl, fun _ => rfl⟩
  | append_singleton records r ih =>
    obtain ⟨hwindow, htotal, hflows⟩ := ih
    obtain ⟨hwindow', htotal', hflows'⟩ := ((fresh window metrics).run records).record_windows r
    rw [hwindow] at hwindow' htotal' hflows'
    simp only [run_concat, List.foldl_append, List.foldl_cons, List.foldl_nil, observe, ← pruneWindow_map]
    refine ⟨hwindow', ?_, fun flowId => ?_⟩
    · rw [htotal', htotal, if_pos trivial, List.map_append]
      rfl
    · rw [hflows', hflows]
      by_cases hflow : r.flowId = flowId
      · rw [if_pos hflow, if_pos (decide_eq_true hflow), List.map_append]
        rfl
      · rw [if_neg hflow, if_neg (by simpa using hflow)]

theorem run_windows (window : Duration) (metrics : Option MetricRegistry)
    (horder : (records.map ByteRecord.now).Pairwise (· ≤ ·)) :
    ((fresh window metrics).run records).totalThroughput =
        rateFromWindow ((kept window records).map ByteRecord.entry) window ∧
      ∀ flowId, ((fresh window metrics).run records).flowThroughput flowId =
        rateFromWindow (((kept window records).filter (·.flowId = flowId)).map ByteRecord.entry) window := by
  have hcutoff : Monotone fun now : Instant => now - window := fun _ _ h => Nat.sub_le_sub_right h window
  obtain ⟨hwindow, htotal, hflows⟩ := run_observe window metrics records
  constructor
  · rw [totalThroughput, hwindow, htotal, foldl_observe hcutoff horder, List.filter_true]
    rfl
  · intro flowId
    rw [flowThroughput_eq, hwindow, hflows, foldl_observe hcutoff horder, List.filter_comm]
    rfl

end ThroughputTracker

/-- What a rate over entries at these times divides by: the time from the first to the last, or the window. -/
def span (window : Duration) (times : List Instant) : Duration :=
  let elapsed := times.getLast?.getD 0 - times.head?.getD 0
  if window < elapsed then window else if elapsed = 0 then window else elapsed

theorem rateFromWindow_of_ne_nil {entries : List (Instant × BitVec 64)} (h : entries ≠ []) (window : Duration) :
    rateFromWindow entries window =
      .ofDivision (entries.map Prod.snd).sum.toNat (span window (entries.map Prod.fst)) := by
  rw [rateFromWindow, span, List.getLast?_map, List.head?_map, List.head?_eq_some_head h,
    List.getLast?_eq_some_getLast h]
  rfl

theorem Rate.ofDivision_ne (duration : Duration) : Rate.ofDivision 0 duration ≠ Rate.ofDivision 1 duration := by
  by_cases hzero : duration = 0
  · rw [ofDivision, ofDivision, if_pos hzero, if_pos hzero, if_pos rfl, if_neg one_ne_zero]
    exact Rate.noConfusion
  · rw [ofDivision, ofDivision, if_neg hzero, if_neg hzero, Nat.cast_zero, zero_div, Nat.cast_one]
    have hduration : (0 : ℚ) < duration := Nat.cast_pos.mpr (Nat.pos_of_ne_zero hzero)
    have hrate : (0 : ℚ) < 1 / (duration / 1000000000) := div_pos one_pos (div_pos hduration (by norm_num))
    exact fun h => hrate.ne (Rate.finite.inj h)

namespace ThroughputTracker
open SlidingWindow

def Inside (window : Duration) (t now : Instant) : Prop := t - window ≤ now ∧ now ≤ t

/-- The same records, but for the bytes of those outside the window. -/
def SameInside (window : Duration) (t : Instant) : List ByteRecord → List ByteRecord → Prop :=
  List.Forall₂ fun r r' => r.flowId = r'.flowId ∧ r.now = r'.now ∧ (Inside window t r.now → r.bytes = r'.bytes)

/-- What is read at `t` takes only the bytes in the window into account, and there may be none. -/
structure Slides (window : Duration) (metrics : Option MetricRegistry) (records : List ByteRecord) (t : Instant) :
    Prop where
  total : ∀ records', SameInside window t records records' →
    ((fresh window metrics).run records').totalThroughput = ((fresh window metrics).run records).totalThroughput
  flow : ∀ records', SameInside window t records records' → ∀ flowId,
    ((fresh window metrics).run records').flowThroughput flowId =
      ((fresh window metrics).run records).flowThroughput flowId
  idle : (∀ r ∈ records, ¬ Inside window t r.now) →
    ((fresh window metrics).run records).totalThroughput = .finite 0 ∧
      ∀ flowId, ((fresh window metrics).run records).flowThroughput flowId = .finite 0

variable {records records' : List ByteRecord} {window : Duration} {metrics : Option MetricRegistry} {t : Instant}

theorem SameInside.times (h : SameInside window t records records') :
    records'.map ByteRecord.now = records.map ByteRecord.now := by
  induction h with
  | nil => rfl
  | cons hr _ ih => rw [List.map_cons, List.map_cons, ih, hr.2.1]

theorem SameInside.entries (h : SameInside window t records records') {picks picks' : ByteRecord → Bool}
    (hpicks : ∀ r r', r.flowId = r'.flowId → r.now = r'.now → picks r = picks' r')
    (hinside : ∀ r ∈ records, picks r → Inside window t r.now) :
    (records'.filter picks').map ByteRecord.entry = (records.filter picks).map ByteRecord.entry := by
  induction h with
  | nil => rfl
  | @cons r r' records records' hr _ ih =>
    have hrest := ih fun r hr => hinside r (List.mem_cons_of_mem _ hr)
    obtain ⟨hflow, hnow, hbytes⟩ := hr
    rw [List.filter_cons, List.filter_cons, ← hpicks r r' hflow hnow]
    by_cases hpick : picks r
    · have hentry : r'.entry = r.entry := by
        rw [ByteRecord.entry, ByteRecord.entry, hnow, hbytes (hinside r List.mem_cons_self hpick)]
      rw [if_pos hpick, if_pos hpick, List.map_cons, List.map_cons, hrest, hentry]
    · rw [if_neg hpick, if_neg hpick, hrest]

theorem slides_of_inside (horder : (records.map ByteRecord.now).Pairwise (· ≤ ·))
    (hinside : ∀ r ∈ kept window records, Inside window t r.now) : Slides window metrics records t := by
  have hkept : ∀ r ∈ records, recent ByteRecord.now (· - window) records r → Inside window t r.now :=
    fun r hr hrecent => hinside r (List.mem_filter.mpr ⟨hr, hrecent⟩)
  obtain ⟨htotal, hflow⟩ := run_windows window metrics horder
  have hsame : ∀ records', SameInside window t records records' →
      ((fresh window metrics).run records').totalThroughput = ((fresh window metrics).run records).totalThroughput ∧
        ∀ flowId, ((fresh window metrics).run records').flowThroughput flowId =
          ((fresh window metrics).run records).flowThroughput flowId := by
    intro records' h
    have hrecent : ∀ r r' : ByteRecord, r.now = r'.now →
        recent ByteRecord.now (· - window) records r = recent ByteRecord.now (· - window) records' r' :=
      fun r r' hnow => recent_congr h.times.symm hnow
    obtain ⟨htotal', hflow'⟩ := run_windows window metrics (h.times ▸ horder)
    constructor
    · rw [htotal', htotal, kept, kept, h.entries (fun r r' _ hnow => hrecent r r' hnow) hkept]
    · intro flowId
      rw [hflow', hflow, kept, kept, List.filter_filter, List.filter_filter]
      refine congrArg (rateFromWindow · window) (h.entries (fun r r' hflow hnow => ?_) fun r hr hpick => ?_)
      · rw [hrecent r r' hnow, hflow]
      · exact hkept r hr (Bool.and_eq_true_iff.mp hpick).2
  refine ⟨fun records' h => (hsame records' h).1, fun records' h => (hsame records' h).2, fun hidle => ?_⟩
  have hnil : kept window records = [] :=
    List.filter_eq_nil_iff.mpr fun r hr hrecent => hidle r hr (hkept r hr hrecent)
  rw [htotal, hnil]
  exact ⟨rfl, fun flowId => by rw [hflow, hnil]; rfl⟩

theorem total_of_bytes (metrics : Option MetricRegistry) {before after : List ByteRecord} {r : ByteRecord}
    (horder : ((before ++ r :: after).map ByteRecord.now).Pairwise (· ≤ ·))
    (hrecent : recent ByteRecord.now (· - window) (before ++ r :: after) r) :
    ∃ duration rest, ∀ bytes, ((fresh window metrics).run (before ++ { r with bytes } :: after)).totalThroughput =
      .ofDivision (rest + bytes).toNat duration := by
  let others := fun l : List ByteRecord => l.filter (recent ByteRecord.now (· - window) (before ++ r :: after))
  have htimes : ∀ bytes, (before ++ r :: after).map ByteRecord.now =
      (before ++ { r with bytes } :: after).map ByteRecord.now := by
    intro bytes
    rw [List.map_append, List.map_append]
    rfl
  have hkept : ∀ bytes, kept window (before ++ { r with bytes } :: after) =
      others before ++ { r with bytes } :: others after := by
    intro bytes
    have hpicked : recent ByteRecord.now (· - window) (before ++ r :: after) { r with bytes } = true := hrecent
    rw [kept, List.filter_congr fun a _ => (recent_congr (htimes bytes) rfl).symm, List.filter_append,
      List.filter_cons, if_pos hpicked]
  refine ⟨span window ((others before ++ r :: others after).map ByteRecord.now),
    ((others before).map ByteRecord.bytes).sum + ((others after).map ByteRecord.bytes).sum, fun bytes => ?_⟩
  have hspan : ((others before ++ { r with bytes } :: others after).map ByteRecord.entry).map Prod.fst =
      (others before ++ r :: others after).map ByteRecord.now := by
    rw [List.map_map, List.map_append, List.map_append]
    rfl
  have hsum : (((others before ++ { r with bytes } :: others after).map ByteRecord.entry).map Prod.snd).sum =
      ((others before).map ByteRecord.bytes).sum + ((others after).map ByteRecord.bytes).sum + bytes := by
    rw [List.map_map, List.map_append, List.sum_append, List.map_cons, List.sum_cons, BitVec.add_assoc,
      BitVec.add_comm _ bytes]
    rfl
  rw [(run_windows window metrics (htimes bytes ▸ horder)).1, hkept, rateFromWindow_of_ne_nil (by simp), hspan, hsum]

theorem Slides.inside (h : Slides window metrics records t) (horder : (records.map ByteRecord.now).Pairwise (· ≤ ·))
    {r : ByteRecord} (hr : r ∈ kept window records) : Inside window t r.now := by
  by_contra hout
  obtain ⟨hmem, hrecent⟩ := List.mem_filter.mp hr
  obtain ⟨before, after, rfl⟩ := List.append_of_mem hmem
  obtain ⟨duration, rest, htotal⟩ := total_of_bytes metrics horder hrecent
  have hsame : ∀ bytes, SameInside window t (before ++ r :: after) (before ++ { r with bytes } :: after) := by
    intro bytes
    have hrefl : ∀ l, SameInside window t l l := fun l => List.forall₂_same.mpr fun _ _ => ⟨rfl, rfl, fun _ => rfl⟩
    exact List.rel_append (hrefl before) (.cons ⟨rfl, rfl, fun hin => (hout hin).elim⟩ (hrefl after))
  have hread : ∀ bytes bytes' : BitVec 64,
      Rate.ofDivision (rest + bytes).toNat duration = Rate.ofDivision (rest + bytes').toNat duration := by
    intro bytes bytes'
    rw [← htotal bytes, ← htotal bytes', h.total _ (hsame bytes), h.total _ (hsame bytes')]
  have hzero : rest + -rest = 0 := BitVec.add_right_neg rest
  have hone : rest + (-rest + 1) = 1 := by
    rw [← BitVec.add_assoc, hzero]
    rfl
  have hsum := hread (-rest) (-rest + 1)
  rw [hzero, hone] at hsum
  exact Rate.ofDivision_ne duration hsum

/-- The window slides up to `t` exactly as long as no record that the last one left in it has left since. -/
theorem slides_iff (horder : (records.map ByteRecord.now).Pairwise (· ≤ ·)) (hlast : ∀ r ∈ records, r.now ≤ t) :
    Slides window metrics records t ↔ ∀ r ∈ kept window records, t - window ≤ r.now := by
  constructor
  · intro h r hr
    exact (h.inside horder hr).1
  · intro h
    exact slides_of_inside horder fun r hr => ⟨h r hr, hlast r (List.mem_filter.mp hr).1⟩

theorem slides_iff_two_records : Slides 5 none [⟨⟨1⟩, 10, 6⟩, ⟨⟨2⟩, 20, 9⟩] 11 :=
  (slides_iff (by decide) (by decide)).mpr (by decide)

theorem stale_byte_is_read :
    (∀ r ∈ [(⟨⟨1⟩, 5, 10000000000⟩ : ByteRecord)], ¬ Inside 5000000000 20000000000 r.now) ∧
      ((fresh 5000000000 none).run [⟨⟨1⟩, 5, 10000000000⟩]).totalThroughput = .finite 1 ∧
      ¬ Slides 5000000000 none [⟨⟨1⟩, 5, 10000000000⟩] 20000000000 := by
  have hout : ∀ r ∈ [(⟨⟨1⟩, 5, 10000000000⟩ : ByteRecord)], ¬ Inside 5000000000 20000000000 r.now := by
    simp [Inside]
  have hread : ((fresh 5000000000 none).run [⟨⟨1⟩, 5, 10000000000⟩]).totalThroughput = .finite 1 := by
    decide +kernel
  refine ⟨hout, hread, fun h => ?_⟩
  have hidle := (h.idle hout).1
  rw [hread] at hidle
  cases hidle

end ThroughputTracker
end Nyarix
