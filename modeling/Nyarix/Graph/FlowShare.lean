import Mathlib.Algebra.Order.BigOperators.Group.List
import Mathlib.Algebra.Order.Field.Basic
import Nyarix.Graph.Throughput

/-! When a flow is no faster than the whole. Each rate is over the time that its own records span, so a flow
recorded over a part of that time only can be ahead, and then some bytes put it ahead. -/

namespace Nyarix

theorem Rate.ofDivision_le_iff {a b : Nat} {c d : Duration} (hc : 0 < c) (hd : 0 < d) :
    (Rate.ofDivision a c).le (.ofDivision b d) ↔ a * d ≤ b * c := by
  have hc' : (0 : ℚ) < c / 1000000000 := div_pos (Nat.cast_pos.mpr hc) (by norm_num)
  have hd' : (0 : ℚ) < d / 1000000000 := div_pos (Nat.cast_pos.mpr hd) (by norm_num)
  rw [ofDivision, ofDivision, if_neg hc.ne', if_neg hd.ne', le, decide_eq_true_eq, div_le_div_iff₀ hc' hd',
    mul_div_assoc', mul_div_assoc', div_le_div_iff_of_pos_right (by norm_num)]
  exact_mod_cast Iff.rfl

theorem Rate.zero_le_ofDivision {b : Nat} {d : Duration} (hd : 0 < d) : (finite 0).le (.ofDivision b d) := by
  rw [ofDivision, if_neg hd.ne', le, decide_eq_true_eq]
  exact div_nonneg (Nat.cast_nonneg b) (div_nonneg (Nat.cast_nonneg d) (by norm_num))

theorem Rate.ofDivision_zero_le_iff {a b : Nat} : (Rate.ofDivision a 0).le (.ofDivision b 0) ↔ a ≠ 0 ∧ b ≠ 0 := by
  by_cases ha : a = 0 <;> by_cases hb : b = 0 <;> simp [ofDivision, le, ha, hb]

theorem Rate.zero_le_ofDivision_zero_iff {b : Nat} : (finite 0).le (.ofDivision b 0) ↔ b ≠ 0 := by
  by_cases hb : b = 0 <;> simp [ofDivision, le, hb]

namespace ThroughputTracker
open SlidingWindow

def bytesOf (records : List ByteRecord) : Nat := (records.map ByteRecord.bytes).sum.toNat

def elapsed (records : List ByteRecord) : Duration :=
  (records.getLast?.map ByteRecord.now).getD 0 - (records.head?.map ByteRecord.now).getD 0

/-- The time that the records stand for: all of the window if they are of one instant. -/
def timeOf (window : Duration) (records : List ByteRecord) : Duration :=
  if elapsed records = 0 then window else elapsed records

variable {records part : List ByteRecord} {window : Duration} {metrics : Option MetricRegistry}

theorem elapsed_le (hpart : part.Sublist (kept window records))
    (horder : (records.map ByteRecord.now).Pairwise (· ≤ ·)) : elapsed part ≤ window := by
  by_cases hnil : part = []
  · rw [hnil]
    exact Nat.zero_le _
  · have hkept : ∀ r ∈ part, r ∈ records ∧ recent ByteRecord.now (· - window) records r :=
      fun r hr => List.mem_filter.mp (hpart.subset hr)
    obtain ⟨hfirst, hrecent⟩ := hkept _ (List.head_mem hnil)
    have hlast := (hkept _ (List.getLast_mem hnil)).1
    have hrecords := List.getLast?_eq_some_getLast (List.ne_nil_of_mem hfirst)
    rw [recent, hrecords] at hrecent
    have hcutoff := of_decide_eq_true hrecent
    have hend := le_getLast horder hlast hrecords
    rw [elapsed, List.head?_eq_some_head hnil, List.getLast?_eq_some_getLast hnil]
    show (part.getLast hnil).now - (part.head hnil).now ≤ window
    exact Nat.sub_le_iff_le_add'.mpr (hend.trans (Nat.sub_le_iff_le_add.mp hcutoff))

theorem span_map_now (hpart : part.Sublist (kept window records))
    (horder : (records.map ByteRecord.now).Pairwise (· ≤ ·)) :
    span window (part.map ByteRecord.now) = timeOf window part := by
  have hle := elapsed_le hpart horder
  rw [span, List.getLast?_map, List.head?_map]
  show (if window < elapsed part then _ else _) = _
  rw [if_neg (Nat.not_lt.mpr hle), timeOf]
  rfl

theorem rate_kept (hpart : part.Sublist (kept window records))
    (horder : (records.map ByteRecord.now).Pairwise (· ≤ ·)) :
    rateFromWindow (part.map ByteRecord.entry) window =
      if part = [] then .finite 0 else .ofDivision (bytesOf part) (timeOf window part) := by
  split_ifs with hnil
  · rw [hnil]
    rfl
  · rw [rateFromWindow_of_ne_nil (by simpa using hnil), List.map_map, List.map_map, bytesOf,
      ← span_map_now hpart horder]
    rfl

theorem timeOf_pos (hwindow : 0 < window) : 0 < timeOf window part := by
  unfold timeOf
  split_ifs with hzero
  · exact hwindow
  · exact Nat.pos_of_ne_zero hzero

theorem timeOf_eq_zero (hwindow : window = 0) (hpart : part.Sublist (kept window records))
    (horder : (records.map ByteRecord.now).Pairwise (· ≤ ·)) : timeOf window part = 0 := by
  have hle := elapsed_le hpart horder
  rw [hwindow] at hle
  rw [timeOf, if_pos (Nat.le_zero.mp hle), hwindow]

def keptOf (window : Duration) (records : List ByteRecord) (flowId : FlowId) : List ByteRecord :=
  (kept window records).filter (·.flowId = flowId)

/-- The flow's share of the bytes is no more than its share of the time. -/
def Proportionate (window : Duration) (part whole : List ByteRecord) : Prop :=
  bytesOf part * timeOf window whole ≤ bytesOf whole * timeOf window part

def Fits (records : List ByteRecord) : Prop := Tally.sumOver (fun r => r.bytes.toNat) records < 2 ^ 64

/-- The part lies at one instant, or spans all the time that the whole does. -/
def SpansAlike (part whole : List ByteRecord) : Prop := elapsed part = 0 ∨ elapsed part = elapsed whole

instance instDecidableSpansAlike (part whole : List ByteRecord) : Decidable (SpansAlike part whole) :=
  inferInstanceAs (Decidable (_ ∨ _))

def SameTimes : List ByteRecord → List ByteRecord → Prop :=
  List.Forall₂ fun r r' => r.flowId = r'.flowId ∧ r.now = r'.now

def FlowBelowTotal (window : Duration) (metrics : Option MetricRegistry) (records : List ByteRecord)
    (flowId : FlowId) : Prop :=
  (((fresh window metrics).run records).flowThroughput flowId).le
    ((fresh window metrics).run records).totalThroughput

theorem bytesOf_eq (hfits : Fits part) : bytesOf part = Tally.sumOver (fun r => r.bytes.toNat) part := by
  induction part with
  | nil => rfl
  | cons r part ih =>
    rw [Fits, Tally.sumOver_cons] at hfits
    have hrest := ih (lt_of_le_of_lt (Nat.le_add_left _ _) hfits)
    show (r.bytes + (part.map ByteRecord.bytes).sum).toNat = _
    rw [BitVec.toNat_add, Tally.sumOver_cons, ← hrest]
    rw [← hrest] at hfits
    exact Nat.mod_eq_of_lt hfits

theorem bytesOf_mono {whole : List ByteRecord} (hpart : part.Sublist whole) (hfits : Fits whole) :
    bytesOf part ≤ bytesOf whole := by
  have hsum : Tally.sumOver (fun r => r.bytes.toNat) part ≤ Tally.sumOver (fun r => r.bytes.toNat) whole :=
    (hpart.map _).sum_le_sum fun _ _ => Nat.zero_le _
  have hpartFits : Fits part := lt_of_le_of_lt hsum hfits
  rw [bytesOf_eq hfits, bytesOf_eq hpartFits]
  exact hsum

theorem elapsed_mono {whole : List ByteRecord} (hpart : part.Sublist whole)
    (horder : (whole.map ByteRecord.now).Pairwise (· ≤ ·)) : elapsed part ≤ elapsed whole := by
  by_cases hnil : part = []
  · rw [hnil]
    exact Nat.zero_le _
  have hne := List.ne_nil_of_mem (hpart.subset (List.head_mem hnil))
  have hfirst : (whole.head hne).now ≤ (part.head hnil).now := by
    obtain ⟨first, rest, rfl⟩ := List.exists_cons_of_ne_nil hne
    rcases List.mem_cons.mp (hpart.subset (List.head_mem hnil)) with heq | hmem
    · rw [heq]
      exact le_rfl
    · exact (List.pairwise_cons.mp horder).1 _ (List.mem_map_of_mem hmem)
  have hlast := le_getLast horder (hpart.subset (List.getLast_mem hnil)) (List.getLast?_eq_some_getLast hne)
  rw [elapsed, elapsed, List.head?_eq_some_head hnil, List.getLast?_eq_some_getLast hnil,
    List.head?_eq_some_head hne, List.getLast?_eq_some_getLast hne]
  exact tsub_le_tsub hlast hfirst

theorem timeOf_le {whole : List ByteRecord} (hwhole : whole.Sublist (kept window records))
    (horder : (records.map ByteRecord.now).Pairwise (· ≤ ·)) (hspan : SpansAlike part whole) :
    timeOf window whole ≤ timeOf window part := by
  rcases hspan with hinstant | halike
  · rw [timeOf, timeOf, if_pos hinstant]
    split_ifs with hzero
    · exact le_rfl
    · exact elapsed_le hwhole horder
  · rw [timeOf, timeOf, halike]

theorem proportionate_of_spansAlike {whole : List ByteRecord} (hwhole : whole.Sublist (kept window records))
    (horder : (records.map ByteRecord.now).Pairwise (· ≤ ·)) (hpart : part.Sublist whole) (hfits : Fits whole)
    (hspan : SpansAlike part whole) : Proportionate window part whole :=
  Nat.mul_le_mul (bytesOf_mono hpart hfits) (timeOf_le hwhole horder hspan)

theorem spansAlike_of_proportionate {whole : List ByteRecord} (hwhole : (whole.map ByteRecord.now).Pairwise (· ≤ ·))
    (hpart : part.Sublist whole) (hbytes : bytesOf part = bytesOf whole) (hsome : bytesOf whole ≠ 0)
    (h : Proportionate window part whole) : SpansAlike part whole := by
  by_contra hspan
  obtain ⟨hpos, hne⟩ := not_or.mp hspan
  have hlt : elapsed part < elapsed whole := lt_of_le_of_ne (elapsed_mono hpart hwhole) hne
  rw [Proportionate, hbytes, timeOf, timeOf, if_neg hpos, if_neg (Nat.ne_zero_of_lt hlt)] at h
  exact absurd (Nat.le_of_mul_le_mul_left h (Nat.pos_of_ne_zero hsome)) (Nat.not_le.mpr hlt)

section SameTimes
variable {records' : List ByteRecord}

theorem SameTimes.times (h : SameTimes records records') :
    records'.map ByteRecord.now = records.map ByteRecord.now := by
  induction h with
  | nil => rfl
  | cons hr _ ih => rw [List.map_cons, List.map_cons, ih, hr.2]

theorem SameTimes.elapsed (h : SameTimes records records') : elapsed records' = elapsed records := by
  unfold ThroughputTracker.elapsed
  rw [← List.getLast?_map, ← List.getLast?_map, ← List.head?_map, ← List.head?_map, h.times]

theorem SameTimes.kept (h : SameTimes records records') (window : Duration) :
    SameTimes (kept window records) (kept window records') := by
  refine List.rel_filter (fun r r' hr => ?_) h
  exact iff_of_eq (congrArg (· = true) (recent_congr h.times.symm hr.2))

theorem SameTimes.keptOf (h : SameTimes records records') (window : Duration) (flowId : FlowId) :
    SameTimes (keptOf window records flowId) (keptOf window records' flowId) := by
  refine List.rel_filter (fun r r' hr => ?_) (h.kept window)
  exact iff_of_eq (congrArg (fun id : FlowId => decide (id = flowId) = true) hr.1)

theorem SameTimes.spansAlike (h : SameTimes records records') (window : Duration) (flowId : FlowId) :
    SpansAlike (ThroughputTracker.keptOf window records' flowId) (ThroughputTracker.kept window records') ↔
      SpansAlike (ThroughputTracker.keptOf window records flowId) (ThroughputTracker.kept window records) := by
  rw [SpansAlike, SpansAlike, (h.kept window).elapsed, (h.keptOf window flowId).elapsed]

def oneByte (before : List ByteRecord) (r : ByteRecord) (after : List ByteRecord) : List ByteRecord :=
  before.map ({ · with bytes := 0 }) ++ { r with bytes := 1 } :: after.map ({ · with bytes := 0 })

theorem sameTimes_oneByte (before : List ByteRecord) (r : ByteRecord) (after : List ByteRecord) :
    SameTimes (before ++ r :: after) (oneByte before r after) := by
  have hcleared : ∀ l : List ByteRecord, SameTimes l (l.map ({ · with bytes := 0 })) := by
    intro l
    induction l with
    | nil => exact .nil
    | cons r l ih => exact .cons ⟨rfl, rfl⟩ ih
  exact List.rel_append (hcleared before) (.cons ⟨rfl, rfl⟩ (hcleared after))

theorem sumOver_oneByte {before after : List ByteRecord} {r : ByteRecord} {picks : ByteRecord → Bool}
    (hpick : picks { r with bytes := 1 } = true) :
    Tally.sumOver (fun r => r.bytes.toNat) ((oneByte before r after).filter picks) = 1 := by
  have hcleared : ∀ l : List ByteRecord,
      Tally.sumOver (fun r => r.bytes.toNat) ((l.map ({ · with bytes := 0 })).filter picks) = 0 := by
    intro l
    apply Tally.sumOver_eq_zero
    intro r hr
    obtain ⟨r, -, rfl⟩ := List.mem_map.mp (List.mem_of_mem_filter hr)
    rfl
  rw [oneByte, List.filter_append, List.filter_cons, if_pos hpick, Tally.sumOver_append, Tally.sumOver_cons,
    hcleared, hcleared]
  rfl

end SameTimes

theorem flowBelowTotal_iff_proportionate (hwindow : 0 < window)
    (horder : (records.map ByteRecord.now).Pairwise (· ≤ ·)) (flowId : FlowId) :
    FlowBelowTotal window metrics records flowId ↔
      Proportionate window (keptOf window records flowId) (kept window records) := by
  obtain ⟨htotal, hflow⟩ := run_windows window metrics horder
  have hpart : (keptOf window records flowId).Sublist (kept window records) := List.filter_sublist
  rw [FlowBelowTotal, htotal, hflow, ← keptOf, rate_kept hpart horder, rate_kept (List.Sublist.refl _) horder]
  by_cases hnone : keptOf window records flowId = []
  · have hproportionate : Proportionate window (keptOf window records flowId) (kept window records) := by
      rw [hnone, Proportionate, show bytesOf [] = 0 from rfl, Nat.zero_mul]
      exact Nat.zero_le _
    refine iff_of_true ?_ hproportionate
    rw [if_pos hnone]
    split_ifs
    · rfl
    · exact Rate.zero_le_ofDivision (timeOf_pos hwindow)
  · have hkept : kept window records ≠ [] := fun hnil => hnone (List.sublist_nil.mp (hnil ▸ hpart))
    rw [if_neg hnone, if_neg hkept, Rate.ofDivision_le_iff (timeOf_pos hwindow) (timeOf_pos hwindow)]
    rfl

theorem flowBelowTotal_iff_of_zero (horder : (records.map ByteRecord.now).Pairwise (· ≤ ·)) (flowId : FlowId) :
    FlowBelowTotal 0 metrics records flowId ↔ kept 0 records = [] ∨ bytesOf (kept 0 records) ≠ 0 ∧
      (keptOf 0 records flowId = [] ∨ bytesOf (keptOf 0 records flowId) ≠ 0) := by
  obtain ⟨htotal, hflow⟩ := run_windows 0 metrics horder
  have hpart : (keptOf 0 records flowId).Sublist (kept 0 records) := List.filter_sublist
  rw [FlowBelowTotal, htotal, hflow, ← keptOf, rate_kept hpart horder, rate_kept (List.Sublist.refl _) horder,
    timeOf_eq_zero rfl hpart horder, timeOf_eq_zero rfl (List.Sublist.refl _) horder]
  by_cases hkept : kept 0 records = []
  · have hnone : keptOf 0 records flowId = [] := List.sublist_nil.mp (hkept ▸ hpart)
    rw [if_pos hnone, if_pos hkept]
    exact iff_of_true rfl (.inl hkept)
  · rw [if_neg hkept, or_iff_right hkept]
    by_cases hnone : keptOf 0 records flowId = []
    · rw [if_pos hnone, Rate.zero_le_ofDivision_zero_iff, and_iff_left (Or.inl hnone)]
    · rw [if_neg hnone, Rate.ofDivision_zero_le_iff, or_iff_right hnone, and_comm]

theorem flowBelowTotal_of_spansAlike (hwindow : 0 < window)
    (horder : (records.map ByteRecord.now).Pairwise (· ≤ ·)) {flowId : FlowId}
    (hspan : SpansAlike (keptOf window records flowId) (kept window records)) (hfits : Fits (kept window records)) :
    FlowBelowTotal window metrics records flowId :=
  (flowBelowTotal_iff_proportionate hwindow horder flowId).mpr
    (proportionate_of_spansAlike (List.Sublist.refl _) horder List.filter_sublist hfits hspan)

/-- Where the flow spans a part of the time, one byte at one of its records and no other puts it ahead. -/
theorem spansAlike_of_flowBelowTotal (hwindow : 0 < window)
    (horder : (records.map ByteRecord.now).Pairwise (· ≤ ·)) {flowId : FlowId}
    (h : ∀ records', SameTimes records records' → Fits (kept window records') →
      FlowBelowTotal window metrics records' flowId) :
    SpansAlike (keptOf window records flowId) (kept window records) := by
  by_cases hnone : keptOf window records flowId = []
  · exact .inl (by rw [hnone]; rfl)
  obtain ⟨r, hr⟩ := List.exists_mem_of_ne_nil _ hnone
  obtain ⟨hkept, hflow⟩ := List.mem_filter.mp hr
  obtain ⟨hmem, hrecent⟩ := List.mem_filter.mp hkept
  obtain ⟨before, after, rfl⟩ := List.append_of_mem hmem
  have hsame := sameTimes_oneByte before r after
  have hrecent' : recent ByteRecord.now (· - window) (oneByte before r after) { r with bytes := 1 } = true := by
    rw [← hrecent]
    exact recent_congr hsame.times rfl
  have hwhole : Tally.sumOver (fun r => r.bytes.toNat)
      ((oneByte before r after).filter (recent ByteRecord.now (· - window) (oneByte before r after))) = 1 :=
    sumOver_oneByte hrecent'
  have hpart : Tally.sumOver (fun r => r.bytes.toNat) (keptOf window (oneByte before r after) flowId) = 1 := by
    rw [keptOf, kept, List.filter_filter]
    exact sumOver_oneByte (by rw [hrecent', Bool.and_true]; exact hflow)
  have hwholeFits : Fits (kept window (oneByte before r after)) := by
    rw [Fits, kept, hwhole]
    decide
  have hpartFits : Fits (keptOf window (oneByte before r after) flowId) := by
    rw [Fits, hpart]
    decide
  have horder' : ((oneByte before r after).map ByteRecord.now).Pairwise (· ≤ ·) := hsame.times ▸ horder
  have hshare := (flowBelowTotal_iff_proportionate hwindow horder' flowId).mp (h _ hsame hwholeFits)
  have hbytes : bytesOf (kept window (oneByte before r after)) = 1 := (bytesOf_eq hwholeFits).trans hwhole
  apply (hsame.spansAlike window flowId).mp
  exact spansAlike_of_proportionate (horder'.sublist (List.filter_sublist.map _)) List.filter_sublist
    (((bytesOf_eq hpartFits).trans hpart).trans hbytes.symm) (ne_of_eq_of_ne hbytes one_ne_zero) hshare

/-- A flow whose records span as much time as all of them, or none, is no faster than the whole, as long as
the bytes add up; and it is so whatever the bytes, exactly if its records do. With a window of no time the
rates are no numbers, and compare if there are bytes to divide. -/
theorem flow_le_total_of_times (horder : (records.map ByteRecord.now).Pairwise (· ≤ ·)) (flowId : FlowId) :
    (0 < window → SpansAlike (keptOf window records flowId) (kept window records) → Fits (kept window records) →
      FlowBelowTotal window metrics records flowId) ∧
    (0 < window → (SpansAlike (keptOf window records flowId) (kept window records) ↔
      ∀ records', SameTimes records records' → Fits (kept window records') →
        FlowBelowTotal window metrics records' flowId)) ∧
    (FlowBelowTotal 0 metrics records flowId ↔ kept 0 records = [] ∨ bytesOf (kept 0 records) ≠ 0 ∧
      (keptOf 0 records flowId = [] ∨ bytesOf (keptOf 0 records flowId) ≠ 0)) := by
  refine ⟨fun hwindow => flowBelowTotal_of_spansAlike hwindow horder, fun hwindow => ⟨fun hspan records' hsame => ?_,
    spansAlike_of_flowBelowTotal hwindow horder⟩, flowBelowTotal_iff_of_zero horder flowId⟩
  exact flowBelowTotal_of_spansAlike hwindow (hsame.times ▸ horder) ((hsame.spansAlike window flowId).mpr hspan)

def evenRecords : List ByteRecord :=
  [⟨⟨1⟩, 10, 1000000000⟩, ⟨⟨2⟩, 20, 1000000000⟩, ⟨⟨1⟩, 30, 3000000000⟩, ⟨⟨2⟩, 40, 3000000000⟩]

theorem flow_le_total_of_times_even : FlowBelowTotal 5000000000 none evenRecords ⟨2⟩ :=
  (flow_le_total_of_times (by decide) ⟨2⟩).1 (by decide) (by decide) (by unfold Fits; decide)

/-- A hundred bytes in each of the last two seconds are 200 a second of the flow, and 50 of the whole. -/
theorem burst_exceeds_total :
    ((fresh 5000000000 none).run [⟨⟨1⟩, 1, 10000000000⟩, ⟨⟨2⟩, 100, 13000000000⟩,
      ⟨⟨2⟩, 100, 14000000000⟩]).flowThroughput ⟨2⟩ = .finite 200 ∧
    ((fresh 5000000000 none).run [⟨⟨1⟩, 1, 10000000000⟩, ⟨⟨2⟩, 100, 13000000000⟩,
      ⟨⟨2⟩, 100, 14000000000⟩]).totalThroughput = .finite (201 / 4) ∧
    (Rate.finite 200).le (.finite (201 / 4)) = false := by
  refine ⟨?_, ?_, ?_⟩
  · decide +kernel
  · decide +kernel
  · decide +kernel

end ThroughputTracker
end Nyarix
