import Mathlib.Data.Set.Function
import Nyarix.Metrics

/-! Which metrics of different modules mix: those whose names join to the same text. -/

namespace Nyarix

theorem append_cons_eq_append_cons_iff {α : Type*} {a b c d : List α} {x : α} :
    a ++ x :: b = c ++ x :: d ↔ (a = c ∧ b = d) ∨ (∃ s, c = a ++ x :: s ∧ b = s ++ x :: d) ∨
      ∃ s, a = c ++ x :: s ∧ d = s ++ x :: b := by
  rw [List.append_eq_append_iff]
  constructor
  · rintro (⟨_ | ⟨y, s⟩, hc, hb⟩ | ⟨_ | ⟨y, s⟩, ha, hd⟩)
    · rw [List.nil_append, List.cons.injEq] at hb
      exact .inl ⟨(List.append_nil a).symm.trans hc.symm, hb.2⟩
    · rw [List.cons_append, List.cons.injEq] at hb
      exact .inr (.inl ⟨s, hb.1 ▸ hc, hb.2⟩)
    · rw [List.nil_append, List.cons.injEq] at hd
      exact .inl ⟨ha.trans (List.append_nil c), hd.2.symm⟩
    · rw [List.cons_append, List.cons.injEq] at hd
      exact .inr (.inr ⟨s, hd.1 ▸ ha, hd.2⟩)
  · rintro (⟨rfl, rfl⟩ | ⟨s, rfl, rfl⟩ | ⟨s, rfl, rfl⟩)
    · exact .inl ⟨[], (List.append_nil a).symm, rfl⟩
    · exact .inl ⟨x :: s, rfl, rfl⟩
    · exact .inr ⟨x :: s, rfl, rfl⟩

/-- A part of the second module's name reads as the first part of the first metric's. -/
def Overlap (module name module' name' : String) : Prop :=
  ∃ s, module' = module ++ "." ++ s ∧ name = s ++ "." ++ name'

theorem overlap_iff {module name module' name' : String} : Overlap module name module' name' ↔
    ∃ s, module'.toList = module.toList ++ '.' :: s ∧ name.toList = s ++ '.' :: name'.toList := by
  have hjoin : ∀ a b : String, (a ++ "." ++ b).toList = a.toList ++ '.' :: b.toList := by
    intro a b
    rw [String.toList_append, String.toList_append, List.append_assoc]
    rfl
  constructor
  · rintro ⟨s, rfl, rfl⟩
    exact ⟨s.toList, hjoin _ _, hjoin _ _⟩
  · rintro ⟨s, hmodule, hname⟩
    refine ⟨.ofList s, String.toList_inj.mp ?_, String.toList_inj.mp ?_⟩
    · rw [hjoin, String.toList_ofList, hmodule]
    · rw [hjoin, String.toList_ofList, hname]

theorem metricName_eq_iff_overlap {module name module' name' : String} :
    metricName module name = metricName module' name' ↔ (module = module' ∧ name = name') ∨
      Overlap module name module' name' ∨ Overlap module' name' module name := by
  rw [← String.toList_inj, metricName_toList, metricName_toList, List.append_right_inj,
    append_cons_eq_append_cons_iff, String.toList_inj, String.toList_inj, overlap_iff, overlap_iff]

inductive MetricCall where
  | use (use : MetricUse)
  | histogram (bounds : List ℚ)
  deriving DecidableEq

structure MetricReading where
  counter : Option Counter
  gauge : Option Gauge
  histogram : Option Histogram
  deriving DecidableEq

namespace MetricReading

def after (v : MetricReading) : MetricCall → MetricReading
  | .use (.increment delta) => { v with counter := some ((v.counter.getD .default).increment delta) }
  | .use (.set value) => { v with gauge := some ((v.gauge.getD .default).set value) }
  | .use (.add delta) => { v with gauge := some ((v.gauge.getD .default).add delta) }
  | .use (.observe bounds value) =>
    { v with histogram := some ((v.histogram.getD (.new bounds)).observe value) }
  | .histogram bounds => { v with histogram := some (v.histogram.getD (.new bounds)) }

end MetricReading

@[ext] structure MetricPair where
  module : String
  name : String
  deriving DecidableEq

def MetricPair.metricName (p : MetricPair) : String := Nyarix.metricName p.module p.name

namespace MetricRegistry

def call (r : MetricRegistry) (p : MetricPair) : MetricCall → MetricRegistry
  | .use use => r.record p.module p.name use
  | .histogram bounds => r.histogram p.module p.name bounds id

def read (r : MetricRegistry) (p : MetricPair) : MetricReading :=
  ⟨r.getCounter p.module p.name, r.getGauge p.module p.name, r.getHistogram p.module p.name⟩

def run (calls : List (MetricPair × MetricCall)) (r : MetricRegistry) : MetricRegistry :=
  calls.foldl (fun r c => r.call c.1 c.2) r

theorem read_congr (r : MetricRegistry) {p q : MetricPair} (h : p.metricName = q.metricName) : r.read p = r.read q := by
  have hname : Nyarix.metricName p.module p.name = Nyarix.metricName q.module q.name := h
  rw [read, getCounter, getGauge, getHistogram, hname]
  rfl

theorem read_call (r : MetricRegistry) (p q : MetricPair) (c : MetricCall) :
    (r.call p c).read q = if p.metricName = q.metricName then (r.read q).after c else r.read q := by
  split_ifs with h
  · rw [r.read_congr h.symm, (r.call p c).read_congr h.symm]
    rcases c with (delta | value | delta | ⟨bounds, value⟩) | bounds <;>
      simp [call, record, read, MetricReading.after, getCounter_counter, getGauge_gauge, getHistogram_histogram] <;>
      exact ⟨rfl, rfl⟩
  · have hname : ¬ Nyarix.metricName q.module q.name = Nyarix.metricName p.module p.name := fun heq => h heq.symm
    rcases c with (delta | value | delta | ⟨bounds, value⟩) | bounds <;>
      simp [call, record, read, hname, getCounter_counter, getGauge_gauge, getHistogram_histogram] <;>
      exact ⟨rfl, rfl⟩

theorem read_run (calls : List (MetricPair × MetricCall)) (r : MetricRegistry) (q : MetricPair) :
    (run calls r).read q =
      ((calls.filter (·.1.metricName = q.metricName)).map (·.2)).foldl .after (r.read q) := by
  induction calls generalizing r with
  | nil => rfl
  | cons c calls ih =>
    show (run calls (r.call c.1 c.2)).read q = _
    rw [ih, read_call]
    by_cases h : c.1.metricName = q.metricName
    · rw [if_pos h, List.filter_cons, if_pos (decide_eq_true h)]
      rfl
    · rw [if_neg h, List.filter_cons, if_neg (by simpa using h)]

end MetricRegistry

def callsUnder (p : MetricPair) (calls : List (MetricPair × MetricCall)) : List MetricCall :=
  (calls.filter (·.1 = p)).map (·.2)

/-- In every run over these pairs, what is read under one of them follows from the calls under it. -/
def Isolated (pairs : Set MetricPair) : Prop :=
  ∀ p ∈ pairs, ∀ calls calls' : List (MetricPair × MetricCall), (∀ c ∈ calls, c.1 ∈ pairs) →
    (∀ c ∈ calls', c.1 ∈ pairs) → callsUnder p calls = callsUnder p calls' →
      (MetricRegistry.run calls .new).read p = (MetricRegistry.run calls' .new).read p

/-- A module's name goes on where another's ends, with what that one's metric begins with. -/
def Clash (pairs : Set MetricPair) : Prop :=
  ∃ module middle name, ⟨module, middle ++ "." ++ name⟩ ∈ pairs ∧ ⟨module ++ "." ++ middle, name⟩ ∈ pairs

variable {pairs : Set MetricPair}

theorem injOn_metricName_iff : pairs.InjOn MetricPair.metricName ↔ ¬ Clash pairs := by
  constructor
  · rintro hinj ⟨module, middle, name, hp, hq⟩
    have hname : metricName module (middle ++ "." ++ name) = metricName (module ++ "." ++ middle) name :=
      metricName_eq_iff_overlap.mpr (.inr (.inl ⟨middle, rfl, rfl⟩))
    have hsame := congrArg (·.module.toList.length) (hinj hp hq hname)
    simp [String.toList_append] at hsame
  · intro hclash p hp q hq hname
    rcases metricName_eq_iff_overlap.mp hname with ⟨hmodule, hpname⟩ | ⟨s, hmodule, hpname⟩ | ⟨s, hmodule, hpname⟩
    · exact MetricPair.ext hmodule hpname
    · exact (hclash ⟨p.module, s, q.name, hpname ▸ hp, hmodule ▸ hq⟩).elim
    · exact (hclash ⟨q.module, s, p.name, hpname ▸ hq, hmodule ▸ hp⟩).elim

theorem isolated_of_injOn (h : pairs.InjOn MetricPair.metricName) : Isolated pairs := by
  intro p hp calls calls' hcalls hcalls' hsame
  have hunder : ∀ l : List (MetricPair × MetricCall), (∀ c ∈ l, c.1 ∈ pairs) →
      (l.filter (·.1.metricName = p.metricName)).map (·.2) = callsUnder p l := by
    intro l hl
    refine congrArg _ (List.filter_congr fun c hc => ?_)
    rw [decide_eq_decide]
    exact h.eq_iff (hl c hc) hp
  rw [MetricRegistry.read_run, MetricRegistry.read_run, hunder calls hcalls, hunder calls' hcalls', hsame]

/-- Metrics of different owners stay apart exactly as long as no two pairs of names clash. -/
theorem isolated_iff (pairs : Set MetricPair) :
    (Isolated pairs ↔ ¬ Clash pairs) ∧ (Isolated pairs ↔ pairs.InjOn MetricPair.metricName) := by
  have hinj : Isolated pairs → pairs.InjOn MetricPair.metricName := by
    intro h p hp q hq hname
    by_contra hne
    have hread := h p hp [(q, .use (.increment 1))] [] (by simpa using hq) (by simp)
      (by simp [callsUnder, Ne.symm hne])
    rw [MetricRegistry.read_run, MetricRegistry.read_run, List.filter_cons, if_pos (decide_eq_true hname.symm)] at hread
    cases hread
  have hiff : Isolated pairs ↔ pairs.InjOn MetricPair.metricName := ⟨hinj, isolated_of_injOn⟩
  exact ⟨hiff.trans injOn_metricName_iff, hiff⟩

theorem dotted_names_share :
    callsUnder ⟨"a.b", "c"⟩ [(⟨"a", "b.c"⟩, .use (.increment 5))] = callsUnder ⟨"a.b", "c"⟩ [] ∧
      ((MetricRegistry.run [(⟨"a", "b.c"⟩, .use (.increment 5))] .new).read ⟨"a.b", "c"⟩).counter = some ⟨5⟩ ∧
      ((MetricRegistry.run [] .new).read ⟨"a.b", "c"⟩).counter = none ∧ ¬ Isolated Set.univ := by
  have hunder : callsUnder ⟨"a.b", "c"⟩ [(⟨"a", "b.c"⟩, .use (.increment 5))] = callsUnder ⟨"a.b", "c"⟩ [] := by
    decide
  have hshared : ((MetricRegistry.run [(⟨"a", "b.c"⟩, .use (.increment 5))] .new).read ⟨"a.b", "c"⟩).counter =
      some ⟨5⟩ := by
    decide
  refine ⟨hunder, hshared, rfl, fun h => ?_⟩
  have hread := h ⟨"a.b", "c"⟩ trivial _ _ (fun _ _ => trivial) (fun _ _ => trivial) hunder
  rw [hread] at hshared
  cases hshared

end Nyarix
