import Mathlib.Data.List.Infix
import Mathlib.Data.Rat.Defs
import Nyarix.Lib.Collection

/-! The metric registry: counters, gauges and histograms under the names of the modules that record
them. A metric is registered by its first use; recorded floating-point values are exact rationals. -/

namespace Nyarix

def metricName (module name : String) : String := "nyarix.module." ++ module ++ "." ++ name

/-- A counter wraps around, as an atomic addition does. -/
structure Counter where
  value : UInt64
  deriving DecidableEq

namespace Counter

def default : Counter := ⟨0⟩

def increment (delta : UInt64) (c : Counter) : Counter := ⟨c.value + delta⟩

end Counter

structure Gauge where
  value : Int64
  deriving DecidableEq

namespace Gauge

def default : Gauge := ⟨0⟩

def set (value : Int64) (_ : Gauge) : Gauge := ⟨value⟩

def add (delta : Int64) (g : Gauge) : Gauge := ⟨g.value + delta⟩

end Gauge

/-- Observations by the first bucket bound that they do not exceed, and one bucket for the others. The counts are
64-bit in the source, and grow by one with each observation: none lives to see them overflow. -/
structure Histogram where
  bounds : List ℚ
  counts : List Nat
  sum : ℚ
  count : Nat
  deriving DecidableEq

namespace Histogram

def new (bounds : List ℚ) : Histogram := ⟨bounds, List.replicate (bounds.length + 1) 0, 0, 0⟩

def observe (value : ℚ) (h : Histogram) : Histogram :=
  let bucket := (h.bounds.findIdx? (value ≤ ·)).getD (h.counts.length - 1)
  { h with
    counts := h.counts.modify bucket (· + 1)
    sum := h.sum + value
    count := h.count + 1 }

end Histogram

structure MetricRegistry where
  counters : HashMap String Counter
  gauges : HashMap String Gauge
  histograms : HashMap String Histogram

inductive MetricUse where
  | increment (delta : UInt64)
  | set (value : Int64)
  | add (delta : Int64)
  | observe (bounds : List ℚ) (value : ℚ)
  deriving DecidableEq

namespace MetricRegistry

def new : MetricRegistry := ⟨∅, ∅, ∅⟩

/-- Use the counter of that name, which is registered first if it is not there. -/
def counter (r : MetricRegistry) (module name : String) (f : Counter → Counter) : MetricRegistry :=
  { r with counters := HashMap.upsert (metricName module name) f .default r.counters }

def gauge (r : MetricRegistry) (module name : String) (f : Gauge → Gauge) : MetricRegistry :=
  { r with gauges := HashMap.upsert (metricName module name) f .default r.gauges }

def histogram (r : MetricRegistry) (module name : String) (bounds : List ℚ) (f : Histogram → Histogram) :
    MetricRegistry :=
  { r with histograms := HashMap.upsert (metricName module name) f (.new bounds) r.histograms }

def getCounter (r : MetricRegistry) (module name : String) : Option Counter :=
  r.counters.lookup (metricName module name)

def getGauge (r : MetricRegistry) (module name : String) : Option Gauge := r.gauges.lookup (metricName module name)

def getHistogram (r : MetricRegistry) (module name : String) : Option Histogram :=
  r.histograms.lookup (metricName module name)

def record (r : MetricRegistry) (module name : String) : MetricUse → MetricRegistry
  | .increment delta => r.counter module name (·.increment delta)
  | .set value => r.gauge module name (·.set value)
  | .add delta => r.gauge module name (·.add delta)
  | .observe bounds value => r.histogram module name bounds (·.observe value)

variable (r : MetricRegistry) (module name module' name' : String)

theorem getCounter_counter (f : Counter → Counter) : (r.counter module name f).getCounter module' name' =
    if metricName module' name' = metricName module name then some (f ((r.getCounter module name).getD .default))
    else r.getCounter module' name' := HashMap.lookup_upsert _ _ _ _ _

theorem getGauge_gauge (f : Gauge → Gauge) : (r.gauge module name f).getGauge module' name' =
    if metricName module' name' = metricName module name then some (f ((r.getGauge module name).getD .default))
    else r.getGauge module' name' := HashMap.lookup_upsert _ _ _ _ _

theorem getHistogram_histogram (bounds : List ℚ) (f : Histogram → Histogram) :
    (r.histogram module name bounds f).getHistogram module' name' =
      if metricName module' name' = metricName module name then
        some (f ((r.getHistogram module name).getD (.new bounds)))
      else r.getHistogram module' name' := HashMap.lookup_upsert _ _ _ _ _

end MetricRegistry

theorem metricName_toList (module name : String) :
    (metricName module name).toList = "nyarix.module.".toList ++ (module.toList ++ '.' :: name.toList) := by
  have hdot : ".".toList = ['.'] := rfl
  unfold metricName
  rw [String.toList_append, String.toList_append, String.toList_append, hdot, List.append_assoc, List.append_assoc,
    List.singleton_append]

theorem metricName_eq_iff {module name : String} (hmodule : '.' ∉ module.toList) (hname : '.' ∉ name.toList)
    {module' name' : String} : metricName module name = metricName module' name' ↔ module = module' ∧ name = name' := by
  rw [← String.toList_inj, metricName_toList, metricName_toList, List.append_right_inj,
    List.append_cons_inj_of_notMem hmodule hname, String.toList_inj, String.toList_inj]
  simp only [true_and]

end Nyarix
