import Mathlib.Data.List.Basic

/-! Append-only logs of values under keys, read from the end. -/

namespace Log
variable {E K V : Type*} [DecidableEq K] (key : E → K) (value : E → V)

/-- The values that the log has under a key, the latest first. -/
def recent (log : List E) (k : K) : List V := (log.reverse.filter (key · = k)).map value

theorem recent_concat (log : List E) (e : E) (k : K) : recent key value (log ++ [e]) k =
    if key e = k then value e :: recent key value log k else recent key value log k := by
  rw [recent, List.reverse_append, List.reverse_singleton, List.singleton_append]
  split_ifs with hk
  · rw [List.filter_cons_of_pos (by simpa using hk), List.map_cons, recent]
  · rw [List.filter_cons_of_neg (by simpa using hk), recent]

theorem map_find?_reverse (log : List E) (k : K) :
    (log.reverse.find? (key · = k)).map value = (recent key value log k).head? := by
  rw [recent, List.head?_map, List.head?_filter]

theorem map_getElem?_reverse (log : List E) (k : K) (n : Nat) :
    (log.reverse.filter (key · = k))[n]?.map value = (recent key value log k)[n]? := by
  rw [recent, List.getElem?_map]

theorem mem_recent {log : List E} {k : K} {v : V} :
    v ∈ recent key value log k ↔ ∃ e ∈ log, key e = k ∧ value e = v := by
  simp only [recent, List.mem_map, List.mem_filter, List.mem_reverse, decide_eq_true_eq, and_assoc]

end Log
