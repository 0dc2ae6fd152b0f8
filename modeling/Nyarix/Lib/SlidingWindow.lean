import Mathlib.Data.List.Induction
import Mathlib.Data.List.Pairwise
import Mathlib.Order.Lattice

/-! Sliding windows over entries that come in the order of their times. A window takes some of the entries
at its end, and at every entry, taken or not, drops from its front what lies before the cutoff. -/

namespace SlidingWindow
variable {α T : Type*} [LinearOrder T] (time : α → T) (cutoff : T → T) (takes : α → Bool)

def prune (now : T) (window : List α) : List α := window.dropWhile fun a => time a < cutoff now

def observe (window : List α) (a : α) : List α :=
  prune time cutoff (time a) (if takes a then window ++ [a] else window)

/-- The entry is not yet before the cutoff when the last of the entries comes. -/
def recent (entries : List α) (a : α) : Bool :=
  entries.getLast?.all fun last => cutoff (time last) ≤ time a

variable {time cutoff takes} {window entries : List α}

theorem prune_eq_filter (horder : (window.map time).Pairwise (· ≤ ·)) (now : T) :
    prune time cutoff now window = window.filter fun a => cutoff now ≤ time a := by
  induction window with
  | nil => rfl
  | cons a window ih =>
    rw [List.map_cons, List.pairwise_cons] at horder
    by_cases ha : time a < cutoff now
    · have hdrop : prune time cutoff now (a :: window) = prune time cutoff now window :=
        List.dropWhile_cons_of_pos (decide_eq_true ha)
      rw [hdrop, ih horder.2, List.filter_cons_of_neg (by simpa using ha)]
    · have hkeep : prune time cutoff now (a :: window) = a :: window :=
        List.dropWhile_cons_of_neg (by simpa using ha)
      have hrest : ∀ b ∈ a :: window, cutoff now ≤ time b := by
        intro b hb
        rcases List.mem_cons.mp hb with rfl | hb
        · exact not_lt.mp ha
        · exact (not_lt.mp ha).trans (horder.1 _ (List.mem_map_of_mem hb))
      rw [hkeep, List.filter_eq_self.mpr fun b hb => decide_eq_true (hrest b hb)]

theorem recent_concat (entries : List α) (last a : α) :
    recent time cutoff (entries ++ [last]) a = decide (cutoff (time last) ≤ time a) := by
  rw [recent, List.getLast?_concat]
  rfl

theorem le_getLast (horder : (entries.map time).Pairwise (· ≤ ·)) {a last : α} (ha : a ∈ entries)
    (hlast : entries.getLast? = some last) : time a ≤ time last := by
  obtain ⟨before, rfl⟩ := List.getLast?_eq_some_iff.mp hlast
  rw [List.map_append] at horder
  rcases List.mem_append.mp ha with ha | ha
  · exact (List.pairwise_append.mp horder).2.2 _ (List.mem_map_of_mem ha) _ (List.mem_singleton_self _)
  · rw [List.mem_singleton.mp ha]

theorem recent_congr {entries' : List α} (h : entries.map time = entries'.map time) {a a' : α} (ha : time a = time a') :
    recent time cutoff entries a = recent time cutoff entries' a' := by
  have hlast : entries.getLast?.map time = entries'.getLast?.map time := by
    rw [← List.getLast?_map, ← List.getLast?_map, h]
  have hall : ∀ o : Option α, (o.all fun last => decide (cutoff (time last) ≤ time a)) =
      (o.map time).all fun last => decide (cutoff last ≤ time a) := by
    intro o
    cases o <;> rfl
  rw [recent, recent, hall, hlast, ← hall, ha]

theorem filter_recent (hcutoff : Monotone cutoff) {now : T} (hnow : ∀ a ∈ entries, time a ≤ now) (l : List α) :
    (l.filter (recent time cutoff entries)).filter (cutoff now ≤ time ·) = l.filter (cutoff now ≤ time ·) := by
  rw [List.filter_filter]
  apply List.filter_congr
  intro a _
  rw [Bool.and_eq_left_iff_imp]
  intro ha
  rw [recent, Option.all_eq_true]
  intro last hlast
  have hle := hcutoff (hnow last (List.mem_of_getLast? hlast))
  exact decide_eq_true (hle.trans (of_decide_eq_true ha))

theorem foldl_observe (hcutoff : Monotone cutoff) (horder : (entries.map time).Pairwise (· ≤ ·)) :
    entries.foldl (observe time cutoff takes) [] =
      (entries.filter takes).filter (recent time cutoff entries) := by
  induction entries using List.reverseRecOn with
  | nil => rfl
  | append_singleton entries last ih =>
    have hbefore : (entries.map time).Pairwise (· ≤ ·) := by
      rw [List.map_append] at horder
      exact (List.pairwise_append.mp horder).1
    have hfilter := filter_recent hcutoff fun a (ha : a ∈ entries) =>
      le_getLast horder (List.mem_append_left [last] ha) List.getLast?_concat
    have hrecent : recent time cutoff (entries ++ [last]) = fun a => decide (cutoff (time last) ≤ time a) :=
      funext (recent_concat entries last)
    rw [List.foldl_append, List.foldl_cons, List.foldl_nil, ih hbefore, observe, hrecent, List.filter_append]
    have hsub : ((entries.filter takes).filter (recent time cutoff entries)).Sublist entries :=
      List.filter_sublist.trans List.filter_sublist
    cases htakes : takes last with
    | false =>
      rw [if_neg (by simp), prune_eq_filter (hbefore.sublist (hsub.map time)), hfilter,
        List.filter_cons_of_neg (by simpa using htakes), List.filter_nil, List.append_nil]
    | true =>
      have hsorted : ((((entries.filter takes).filter (recent time cutoff entries)) ++ [last]).map time).Pairwise
          (· ≤ ·) := horder.sublist ((hsub.append_right [last]).map time)
      rw [if_pos rfl, prune_eq_filter hsorted, List.filter_append, hfilter, List.filter_append,
        List.filter_cons_of_pos htakes, List.filter_nil]

end SlidingWindow
