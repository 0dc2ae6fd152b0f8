import Mathlib.Data.List.AList
import Mathlib.Data.List.Induction
import Mathlib.Algebra.BigOperators.Group.List.Basic
import Mathlib.Tactic.Abel

/-! Hash maps as association lists without repeated keys, updated in place, and the
totals of a measure over a list or over the values of a map. -/

namespace Tally
variable {α A : Type*} [AddCommMonoid A]

def sumOver (f : α → A) (l : List α) : A := (l.map f).sum

@[simp] theorem sumOver_nil (f : α → A) : sumOver f [] = 0 := rfl

@[simp] theorem sumOver_cons (f : α → A) (a : α) (l : List α) : sumOver f (a :: l) = f a + sumOver f l := rfl

@[simp] theorem sumOver_append (f : α → A) (l m : List α) : sumOver f (l ++ m) = sumOver f l + sumOver f m := by
  simp only [sumOver, List.map_append, List.sum_append]

theorem sumOver_set (f : α → A) {l : List α} {i : Nat} {a : α} (b : α) (h : l[i]? = some a) :
    sumOver f (l.set i b) + f a = sumOver f l + f b := by
  induction l generalizing i with
  | nil => simp at h
  | cons c l ih =>
    cases i with
    | zero =>
      obtain rfl : c = a := by simpa using h
      simp only [List.set_cons_zero, sumOver_cons]
      abel
    | succ i =>
      have hi := ih (by simpa using h)
      simp only [List.set_cons_succ, sumOver_cons, add_assoc, hi]

theorem sumOver_congr {f g : α → A} {l : List α} (h : ∀ a ∈ l, f a = g a) : sumOver f l = sumOver g l := by
  rw [sumOver, List.map_congr_left h, sumOver]

theorem sumOver_eq_zero {f : α → A} {l : List α} (h : ∀ a ∈ l, f a = 0) : sumOver f l = 0 := by
  induction l with
  | nil => rfl
  | cons a l ih => rw [sumOver_cons, h a List.mem_cons_self, zero_add,
      ih fun b hb => h b (List.mem_cons_of_mem a hb)]

theorem sumOver_map {β : Type*} (f : β → A) (g : α → β) (l : List α) :
    sumOver f (l.map g) = sumOver (fun a => f (g a)) l := by
  simp only [sumOver, List.map_map, Function.comp_def]

theorem exists_sumOver_eq (f : α → A) {l : List α} {a : α} (h : a ∈ l) : ∃ rest, sumOver f l = f a + rest := by
  induction l with
  | nil => simp at h
  | cons b l ih =>
    rcases List.mem_cons.mp h with rfl | h
    · exact ⟨sumOver f l, rfl⟩
    · obtain ⟨rest, hrest⟩ := ih h
      refine ⟨f b + rest, ?_⟩
      rw [sumOver_cons, hrest]
      abel

theorem le_sumOver {f : α → Nat} {l : List α} {a : α} (h : a ∈ l) : f a ≤ sumOver f l := by
  obtain ⟨rest, hrest⟩ := exists_sumOver_eq f h
  omega

end Tally

/-- A hash map; the order of the entries stands for the iteration order. -/
abbrev HashMap (K V : Type*) := AList fun _ : K => V

namespace HashMap
variable {K V A : Type*} [DecidableEq K]

theorem lookup_foldl_insert (key : A → K) (value : A → V) (l : List A) (k : K) :
    (l.foldl (fun (m : HashMap K V) a => m.insert (key a) (value a)) ∅).lookup k =
      (l.reverse.find? (key · = k)).map value := by
  induction l using List.reverseRecOn with
  | nil => rfl
  | append_singleton l a ih =>
    rw [List.foldl_append, List.foldl_cons, List.foldl_nil, List.reverse_append, List.reverse_singleton,
      List.singleton_append]
    by_cases ha : key a = k
    · rw [List.find?_cons_of_pos (by simpa using ha), ← ha, AList.lookup_insert]
      rfl
    · rw [List.find?_cons_of_neg (by simpa using ha), AList.lookup_insert_ne (Ne.symm ha), ih]

def mapValues (f : K → V → V) (m : HashMap K V) : HashMap K V :=
  ⟨m.entries.map fun e => ⟨e.1, f e.1 e.2⟩, m.nodupKeys.map₂ f m.entries⟩

def upsert (k : K) (f : V → V) (d : V) (m : HashMap K V) : HashMap K V := m.insert k (f ((m.lookup k).getD d))

@[simp] theorem lookup_upsert (k k' : K) (f : V → V) (d : V) (m : HashMap K V) :
    (upsert k f d m).lookup k' = if k' = k then some (f ((m.lookup k).getD d)) else m.lookup k' := by
  rw [upsert]
  split_ifs with hk
  · rw [hk, AList.lookup_insert]
  · exact AList.lookup_insert_ne hk

def modify (k : K) (f : V → V) (m : HashMap K V) : HashMap K V :=
  mapValues (fun k' v => if k' = k then f v else v) m

@[simp] theorem lookup_mapValues (f : K → V → V) (m : HashMap K V) (k : K) :
    (mapValues f m).lookup k = (m.lookup k).map (f k) := List.dlookup_map₂ k

omit [DecidableEq K] in
@[simp] theorem keys_mapValues (f : K → V → V) (m : HashMap K V) : (mapValues f m).keys = m.keys :=
  List.map₂_keys f m.entries

@[simp] theorem lookup_modify (k k' : K) (f : V → V) (m : HashMap K V) :
    (modify k f m).lookup k' = if k' = k then (m.lookup k').map f else m.lookup k' := by
  rw [modify, lookup_mapValues]
  split_ifs with h
  · rfl
  · cases m.lookup k' <;> rfl

theorem modify_modify_const (k : K) (f : V → V) (v : V) (m : HashMap K V) :
    modify k (fun _ => v) (modify k f m) = modify k (fun _ => v) m := by
  refine AList.ext ?_
  simp only [modify, mapValues, List.map_map]
  refine List.map_congr_left fun e _ => ?_
  by_cases h : e.1 = k <;> simp [h]

omit [DecidableEq K] in
@[simp] theorem mem_mapValues (f : K → V → V) (m : HashMap K V) (k : K) : k ∈ mapValues f m ↔ k ∈ m := by
  rw [AList.mem_keys, AList.mem_keys, keys_mapValues]

@[simp] theorem mem_modify (k k' : K) (f : V → V) (m : HashMap K V) : k' ∈ modify k f m ↔ k' ∈ m :=
  mem_mapValues _ m k'

theorem mem_of_lookup {m : HashMap K V} {k : K} {v : V} (h : m.lookup k = some v) : k ∈ m :=
  AList.lookup_isSome.mp (h ▸ rfl)

theorem exists_of_mem {m : HashMap K V} {k : K} (h : k ∈ m) : ∃ v, m.lookup k = some v :=
  Option.isSome_iff_exists.mp (AList.lookup_isSome.mpr h)

def push (k : K) (v : V) (m : HashMap K (List V)) : HashMap K (List V) :=
  modify k (· ++ [v]) (if k ∈ m then m else m.insert k [])

theorem lookup_push (k k' : K) (v : V) (m : HashMap K (List V)) :
    (push k v m).lookup k' = if k' = k then some ((m.lookup k).getD [] ++ [v]) else m.lookup k' := by
  rw [push, lookup_modify]
  by_cases hk : k' = k
  · subst hk
    rw [if_pos rfl, if_pos rfl]
    split_ifs with hmem
    · obtain ⟨l, hl⟩ := exists_of_mem hmem
      rw [hl]
      rfl
    · rw [AList.lookup_insert, AList.lookup_eq_none.mpr hmem]
      rfl
  · rw [if_neg hk, if_neg hk]
    split_ifs
    · rfl
    · rw [AList.lookup_insert_ne hk]

def total [AddCommMonoid A] (f : K → V → A) (m : HashMap K V) : A :=
  Tally.sumOver (fun e => f e.1 e.2) m.entries

theorem total_modify [AddCommMonoid A] (f : K → V → A) {m : HashMap K V} {k : K} {v : V} (g : V → V)
    (h : m.lookup k = some v) : total f (modify k g m) + f k v = total f m + f k (g v) := by
  obtain ⟨l, hl⟩ := m
  simp only [AList.lookup] at h
  simp only [total, modify, mapValues, Tally.sumOver_map]
  induction l with
  | nil => simp at h
  | cons e l ih =>
    obtain ⟨k', v'⟩ := e
    have hk : k' ∉ l.keys := List.notMem_keys_of_nodupKeys_cons hl
    simp only [Tally.sumOver_cons]
    by_cases hkk : k = k'
    · subst hkk
      obtain rfl : v' = v := by simpa using h
      -- the key does not occur again, so the rest of the list is unchanged
      have hrest : Tally.sumOver (fun e : (_ : K) × V => f e.1 (if e.1 = k then g e.2 else e.2)) l =
          Tally.sumOver (fun e => f e.1 e.2) l := by
        refine Tally.sumOver_congr fun e he => ?_
        have hne : e.1 ≠ k := fun hek => hk (hek ▸ List.mem_keys_of_mem he)
        rw [if_neg hne]
      rw [if_pos rfl, hrest]
      abel
    · rw [List.dlookup_cons_ne _ _ hkk] at h
      have hi := ih (List.nodupKeys_of_nodupKeys_cons hl) h
      rw [if_neg (Ne.symm hkk), add_assoc, hi, add_assoc]

theorem total_eq_zero [AddCommMonoid A] {f : K → V → A} {m : HashMap K V}
    (h : ∀ k v, m.lookup k = some v → f k v = 0) : total f m = 0 :=
  Tally.sumOver_eq_zero fun e he => h e.1 e.2 (List.mem_dlookup m.nodupKeys he)

end HashMap
