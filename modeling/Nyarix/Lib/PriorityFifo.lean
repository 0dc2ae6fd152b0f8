import Mathlib.Logic.Function.Basic
import Mathlib.Algebra.BigOperators.Group.List.Basic

/-! A priority queue that keeps one first-in first-out list for each class, all bounded by one
capacity, and how another queue refines it call by call. -/

namespace PriorityFifo
variable {S T C A L α : Type*}

def run (call : S → C → A × S) : S → List C → List (C × A) × S
  | s, [] => ([], s)
  | s, c :: cs =>
    let answered := call s c
    let rest := run call answered.2 cs
    ((c, answered.1) :: rest.1, rest.2)

def takes (recv : S → Option (α × S)) : Nat → S → List α × S
  | 0, s => ([], s)
  | n + 1, s =>
    match recv s with
    | none => ([], s)
    | some (a, t) => (a :: (takes recv n t).1, (takes recv n t).2)

inductive Call (α : Type*) where
  | trySend (a : α)
  | tryRecv
  | drain
  | len

inductive Answer (α : Type*) where
  | sent
  | full (a : α)
  | received (a : Option α)
  | drained (as : List α)
  | len (n : Nat)

def sent (trace : List (Call α × Answer α)) : List α :=
  trace.flatMap fun
    | (.trySend a, .sent) => [a]
    | _ => []

def handed (trace : List (Call α × Answer α)) : List α :=
  trace.flatMap fun
    | (_, .received (some a)) => [a]
    | (_, .drained as) => as
    | _ => []

section Reference
variable [DecidableEq L] (order : List L) (classOf : α → L) (capacity : Nat)

def take : List L → (L → List α) → Option (α × (L → List α))
  | [], _ => none
  | l :: order, q =>
    match q l with
    | a :: rest => some (a, Function.update q l rest)
    | [] => take order q

def total (q : L → List α) : Nat := order.foldr (fun l n => (q l).length + n) 0

/-- The reference; to drain it is to receive until there is nothing. -/
def call (q : L → List α) : Call α → Answer α × (L → List α)
  | .trySend a =>
    if (q (classOf a)).length = capacity then (.full a, q)
    else (.sent, Function.update q (classOf a) (q (classOf a) ++ [a]))
  | .tryRecv =>
    match take order q with
    | some (a, q) => (.received (some a), q)
    | none => (.received none, q)
  | .drain => (.drained (takes (take order) (total order q) q).1, (takes (take order) (total order q) q).2)
  | .len => (.len (total order q), q)

end Reference

/-- Calls that answer the same in related states, and lead to related states, answer the same
along every run. -/
theorem run_simulates {call : S → C → A × S} {call' : T → C → A × T} {R : S → T → Prop}
    (hcall : ∀ s t c, R s t → (call s c).1 = (call' t c).1 ∧ R (call s c).2 (call' t c).2) {s : S} {t : T}
    (h : R s t) (cs : List C) : (run call s cs).1 = (run call' t cs).1 ∧ R (run call s cs).2 (run call' t cs).2 := by
  induction cs generalizing s t with
  | nil => exact ⟨rfl, h⟩
  | cons c cs ih =>
    obtain ⟨hanswer, hnext⟩ := hcall s t c h
    obtain ⟨hrest, hlast⟩ := ih hnext
    refine ⟨?_, hlast⟩
    rw [run, run, hanswer, hrest]

theorem takes_eq {recv : S → Option (α × S)} {contents : S → List α} {P : S → Prop}
    (hsome : ∀ s a t, P s → recv s = some (a, t) → contents s = a :: contents t ∧ P t)
    (hnone : ∀ s, P s → recv s = none → contents s = []) {n : Nat} {s : S} (hs : P s)
    (hn : (contents s).length ≤ n) :
    (takes recv n s).1 = contents s ∧ contents (takes recv n s).2 = [] ∧ P (takes recv n s).2 := by
  induction n generalizing s with
  | zero =>
    have hempty : contents s = [] := List.eq_nil_of_length_eq_zero (Nat.le_zero.mp hn)
    exact ⟨hempty.symm, hempty, hs⟩
  | succ n ih =>
    rw [takes]
    cases hrecv : recv s with
    | none =>
      have hempty := hnone s hs hrecv
      exact ⟨hempty.symm, hempty, hs⟩
    | some taken =>
      obtain ⟨a, t⟩ := taken
      obtain ⟨hcontents, ht⟩ := hsome s a t hs hrecv
      have hlength : (contents t).length ≤ n := by
        rw [hcontents, List.length_cons] at hn
        omega
      obtain ⟨htaken, hleft, hlast⟩ := ih ht hlength
      refine ⟨?_, hleft, hlast⟩
      rw [hcontents, ← htaken]

section Reference
variable [DecidableEq L] {order : List L} {classOf : α → L} {capacity : Nat} {q q' : L → List α} {a : α}

omit [DecidableEq L] in
theorem total_eq (order : List L) (q : L → List α) : total order q = (order.flatMap q).length := by
  induction order with
  | nil => rfl
  | cons l order ih =>
    have hrest : total (l :: order) q = (q l).length + total order q := rfl
    rw [hrest, ih, List.flatMap_cons, List.length_append]

theorem take_eq_none (h : take order q = none) : order.flatMap q = [] := by
  induction order with
  | nil => rfl
  | cons l order ih =>
    rw [take] at h
    cases hl : q l with
    | nil =>
      rw [hl] at h
      rw [List.flatMap_cons, hl, ih h, List.nil_append]
    | cons b rest =>
      rw [hl] at h
      cases h

theorem take_eq_some (hnodup : order.Nodup) (h : take order q = some (a, q')) :
    order.flatMap q = a :: order.flatMap q' ∧
      ∃ l rest, q l = a :: rest ∧ q' = Function.update q l rest := by
  induction order with
  | nil => cases h
  | cons l order ih =>
    obtain ⟨hl, hnodup⟩ := List.nodup_cons.mp hnodup
    rw [take] at h
    cases hlist : q l with
    | nil =>
      rw [hlist] at h
      obtain ⟨hflat, k, rest, hk, rfl⟩ := ih hnodup h
      refine ⟨?_, k, rest, hk, rfl⟩
      have hne : l ≠ k := by
        intro heq
        rw [heq, hk] at hlist
        cases hlist
      rw [List.flatMap_cons, List.flatMap_cons, Function.update_of_ne hne, hlist, hflat]
      rfl
    | cons b rest =>
      rw [hlist] at h
      obtain ⟨rfl, rfl⟩ := Prod.mk.inj (Option.some.inj h)
      refine ⟨?_, l, rest, hlist, rfl⟩
      have hothers : order.flatMap (Function.update q l rest) = order.flatMap q := by
        apply List.flatMap_congr
        intro k hk
        apply Function.update_of_ne
        intro heq
        exact hl (heq ▸ hk)
      rw [List.flatMap_cons, List.flatMap_cons, Function.update_self, hlist, hothers]
      rfl

omit [DecidableEq L] in
theorem eq_empty (hcomplete : ∀ l, l ∈ order) (h : order.flatMap q = []) : q = fun _ => [] := by
  funext l
  exact List.flatMap_eq_nil_iff.mp h l (hcomplete l)

theorem drain_eq (hnodup : order.Nodup) (hcomplete : ∀ l, l ∈ order) (q : L → List α) :
    takes (take order) (total order q) q = (order.flatMap q, fun _ => []) := by
  have hall := takes_eq (P := fun _ => True) (fun s a t _ h => ⟨(take_eq_some hnodup h).1, trivial⟩)
    (fun s _ h => take_eq_none h) trivial (Nat.le_of_eq (total_eq order q).symm)
  exact Prod.ext hall.1 (eq_empty hcomplete hall.2.1)

def Sorted (classOf : α → L) (q : L → List α) : Prop := ∀ l, ∀ a ∈ q l, classOf a = l

theorem Sorted.update (hq : Sorted classOf q) {l : L} {as : List α} (has : ∀ a ∈ as, classOf a = l) :
    Sorted classOf (Function.update q l as) := by
  intro k b hb
  by_cases hk : k = l
  · subst hk
    rw [Function.update_self] at hb
    exact has b hb
  · rw [Function.update_of_ne hk] at hb
    exact hq k b hb

theorem filter_flatMap (hq : Sorted classOf q) (hnodup : order.Nodup) (l : L) :
    (order.flatMap q).filter (classOf · = l) = if l ∈ order then q l else [] := by
  induction order with
  | nil => rfl
  | cons k order ih =>
    obtain ⟨hk, hnodup⟩ := List.nodup_cons.mp hnodup
    rw [List.flatMap_cons, List.filter_append, ih hnodup]
    by_cases hl : l = k
    · subst hl
      have hall : (q l).filter (classOf · = l) = q l :=
        List.filter_eq_self.mpr fun a ha => decide_eq_true (hq l a ha)
      rw [hall, if_neg hk, if_pos List.mem_cons_self, List.append_nil]
    · have hnone : (q k).filter (classOf · = l) = [] := by
        apply List.filter_eq_nil_iff.mpr
        intro a ha
        simpa [hq k a ha] using Ne.symm hl
      rw [hnone, List.nil_append]
      by_cases hmem : l ∈ order
      · rw [if_pos hmem, if_pos (List.mem_cons_of_mem k hmem)]
      · rw [if_neg hmem, if_neg fun h => (List.mem_cons.mp h).elim hl hmem]

theorem call_accounted (capacity : Nat) (hnodup : order.Nodup) (hcomplete : ∀ l, l ∈ order) (hq : Sorted classOf q)
    (c : Call α) :
    Sorted classOf (call order classOf capacity q c).2 ∧
      ∀ l, q l ++ (sent [(c, (call order classOf capacity q c).1)]).filter (classOf · = l) =
        (handed [(c, (call order classOf capacity q c).1)]).filter (classOf · = l) ++
          (call order classOf capacity q c).2 l := by
  cases c with
  | trySend a =>
    rw [call]
    split_ifs with hfull
    · exact ⟨hq, fun l => List.append_nil (q l)⟩
    · refine ⟨hq.update fun b hb => ?_, fun l => ?_⟩
      · rcases List.mem_append.mp hb with hb | hb
        · exact hq _ b hb
        · exact congrArg classOf (List.mem_singleton.mp hb)
      · change q l ++ [a].filter (classOf · = l) = Function.update q (classOf a) (q (classOf a) ++ [a]) l
        by_cases hl : l = classOf a
        · subst hl
          rw [Function.update_self, List.filter_singleton, decide_eq_true rfl]
          rfl
        · rw [Function.update_of_ne hl, List.filter_singleton, decide_eq_false (Ne.symm hl)]
          exact List.append_nil (q l)
  | tryRecv =>
    rw [call]
    cases htake : take order q with
    | none => exact ⟨hq, fun l => List.append_nil (q l)⟩
    | some taken =>
      obtain ⟨a, q'⟩ := taken
      obtain ⟨-, k, rest, hk, rfl⟩ := take_eq_some hnodup htake
      have hclass : classOf a = k := hq k a (hk ▸ List.mem_cons_self)
      refine ⟨hq.update fun b hb => hq k b (hk ▸ List.mem_cons_of_mem a hb), fun l => ?_⟩
      · change q l ++ [] = [a].filter (classOf · = l) ++ Function.update q k rest l
        rw [List.append_nil, List.filter_singleton]
        by_cases hl : l = k
        · subst hl
          rw [Function.update_self, hk, decide_eq_true hclass]
          rfl
        · rw [Function.update_of_ne hl, hclass, decide_eq_false (Ne.symm hl)]
          rfl
  | drain =>
    rw [call, drain_eq hnodup hcomplete]
    refine ⟨fun l b hb => (List.not_mem_nil hb).elim, fun l => ?_⟩
    have hall := filter_flatMap hq hnodup l
    rw [if_pos (hcomplete l)] at hall
    simp only [sent, handed, List.flatMap_singleton, List.filter_nil, List.append_nil]
    exact hall.symm
  | len => exact ⟨hq, fun l => List.append_nil (q l)⟩

theorem run_sorted (capacity : Nat) (hnodup : order.Nodup) (hcomplete : ∀ l, l ∈ order) (hq : Sorted classOf q)
    (cs : List (Call α)) : Sorted classOf (run (call order classOf capacity) q cs).2 := by
  induction cs generalizing q with
  | nil => exact hq
  | cons c cs ih => exact ih (call_accounted capacity hnodup hcomplete hq c).1

theorem run_accounted (capacity : Nat) (hnodup : order.Nodup) (hcomplete : ∀ l, l ∈ order) (hq : Sorted classOf q)
    (cs : List (Call α)) (l : L) : q l ++ (sent (run (call order classOf capacity) q cs).1).filter (classOf · = l) =
      (handed (run (call order classOf capacity) q cs).1).filter (classOf · = l) ++
        (run (call order classOf capacity) q cs).2 l := by
  induction cs generalizing q with
  | nil => exact List.append_nil (q l)
  | cons c cs ih =>
    obtain ⟨hnext, hcall⟩ := call_accounted capacity hnodup hcomplete hq c
    have hrest := ih hnext
    have hfirst := hcall l
    simp only [sent, handed, List.flatMap_singleton] at hfirst hrest
    simp only [run, sent, handed, List.flatMap_cons, List.filter_append]
    rw [← List.append_assoc, hfirst, List.append_assoc, hrest, List.append_assoc]

end Reference
end PriorityFifo
