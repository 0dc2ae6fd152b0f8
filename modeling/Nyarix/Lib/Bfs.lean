import Mathlib.Data.Finset.Insert
import Mathlib.Data.Finset.Card
import Mathlib.Data.List.Chain
import Mathlib.Data.List.Nodup
import Mathlib.Logic.Function.Basic
import Mathlib.Logic.Relation

/-! Breadth-first search. The vertices found so far lie in layers around the start: the queue holds a
layer and part of the next, and every vertex was found from the layer before its own. -/

namespace Bfs
variable {K : Type*}

inductive Walk (succ : K → List K) (a : K) : Nat → K → Prop
  | nil : Walk succ a 0 a
  | snoc {n : Nat} {b c : K} (h : Walk succ a n b) (hc : c ∈ succ b) : Walk succ a (n + 1) c

/-- The way to a vertex, read off the vertices that others were found from. -/
inductive Traced (pred : K → Option K) (a : K) : K → List K → Prop
  | start : Traced pred a a [a]
  | found {u v : K} {path : List K} (h : Traced pred a u path) (hpred : pred v = some u) (hv : v ≠ a) :
    Traced pred a v (path ++ [v])

variable {succ : K → List K} {a : K}

theorem walk_of_isChain {path : List K} {v : K} (hhead : path.head? = some a) (hlast : path.getLast? = some v)
    (hchain : path.IsChain fun b c => c ∈ succ b) : Walk succ a (path.length - 1) v := by
  induction path using List.reverseRecOn generalizing v with
  | nil => cases hhead
  | append_singleton path w ih =>
    obtain rfl : w = v := by simpa using hlast
    rcases List.eq_nil_or_concat path with rfl | ⟨front, u, rfl⟩
    · obtain rfl : w = a := by simpa using hhead
      exact .nil
    · rw [List.concat_eq_append] at hhead hchain ih ⊢
      have hu : Walk succ a ((front ++ [u]).length - 1) u :=
        ih (by cases front <;> exact hhead) (by simp) hchain.left_of_append
      have hstep : w ∈ succ u := by
        have hends := (List.isChain_append.mp hchain).2.2
        exact hends u (by simp) w (by simp)
      have hmore := hu.snoc hstep
      simpa using hmore

theorem reflTransGen_of_walk {n : Nat} {v : K} (h : Walk succ a n v) :
    Relation.ReflTransGen (fun b c => c ∈ succ b) a v := by
  induction h with
  | nil => exact .refl
  | snoc _ hc ih => exact ih.tail hc

theorem Traced.length_pos {pred : K → Option K} {v : K} {path : List K} (h : Traced pred a v path) :
    0 < path.length := by
  cases h with
  | start => exact Nat.one_pos
  | found => simp

variable [DecidableEq K]

/-- What holds between two steps of the search. The queue starts with the vertex under way; all that
is no farther than this vertex has been found. -/
structure Layers (succ : K → List K) (a : K) (visited : Finset K) (queue : List K) (pred : K → Option K)
    (depth : K → Nat) : Prop where
  start : a ∈ visited
  zero : depth a = 0
  back : ∀ v ∈ visited, v ≠ a → ∃ u ∈ visited, pred v = some u ∧ v ∈ succ u ∧ depth v = depth u + 1
  queued : ∀ v ∈ queue, v ∈ visited
  closed : ∀ u ∈ visited, u ∉ queue → ∀ v ∈ succ u, v ∈ visited
  sorted : queue.Pairwise fun v w => depth v ≤ depth w
  narrow : ∀ c ∈ queue.head?, ∀ v ∈ queue, depth v ≤ depth c + 1
  shortest : ∀ v ∈ visited, ∀ n, Walk succ a n v → depth v ≤ n
  near : ∀ c ∈ queue.head?, ∀ v n, Walk succ a n v → n ≤ depth c → v ∈ visited

variable {visited : Finset K} {queue : List K} {pred : K → Option K} {depth : K → Nat}

omit [DecidableEq K] in
theorem layers_start (succ : K → List K) (a : K) : Layers succ a {a} [a] (fun _ => none) fun _ => 0 where
  start := Finset.mem_singleton_self a
  zero := rfl
  back v hv hne := absurd (Finset.mem_singleton.mp hv) hne
  queued v hv := Finset.mem_singleton.mpr (List.mem_singleton.mp hv)
  closed u hu hout := absurd (List.mem_singleton.mpr (Finset.mem_singleton.mp hu)) hout
  sorted := List.pairwise_singleton _ a
  narrow _ _ _ _ := Nat.zero_le _
  shortest _ _ _ _ := Nat.zero_le _
  near _ _ v n hwalk hn := by
    obtain rfl : n = 0 := Nat.le_zero.mp hn
    cases hwalk
    exact Finset.mem_singleton_self a

theorem Layers.discover {current v : K} (h : Layers succ a visited (current :: queue) pred depth)
    (hv : v ∈ succ current) (hnew : v ∉ visited) :
    Layers succ a (insert v visited) (current :: (queue ++ [v])) (Function.update pred v (some current))
      (Function.update depth v (depth current + 1)) := by
  have hcurrent : current ∈ visited := h.queued current List.mem_cons_self
  have hne : ∀ {u}, u ∈ visited → u ≠ v := fun hu heq => hnew (heq ▸ hu)
  have hdepth : ∀ {u}, u ∈ visited → Function.update depth v (depth current + 1) u = depth u :=
    fun hu => Function.update_of_ne (hne hu) _ _
  have hself : Function.update depth v (depth current + 1) v = depth current + 1 := Function.update_self ..
  -- all that is no farther than `current` was found, so the new vertex is farther
  have hfar : ∀ n, Walk succ a n v → depth current < n := fun n hwalk =>
    Nat.lt_of_not_le fun hle => hnew (h.near current rfl v n hwalk hle)
  have hqueue : ∀ w ∈ queue, w ∈ visited := fun w hw => h.queued w (List.mem_cons_of_mem _ hw)
  refine ⟨Finset.mem_insert_of_mem h.start, by rw [hdepth h.start, h.zero], fun w hw hwa => ?_, fun w hw => ?_,
    fun u hu hout w hw => ?_, ?_, fun c hc w hw => ?_, fun w hw n hwalk => ?_, fun c hc w n hwalk hn => ?_⟩
  · rcases Finset.mem_insert.mp hw with rfl | hw
    · exact ⟨current, Finset.mem_insert_of_mem hcurrent, Function.update_self .., hv, by rw [hself, hdepth hcurrent]⟩
    · obtain ⟨u, hu, hpred, hsucc, hlayer⟩ := h.back w hw hwa
      refine ⟨u, Finset.mem_insert_of_mem hu, ?_, hsucc, by rw [hdepth hw, hdepth hu, hlayer]⟩
      rw [Function.update_of_ne (hne hw), hpred]
  · -- whatever the queue holds has been found
    rcases List.mem_cons.mp hw with rfl | hw
    · exact Finset.mem_insert_of_mem hcurrent
    · rcases List.mem_append.mp hw with hw | hw
      · exact Finset.mem_insert_of_mem (hqueue w hw)
      · rw [List.mem_singleton.mp hw]
        exact Finset.mem_insert_self v visited
  · have huv : u ≠ v := by
      rintro rfl
      exact hout (List.mem_cons_of_mem _ (List.mem_append_right _ (List.mem_singleton_self u)))
    refine Finset.mem_insert_of_mem (h.closed u (Finset.mem_of_mem_insert_of_ne hu huv) (fun hmem => hout ?_) w hw)
    rcases List.mem_cons.mp hmem with rfl | hmem
    · exact List.mem_cons_self
    · exact List.mem_cons_of_mem _ (List.mem_append_left _ hmem)
  · have hold : (current :: queue).Pairwise fun x y =>
        Function.update depth v (depth current + 1) x ≤ Function.update depth v (depth current + 1) y := by
      refine h.sorted.imp_of_mem fun {x y} hx hy hxy => ?_
      rwa [hdepth (h.queued x hx), hdepth (h.queued y hy)]
    rw [← List.cons_append, List.pairwise_append]
    refine ⟨hold, List.pairwise_singleton _ v, fun x hx y hy => ?_⟩
    rw [List.mem_singleton.mp hy, hself, hdepth (h.queued x hx)]
    exact h.narrow current rfl x hx
  · obtain rfl : current = c := Option.some.inj hc
    rw [hdepth hcurrent]
    rcases List.mem_cons.mp hw with rfl | hw
    · rw [hdepth hcurrent]
      exact Nat.le_succ _
    · rcases List.mem_append.mp hw with hw | hw
      · rw [hdepth (hqueue w hw)]
        exact h.narrow current rfl w (List.mem_cons_of_mem _ hw)
      · rw [List.mem_singleton.mp hw, hself]
  · rcases Finset.mem_insert.mp hw with rfl | hw
    · rw [hself]
      exact hfar n hwalk
    · rw [hdepth hw]
      exact h.shortest w hw n hwalk
  · obtain rfl : current = c := Option.some.inj hc
    rw [hdepth hcurrent] at hn
    exact Finset.mem_insert_of_mem (h.near current rfl w n hwalk hn)

omit [DecidableEq K] in
theorem Layers.pop {current : K} (h : Layers succ a visited (current :: queue) pred depth)
    (hall : ∀ v ∈ succ current, v ∈ visited) : Layers succ a visited queue pred depth := by
  have hsorted := List.pairwise_cons.mp h.sorted
  have hclosed : ∀ u ∈ visited, u ∉ queue → ∀ v ∈ succ u, v ∈ visited := by
    intro u hu hout
    by_cases hcurrent : u = current
    · rw [hcurrent]
      exact hall
    · exact h.closed u hu fun hmem => hout ((List.mem_cons.mp hmem).resolve_left hcurrent)
  refine ⟨h.start, h.zero, h.back, fun v hv => h.queued v (List.mem_cons_of_mem _ hv), hclosed, hsorted.2,
    fun c hc v hv => ?_, h.shortest, fun c hc v n hwalk hn => ?_⟩
  · have hc := List.mem_of_mem_head? hc
    exact (h.narrow current rfl v (List.mem_cons_of_mem _ hv)).trans (Nat.succ_le_succ (hsorted.1 c hc))
  · cases queue with
    | nil => cases hc
    | cons c' queue =>
      obtain rfl : c' = c := Option.some.inj hc
      -- one layer on: what is as far as the next vertex was found from a vertex that has left
      cases hwalk with
      | nil => exact h.start
      | @snoc n u v hu hv =>
        have hnarrow := h.narrow current rfl c' (List.mem_cons_of_mem _ List.mem_cons_self)
        have hle : n ≤ depth current := by omega
        have huv : u ∈ visited := h.near current rfl u n hu hle
        by_cases hmem : u ∈ c' :: queue
        · have hdepth := h.shortest u huv n hu
          have hc' : depth c' ≤ depth u := by
            rcases List.mem_cons.mp hmem with rfl | hmem
            · exact Nat.le_refl _
            · exact (List.pairwise_cons.mp hsorted.2).1 u hmem
          omega
        · exact hclosed u huv hmem v hv

omit [DecidableEq K] in
theorem Layers.exhausted (h : Layers succ a visited [] pred depth) {v : K}
    (hreach : Relation.ReflTransGen (fun b c => c ∈ succ b) a v) : v ∈ visited := by
  induction hreach with
  | refl => exact h.start
  | tail _ hc ih => exact h.closed _ ih List.not_mem_nil _ hc

omit [DecidableEq K] in
theorem Layers.exists_traced (h : Layers succ a visited queue pred depth) {v : K} (hv : v ∈ visited) :
    ∃ path, Traced pred a v path ∧ path.length = depth v + 1 ∧ path.head? = some a ∧ path.getLast? = some v ∧
      path.IsChain (fun b c => c ∈ succ b) ∧ path.Nodup ∧ ∀ u ∈ path, u ∈ visited ∧ depth u ≤ depth v := by
  induction hd : depth v generalizing v with
  | zero =>
    have hva : v = a := by
      by_contra hne
      obtain ⟨u, -, -, -, hlayer⟩ := h.back v hv hne
      omega
    subst hva
    refine ⟨[v], .start, by rw [List.length_singleton], rfl, rfl, List.isChain_singleton v, List.nodup_singleton v, ?_⟩
    intro u hu
    rw [List.mem_singleton.mp hu]
    exact ⟨hv, hd.le⟩
  | succ n ih =>
    have hne : v ≠ a := by
      rintro rfl
      rw [h.zero] at hd
      cases hd
    obtain ⟨u, hu, hpred, hsucc, hlayer⟩ := h.back v hv hne
    have hdu : depth u = n := by omega
    obtain ⟨path, htraced, hlength, hhead, hlast, hchain, hnodup, hpath⟩ := ih hu hdu
    have hout : v ∉ path := fun hmem => by
      have hle := (hpath v hmem).2
      omega
    refine ⟨path ++ [v], htraced.found hpred hne, ?_, ?_, List.getLast?_concat, ?_, ?_, fun w hw => ?_⟩
    · rw [List.length_append, List.length_singleton, hlength]
    · rw [List.head?_append, hhead]
      rfl
    · refine hchain.append (List.isChain_singleton v) fun x hx y hy => ?_
      rw [hlast] at hx
      obtain rfl : u = x := Option.some.inj hx
      obtain rfl : v = y := Option.some.inj hy
      exact hsucc
    · exact List.nodup_append'.mpr ⟨hnodup, List.nodup_singleton v, by simpa using hout⟩
    · rcases List.mem_append.mp hw with hw | hw
      · exact ⟨(hpath w hw).1, (hpath w hw).2.trans (Nat.le_succ n)⟩
      · rw [List.mem_singleton.mp hw]
        exact ⟨hv, hd.le⟩

end Bfs
