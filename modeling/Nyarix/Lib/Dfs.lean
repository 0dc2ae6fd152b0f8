import Mathlib.Data.List.Chain
import Mathlib.Data.List.Nodup
import Mathlib.Data.List.Perm.Subperm
import Mathlib.Logic.Function.Basic
import Mathlib.Logic.Relation

/-! Depth-first search in three colours, stopping at the first cycle it closes. Recursion is
bounded by fuel, and as much fuel as there are vertices is always enough. -/

namespace Dfs

inductive Mark where
  | unvisited | inProgress | done
  deriving DecidableEq, Repr

/-- The vertices entered and not left yet, the vertices left, and the colour of each. -/
structure Search (K : Type*) where
  mark : K → Mark
  path : List K
  order : List K

/-- A loop whose body may run out of fuel or stop the loop with an error. -/
def each {K S E : Type*} (body : K → S → Option (Except E S)) : List K → S → Option (Except E S)
  | [], s => some (.ok s)
  | k :: ks, s =>
    match body k s with
    | none => none
    | some (.error e) => some (.error e)
    | some (.ok s) => each body ks s

def through {S S' E E' : Type*} (state : S → S') (error : E → E') :
    Option (Except E S) → Option (Except E' S') := Option.map fun r => (r.map state).mapError error

/-- The way from `k` along the path and back to `k`; all of the path if `k` is not on it. -/
def closing {K : Type*} [DecidableEq K] (path : List K) (k : K) : List K :=
  path.drop ((path.idxOf? k).getD 0) ++ [k]

/-- Results over two kinds of states, with related states if there are any. -/
inductive Agree {S S' E : Type*} (R : S → S' → Prop) : Option (Except E S) → Option (Except E S') → Prop
  | fuel : Agree R none none
  | stop (e : E) : Agree R (some (.error e)) (some (.error e))
  | ok {s : S} {s' : S'} (h : R s s') : Agree R (some (.ok s)) (some (.ok s'))

variable {K : Type*}

namespace Search

def start : Search K := ⟨fun _ => .unvisited, [], []⟩

variable [DecidableEq K]

def enter (s : Search K) (k : K) : Search K :=
  ⟨Function.update s.mark k .inProgress, s.path ++ [k], s.order⟩

def leave (s : Search K) (k : K) : Search K :=
  ⟨Function.update s.mark k .done, s.path.dropLast, s.order ++ [k]⟩

end Search

/-- Each step of the walk follows an edge, it ends where it began, and it repeats no other vertex. -/
structure ClosedWalk (succ : K → List K) (c : List K) : Prop where
  steps : 2 ≤ c.length
  chain : c.IsChain fun a b => b ∈ succ a
  closes : c.head? = c.getLast?
  nodup : c.dropLast.Nodup

def Acyclic (succ : K → List K) : Prop := ∀ k, ¬ Relation.TransGen (fun a b => b ∈ succ a) k k

def SuccessorsFirst (succ : K → List K) (order : List K) : Prop :=
  ∀ front k back, order = front ++ k :: back → ∀ j ∈ succ k, j ∈ front

section Loops
variable {S S' E E' : Type*}

theorem through_map {state : S → S'} {error : E → E'} (f : S → S) (f' : S' → S')
    (h : ∀ s, state (f s) = f' (state s)) (r : Option (Except E S)) :
    through state error (r.map (Except.map f)) = (through state error r).map (Except.map f') := by
  rcases r with _ | e | s
  · rfl
  · rfl
  · exact congrArg (fun s => some (Except.ok s)) (h s)

theorem each_through {state : S → S'} {error : E → E'} {body : K → S → Option (Except E S)}
    {body' : K → S' → Option (Except E' S')}
    (h : ∀ k s, through state error (body k s) = body' k (state s)) (ks : List K) (s : S) :
    through state error (each body ks s) = each body' ks (state s) := by
  induction ks generalizing s with
  | nil => rfl
  | cons k ks ih =>
    have hk := h k s
    rw [each, each, ← hk]
    rcases body k s with _ | e | s'
    · rfl
    · rfl
    · exact ih s'

theorem Agree.map {R : S → S' → Prop} {f : S → S} {f' : S' → S'} (hf : ∀ s s', R s s' → R (f s) (f' s'))
    {r : Option (Except E S)} {r' : Option (Except E S')} (h : Agree R r r') :
    Agree R (r.map (Except.map f)) (r'.map (Except.map f')) := by
  cases h with
  | fuel => exact .fuel
  | stop e => exact .stop e
  | ok h => exact .ok (hf _ _ h)

theorem each_agree {R : S → S' → Prop} {body : K → S → Option (Except E S)} {body' : K → S' → Option (Except E S')}
    {ks : List K} (h : ∀ k ∈ ks, ∀ s s', R s s' → Agree R (body k s) (body' k s')) {s : S} {s' : S'} (hs : R s s') :
    Agree R (each body ks s) (each body' ks s') := by
  induction ks generalizing s s' with
  | nil => exact .ok hs
  | cons k ks ih =>
    have hfirst := h k List.mem_cons_self s s' hs
    rw [each, each]
    generalize body k s = r, body' k s' = r' at hfirst
    cases hfirst with
    | fuel => exact .fuel
    | stop e => exact .stop e
    | ok hnext => exact ih (fun j hj => h j (List.mem_cons_of_mem k hj)) hnext

theorem each_filter (body : K → S → Option (Except E S)) (p : K → Prop) [DecidablePred p] (ks : List K) (s : S) :
    each (fun k s => if p k then body k s else some (.ok s)) ks s = each body (ks.filter p) s := by
  induction ks generalizing s with
  | nil => rfl
  | cons k ks ih =>
    by_cases hk : p k
    · rw [each, if_pos hk, List.filter_cons_of_pos (by simpa using hk), each]
      rcases body k s with _ | e | s'
      · rfl
      · rfl
      · exact ih s'
    · rw [each, if_neg hk, List.filter_cons_of_neg (by simpa using hk)]
      exact ih s

theorem each_mono {body body' : K → S → Option (Except E S)} (h : ∀ k s r, body k s = some r → body' k s = some r)
    {ks : List K} {s : S} {r : Except E S} (hr : each body ks s = some r) : each body' ks s = some r := by
  induction ks generalizing s with
  | nil => exact hr
  | cons k ks ih =>
    rw [each] at hr
    rw [each]
    cases hk : body k s with
    | none =>
      rw [hk] at hr
      cases hr
    | some first =>
      rw [hk] at hr
      rw [h k s first hk]
      cases first with
      | error e => exact hr
      | ok s' => exact ih hr

end Loops

theorem SuccessorsFirst.snoc {succ : K → List K} {order : List K} (h : SuccessorsFirst succ order) {k : K}
    (hk : ∀ j ∈ succ k, j ∈ order) : SuccessorsFirst succ (order ++ [k]) := by
  intro front a back hsplit j hj
  rcases List.eq_nil_or_concat back with rfl | ⟨back, last, rfl⟩
  · obtain ⟨rfl, hlast⟩ := List.append_inj' hsplit rfl
    obtain rfl : k = a := by simpa using hlast
    exact hk j hj
  · rw [List.concat_eq_append, ← List.cons_append, ← List.append_assoc] at hsplit
    exact h front a back (List.append_inj' hsplit rfl).1 j hj

variable [DecidableEq K]

def visit (succ : K → List K) (fuel : Nat) (k : K) (s : Search K) : Option (Except (List K) (Search K)) :=
  match s.mark k, fuel with
  | .done, _ => some (.ok s)
  | .inProgress, _ => some (.error (closing s.path k))
  | .unvisited, 0 => none
  | .unvisited, fuel + 1 => (each (visit succ fuel) (succ k) (s.enter k)).map (Except.map (·.leave k))

def search (succ : K → List K) (fuel : Nat) (starts : List K) : Option (Except (List K) (Search K)) :=
  each (visit succ fuel) starts .start

theorem visit_mono (succ : K → List K) {fuel fuel' : Nat} (hfuel : fuel ≤ fuel') {k : K} {s : Search K}
    {r : Except (List K) (Search K)} (hr : visit succ fuel k s = some r) : visit succ fuel' k s = some r := by
  induction fuel generalizing fuel' k s r with
  | zero =>
    unfold visit at hr ⊢
    cases hmark : s.mark k with
    | unvisited =>
      rw [hmark] at hr
      cases hr
    | inProgress =>
      rw [hmark] at hr
      exact hr
    | done =>
      rw [hmark] at hr
      exact hr
  | succ fuel ih =>
    obtain ⟨fuel', rfl⟩ : ∃ n, fuel' = n + 1 := ⟨fuel' - 1, by omega⟩
    unfold visit at hr ⊢
    cases hmark : s.mark k with
    | unvisited =>
      rw [hmark] at hr
      obtain ⟨inner, heach, hr⟩ := Option.map_eq_some_iff.mp hr
      have hmore := each_mono (fun j s' r' hj => ih (Nat.le_of_succ_le_succ hfuel) hj) heach
      exact Option.map_eq_some_iff.mpr ⟨inner, hmore, hr⟩
    | inProgress =>
      rw [hmark] at hr
      exact hr
    | done =>
      rw [hmark] at hr
      exact hr

theorem search_mono (succ : K → List K) {fuel fuel' : Nat} (hfuel : fuel ≤ fuel') {starts : List K}
    {r : Except (List K) (Search K)} (hr : search succ fuel starts = some r) :
    search succ fuel' starts = some r := each_mono (fun _ _ _ => visit_mono succ hfuel) hr

structure Colouring (succ : K → List K) (V : List K) (s : Search K) : Prop where
  inProgress : ∀ k, s.mark k = .inProgress ↔ k ∈ s.path
  done : ∀ k, s.mark k = .done ↔ k ∈ s.order
  pathNodup : s.path.Nodup
  pathChain : s.path.IsChain fun a b => b ∈ succ a
  pathKnown : s.path ⊆ V
  orderNodup : s.order.Nodup
  orderKnown : s.order ⊆ V
  first : SuccessorsFirst succ s.order

/-- A search from `s` that went through `ks`: it left the path as it was and has finished them,
or it stopped at a cycle. -/
inductive Advances (succ : K → List K) (V : List K) (s : Search K) (ks : List K) :
    Option (Except (List K) (Search K)) → Prop
  | ok {s' : Search K} (colouring : Colouring succ V s') (path : s'.path = s.path)
    (kept : s.order ⊆ s'.order) (finished : ks ⊆ s'.order) : Advances succ V s ks (some (.ok s'))
  | cycle {c : List K} (closed : ClosedWalk succ c) : Advances succ V s ks (some (.error c))

variable {succ : K → List K} {V : List K} {s : Search K}

omit [DecidableEq K] in
theorem Colouring.start : Colouring succ V .start where
  inProgress k := by simp [Search.start]
  done k := by simp [Search.start]
  pathNodup := List.nodup_nil
  pathChain := List.IsChain.nil
  pathKnown := List.nil_subset V
  orderNodup := List.nodup_nil
  orderKnown := List.nil_subset V
  first front k back h := by
    have hlen := congrArg List.length h
    simp [Search.start] at hlen

theorem Colouring.enter (h : Colouring succ V s) {k : K} (hmark : s.mark k = .unvisited) (hk : k ∈ V)
    (hchain : (s.path ++ [k]).IsChain fun a b => b ∈ succ a) : Colouring succ V (s.enter k) := by
  have hpath : k ∉ s.path := fun hmem => by
    have hin := (h.inProgress k).mpr hmem
    rw [hmark] at hin
    cases hin
  have horder : k ∉ s.order := fun hmem => by
    have hdone := (h.done k).mpr hmem
    rw [hmark] at hdone
    cases hdone
  refine ⟨fun j => ?_, fun j => ?_, ?_, hchain, ?_, h.orderNodup, h.orderKnown, h.first⟩
  · change Function.update s.mark k .inProgress j = _ ↔ j ∈ s.path ++ [k]
    by_cases hj : j = k
    · subst hj
      simp
    · rw [Function.update_of_ne hj, h.inProgress, List.mem_append, List.mem_singleton, or_iff_left hj]
  · change Function.update s.mark k .inProgress j = _ ↔ j ∈ s.order
    by_cases hj : j = k
    · subst hj
      simp [horder]
    · rw [Function.update_of_ne hj, h.done]
  · exact List.nodup_append'.mpr ⟨h.pathNodup, List.nodup_singleton k, by simpa using hpath⟩
  · exact List.append_subset.mpr ⟨h.pathKnown, by simpa using hk⟩

theorem Colouring.leave (h : Colouring succ V s) {path : List K} {k : K} (hpath : s.path = path ++ [k])
    (hk : ∀ j ∈ succ k, j ∈ s.order) : Colouring succ V (s.leave k) := by
  have hdrop : s.path.dropLast = path := by rw [hpath, List.dropLast_concat]
  have hnodup := h.pathNodup
  rw [hpath, List.nodup_append'] at hnodup
  have hmem : k ∈ s.path := by simp [hpath]
  have hnew : k ∉ s.order := fun hmem' => by
    have hin := (h.inProgress k).mpr hmem
    rw [(h.done k).mpr hmem'] at hin
    cases hin
  refine ⟨fun j => ?_, fun j => ?_, ?_, ?_, ?_, ?_, ?_, h.first.snoc hk⟩
  · change Function.update s.mark k .done j = _ ↔ j ∈ s.path.dropLast
    rw [hdrop]
    by_cases hj : j = k
    · subst hj
      simpa using hnodup.2.2
    · rw [Function.update_of_ne hj, h.inProgress, hpath, List.mem_append, List.mem_singleton, or_iff_left hj]
  · change Function.update s.mark k .done j = _ ↔ j ∈ s.order ++ [k]
    by_cases hj : j = k
    · subst hj
      simp
    · rw [Function.update_of_ne hj, h.done, List.mem_append, List.mem_singleton, or_iff_left hj]
  · exact h.pathNodup.sublist (List.dropLast_sublist s.path)
  · exact h.pathChain.dropLast
  · exact List.Subset.trans (List.dropLast_subset s.path) h.pathKnown
  · exact List.nodup_append'.mpr ⟨h.orderNodup, List.nodup_singleton k, by simpa using hnew⟩
  · exact List.append_subset.mpr ⟨h.orderKnown, by simpa using h.pathKnown hmem⟩

theorem closing_eq {path : List K} {k : K} (hk : k ∈ path) :
    ∃ front rest, path = front ++ k :: rest ∧ closing path k = k :: rest ++ [k] := by
  obtain ⟨i, hi⟩ := Option.isSome_iff_exists.mp (List.isSome_idxOf?.mpr hk)
  obtain ⟨hlt, hget, -⟩ := List.idxOf?_eq_some_iff.mp hi
  have hdrop : path.drop i = k :: path.drop (i + 1) := by rw [List.drop_eq_getElem_cons hlt, hget]
  refine ⟨path.take i, path.drop (i + 1), ?_, ?_⟩
  · rw [← hdrop, List.take_append_drop]
  · rw [closing, hi, Option.getD_some, hdrop]

theorem Colouring.closedWalk (h : Colouring succ V s) {k : K} (hk : k ∈ s.path)
    (hchain : (s.path ++ [k]).IsChain fun a b => b ∈ succ a) : ClosedWalk succ (closing s.path k) := by
  obtain ⟨front, rest, hpath, hclosing⟩ := closing_eq hk
  have hnodup := h.pathNodup
  rw [hpath] at hnodup hchain
  rw [List.append_assoc] at hchain
  rw [hclosing]
  refine ⟨by simp, hchain.right_of_append, ?_, ?_⟩
  · rw [List.getLast?_concat]
    rfl
  · rw [List.dropLast_concat]
    exact hnodup.of_append_right

omit [DecidableEq K] in
theorem advances_each {body : K → Search K → Option (Except (List K) (Search K))} {ks : List K}
    (hbody : ∀ k ∈ ks, ∀ s', Colouring succ V s' → s'.path = s.path → Advances succ V s' [k] (body k s'))
    (hs : Colouring succ V s) : Advances succ V s ks (each body ks s) := by
  induction ks generalizing s with
  | nil => exact .ok hs rfl (List.Subset.refl _) (List.nil_subset _)
  | cons k ks ih =>
    have hhead := hbody k List.mem_cons_self s hs rfl
    rw [each]
    generalize body k s = r at hhead
    cases hhead with
    | cycle closed => exact .cycle closed
    | @ok s₁ hs₁ hpath₁ hkept₁ hdone₁ =>
      have htail := ih (fun j hj s' hs' hp => hbody j (List.mem_cons_of_mem k hj) s' hs' (hp.trans hpath₁)) hs₁
      dsimp only
      generalize each body ks s₁ = r at htail
      cases htail with
      | cycle closed => exact .cycle closed
      | ok hs₂ hpath₂ hkept₂ hdone₂ =>
        have hk := hkept₂ (hdone₁ List.mem_cons_self)
        exact .ok hs₂ (hpath₂.trans hpath₁) (List.Subset.trans hkept₁ hkept₂) (List.cons_subset.mpr ⟨hk, hdone₂⟩)

theorem advances_marked {k : K} (hs : Colouring succ V s) (hmark : s.mark k ≠ .unvisited)
    (hchain : (s.path ++ [k]).IsChain fun a b => b ∈ succ a) (fuel : Nat) :
    Advances succ V s [k] (visit succ fuel k s) := by
  unfold visit
  cases h : s.mark k with
  | unvisited => exact absurd h hmark
  | inProgress => exact .cycle (hs.closedWalk ((hs.inProgress k).mp h) hchain)
  | done =>
    have hdone := (hs.done k).mp h
    exact .ok hs rfl (List.Subset.refl _) (by simpa using hdone)

theorem advances_visit (hV : ∀ k, succ k ⊆ V) {fuel : Nat} {k : K} (hk : k ∈ V) (hs : Colouring succ V s)
    (hchain : (s.path ++ [k]).IsChain fun a b => b ∈ succ a) (hfuel : V.length ≤ fuel + s.path.length) :
    Advances succ V s [k] (visit succ fuel k s) := by
  induction fuel generalizing k s with
  | zero =>
    apply advances_marked hs _ hchain
    intro hmark
    -- all vertices would be on the path, this one too
    have hin := hs.enter hmark hk hchain
    have hle := (List.subperm_of_subset hin.pathNodup hin.pathKnown).length_le
    rw [Search.enter, List.length_append, List.length_singleton] at hle
    omega
  | succ fuel ih =>
    by_cases hmark : s.mark k = .unvisited
    · have hin := hs.enter hmark hk hchain
      have hall : Advances succ V (s.enter k) (succ k) (each (visit succ fuel) (succ k) (s.enter k)) := by
        refine advances_each (fun j hj s' hs' hpath => ih (hV k hj) hs' ?_ ?_) hin
        · rw [hpath]
          refine hin.pathChain.append (List.isChain_singleton j) fun a ha b hb => ?_
          obtain rfl : k = a := by simpa [Search.enter] using ha
          obtain rfl : j = b := by simpa using hb
          exact hj
        · have hlen : s'.path.length = s.path.length + 1 := by
            rw [hpath, Search.enter, List.length_append, List.length_singleton]
          omega
      unfold visit
      rw [hmark]
      dsimp only
      generalize each (visit succ fuel) (succ k) (s.enter k) = r at hall
      cases hall with
      | cycle closed => exact .cycle closed
      | @ok s₁ hs₁ hpath₁ hkept₁ hdone₁ =>
        have hleft := hs₁.leave hpath₁ hdone₁
        refine .ok hleft ?_ (List.Subset.trans hkept₁ (List.subset_append_left _ _)) (by simp [Search.leave])
        change s₁.path.dropLast = s.path
        rw [hpath₁, Search.enter, List.dropLast_concat]
    · exact advances_marked hs hmark hchain _

theorem advances_search (hV : ∀ k, succ k ⊆ V) {fuel : Nat} (hfuel : V.length ≤ fuel) {starts : List K}
    (hstarts : starts ⊆ V) : Advances succ V .start starts (search succ fuel starts) := by
  refine advances_each (fun k hk s' hs' hpath => advances_visit hV (hstarts hk) hs' ?_ ?_) .start
  · rw [hpath]
    exact List.isChain_singleton k
  · omega

omit [DecidableEq K] in
theorem SuccessorsFirst.mem_front {order front back : List K} {k j : K} (h : SuccessorsFirst succ order)
    (hsplit : order = front ++ k :: back) (hj : Relation.TransGen (fun a b => b ∈ succ a) k j) : j ∈ front := by
  induction hj with
  | single hj => exact h front k back hsplit _ hj
  | @tail b c _ hc hb =>
    obtain ⟨front', back', rfl⟩ := List.append_of_mem hb
    have hfront : c ∈ front' := h front' b (back' ++ k :: back) (by rw [hsplit]; simp) c hc
    exact List.mem_append_left _ hfront

omit [DecidableEq K] in
theorem SuccessorsFirst.irrefl {order : List K} (h : SuccessorsFirst succ order) (hnodup : order.Nodup)
    {k : K} (hk : k ∈ order) : ¬ Relation.TransGen (fun a b => b ∈ succ a) k k := by
  intro hloop
  obtain ⟨front, back, rfl⟩ := List.append_of_mem hk
  have hfront := h.mem_front rfl hloop
  exact (List.disjoint_of_nodup_append hnodup) hfront List.mem_cons_self

omit [DecidableEq K] in
theorem ClosedWalk.not_acyclic {c : List K} (h : ClosedWalk succ c) : ¬ Acyclic succ := by
  intro hacyclic
  obtain ⟨hsteps, hchain, hcloses, -⟩ := h
  rcases c with _ | ⟨a, _ | ⟨b, c⟩⟩
  · simp at hsteps
  · simp at hsteps
  · rw [List.isChain_cons_cons] at hchain
    have hlast : (b :: c).getLast (List.cons_ne_nil b c) = a := by
      rw [List.head?_cons, List.getLast?_cons_cons, List.getLast?_eq_some_getLast (List.cons_ne_nil b c),
        Option.some.injEq] at hcloses
      exact hcloses.symm
    have hback : Relation.ReflTransGen (fun a b => b ∈ succ a) b a := by
      have hreach := List.relationReflTransGen_of_exists_isChain_cons c hchain.2 hlast
      exact hreach
    exact hacyclic a (Relation.TransGen.head' hchain.1 hback)

/-- A search from all vertices either lists each of them once and after its successors, and there is
no cycle, or returns a cycle. -/
theorem search_cases (hV : ∀ k, succ k ⊆ V) (hnodup : V.Nodup) {fuel : Nat} (hfuel : V.length ≤ fuel)
    {starts : List K} (hstarts : starts.Perm V) :
    (∃ s', search succ fuel starts = some (.ok s') ∧ s'.order.Perm V ∧ SuccessorsFirst succ s'.order ∧
      Acyclic succ) ∨
    (∃ c, search succ fuel starts = some (.error c) ∧ ClosedWalk succ c ∧ ¬ Acyclic succ) := by
  have hadv := advances_search hV hfuel hstarts.subset
  generalize search succ fuel starts = r at hadv
  cases hadv with
  | cycle closed => exact .inr ⟨_, rfl, closed, closed.not_acyclic⟩
  | @ok s' hs' hpath hkept hdone =>
    have hall : V ⊆ s'.order := fun k hk => hdone (hstarts.symm.subset hk)
    have hperm : s'.order.Perm V := by
      apply (List.perm_ext_iff_of_nodup hs'.orderNodup hnodup).mpr
      exact fun k => ⟨fun hk => hs'.orderKnown hk, fun hk => hall hk⟩
    refine .inl ⟨s', rfl, hperm, hs'.first, fun k hloop => ?_⟩
    obtain ⟨j, -, hk⟩ := Relation.TransGen.tail'_iff.mp hloop
    exact hs'.first.irrefl hs'.orderNodup (hall (hV j hk)) hloop

end Dfs
