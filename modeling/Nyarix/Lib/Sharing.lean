import Mathlib.Data.List.Induction
import Mathlib.Data.List.Nodup
import Mathlib.Data.List.Perm.Subperm
import Mathlib.Data.List.ReduceOption

/-! Values behind counted pointers. A clone shares its value, and a write through a shared pointer goes
to a copy; the last owner to go takes the value with it. -/

namespace Sharing
variable {V : Type*}

structure Cell (V : Type*) where
  value : V
  strong : Nat
  deriving DecidableEq, Repr

/-- The cells by their address, and the address that each handle holds until it is dropped. Neither
list shrinks: a cell whose count is zero is gone. -/
structure Heap (V : Type*) where
  cells : List (Cell V)
  handles : List (Option Nat)
  deriving DecidableEq, Repr

namespace Heap

def empty : Heap V := ⟨[], []⟩

def address (s : Heap V) (h : Nat) : Option Nat := s.handles.getD h none

def strong (s : Heap V) (a : Nat) : Nat := (s.cells[a]?.map Cell.strong).getD 0

def value (s : Heap V) (a : Nat) : Option V := s.cells[a]?.map Cell.value

def read (s : Heap V) (h : Nat) : Option V := (s.address h).bind s.value

def through (s : Heap V) (held : Option Nat) : Option V := held.bind s.value

def view (s : Heap V) : List (Option V) := s.handles.map s.through

def retain (cells : List (Cell V)) (a : Nat) : List (Cell V) :=
  cells.modify a fun c => { c with strong := c.strong + 1 }

def release (cells : List (Cell V)) (a : Nat) : List (Cell V) :=
  cells.modify a fun c => { c with strong := c.strong - 1 }

def alloc (s : Heap V) (v : V) : Heap V := ⟨s.cells ++ [⟨v, 1⟩], s.handles ++ [some s.cells.length]⟩

def clone (s : Heap V) (h : Nat) : Heap V :=
  match s.address h with
  | none => s
  | some a => ⟨retain s.cells a, s.handles ++ [some a]⟩

def drop (s : Heap V) (h : Nat) : Heap V :=
  match s.address h with
  | none => s
  | some a => ⟨release s.cells a, s.handles.set h none⟩

/-- A handle that shares its cell gets a cell of its own. -/
def makeMut (s : Heap V) (h : Nat) : Heap V :=
  match s.address h with
  | none => s
  | some a =>
    if s.strong a = 1 then s
    else ⟨release s.cells a ++ (s.value a).toList.map fun v => ⟨v, 1⟩, s.handles.set h (some s.cells.length)⟩

def write (s : Heap V) (h : Nat) (f : V → V) : Heap V :=
  match s.address h with
  | none => s
  | some a => { s with cells := s.cells.modify a fun c => { c with value := f c.value } }

def update (s : Heap V) (h : Nat) (f : V → V) : Heap V := (s.makeMut h).write h f

def sole (s : Heap V) (h : Nat) : Bool := (s.address h).any fun a => s.strong a == 1

def shared (s : Heap V) (h : Nat) : Bool := (s.address h).any fun a => s.strong a != 1

def live (s : Heap V) : Nat := s.cells.countP fun c => c.strong != 0

def held (s : Heap V) : Nat := s.handles.countP Option.isSome

/-- Every cell counts the handles that hold it. -/
def Counted (s : Heap V) : Prop := ∀ a, s.strong a = s.handles.count (some a)

theorem countP_modify {α : Type*} (p : α → Bool) {l : List α} {i : Nat} {x : α} (h : l[i]? = some x) (f : α → α) :
    (l.modify i f).countP p + (p x).toNat = l.countP p + (p (f x)).toNat := by
  induction l generalizing i with
  | nil => simp at h
  | cons y l ih =>
    cases i with
    | zero =>
      obtain rfl : y = x := by simpa using h
      cases hy : p y <;> cases hf : p (f y) <;> simp [List.modify_zero_cons, hy, hf]
    | succ i =>
      have := ih (i := i) (by simpa using h)
      rw [List.modify_succ_cons, List.countP_cons, List.countP_cons]
      omega

theorem countP_set {α : Type*} (p : α → Bool) {l : List α} {i : Nat} {x : α} (h : l[i]? = some x) (y : α) :
    (l.set i y).countP p + (p x).toNat = l.countP p + (p y).toNat := by
  have hset : l.set i y = l.modify i fun _ => y := by
    apply List.ext_getElem?
    intro j
    rw [List.getElem?_modify, List.getElem?_set]
    by_cases hij : i = j
    · subst hij
      simp [(List.getElem?_eq_some_iff.mp h).1]
    · simp [hij]
  rw [hset, countP_modify p h]

variable {s : Heap V} {h a : Nat} {v : V} {held : Option Nat}

theorem handle_of_address (ha : s.address h = some a) : s.handles[h]? = some (some a) := by
  rw [address, List.getD_eq_getElem?_getD] at ha
  cases hh : s.handles[h]? with
  | none => rw [hh] at ha; cases ha
  | some held => rw [hh] at ha; rw [← ha, Option.getD_some]

theorem strong_mk (cells : List (Cell V)) (handles : List (Option Nat)) (a : Nat) :
    (⟨cells, handles⟩ : Heap V).strong a = (cells[a]?.map Cell.strong).getD 0 := rfl

theorem strong_modify {cells : List (Cell V)} {a : Nat} {c : Cell V} (hc : cells[a]? = some c) (f : Cell V → Cell V)
    (handles handles' : List (Option Nat)) (b : Nat) :
    (⟨cells.modify a f, handles⟩ : Heap V).strong b + (if a = b then c.strong else 0) =
      (⟨cells, handles'⟩ : Heap V).strong b + if a = b then (f c).strong else 0 := by
  rw [strong_mk, strong_mk, List.getElem?_modify]
  by_cases hab : a = b
  · subst hab
    simp [hc, Nat.add_comm]
  · simp [hab]

theorem through_modify (cells : List (Cell V)) (handles handles' : List (Option Nat)) (a : Nat) {f : Cell V → Cell V}
    (hf : ∀ c, (f c).value = c.value) :
    (⟨cells.modify a f, handles⟩ : Heap V).through = (⟨cells, handles'⟩ : Heap V).through := by
  funext held
  cases held with
  | none => rfl
  | some b =>
    change Option.map Cell.value (cells.modify a f)[b]? = Option.map Cell.value cells[b]?
    rw [List.getElem?_modify]
    cases hb : cells[b]? with
    | none => simp
    | some c => by_cases hab : a = b <;> simp [hab, hf]

theorem through_retain (cells : List (Cell V)) (handles handles' : List (Option Nat)) (a : Nat) :
    (⟨retain cells a, handles⟩ : Heap V).through = (⟨cells, handles'⟩ : Heap V).through :=
  through_modify cells handles handles' a fun _ => rfl

theorem through_release (cells : List (Cell V)) (handles handles' : List (Option Nat)) (a : Nat) :
    (⟨release cells a, handles⟩ : Heap V).through = (⟨cells, handles'⟩ : Heap V).through :=
  through_modify cells handles handles' a fun _ => rfl

theorem through_append (cells : List (Cell V)) (handles handles' : List (Option Nat)) (v : V) {a : Nat}
    (ha : a < cells.length) :
    (⟨cells ++ [⟨v, 1⟩], handles⟩ : Heap V).through (some a) = (⟨cells, handles'⟩ : Heap V).through (some a) := by
  change Option.map Cell.value (cells ++ [⟨v, 1⟩])[a]? = Option.map Cell.value cells[a]?
  rw [List.getElem?_append_left ha]

theorem through_new (cells : List (Cell V)) (handles : List (Option Nat)) (v : V) :
    (⟨cells ++ [⟨v, 1⟩], handles⟩ : Heap V).through (some cells.length) = some v := by
  change Option.map Cell.value (cells ++ [⟨v, 1⟩])[cells.length]? = some v
  rw [List.getElem?_concat_length, Option.map_some]

theorem Counted.cell (hs : s.Counted) (ha : s.address h = some a) :
    ∃ c, s.cells[a]? = some c ∧ c.strong = s.handles.count (some a) ∧ 0 < c.strong := by
  have hmem : some a ∈ s.handles := List.mem_of_getElem? (handle_of_address ha)
  have hcount := hs a
  have hpos := List.count_pos_iff.mpr hmem
  rw [strong] at hcount
  cases hc : s.cells[a]? with
  | none => rw [hc] at hcount; simp only [Option.map_none, Option.getD_none] at hcount; omega
  | some c =>
    rw [hc] at hcount
    refine ⟨c, rfl, hcount, ?_⟩
    simp only [Option.map_some, Option.getD_some] at hcount
    omega

theorem Counted.lt (hs : s.Counted) (hmem : some a ∈ s.handles) : a < s.cells.length := by
  have hpos := List.count_pos_iff.mpr hmem
  rw [← hs a, strong] at hpos
  by_contra hlt
  rw [List.getElem?_eq_none (by omega)] at hpos
  simp at hpos

theorem strong_append (cells : List (Cell V)) (handles handles' : List (Option Nat)) (v : V) (b : Nat) :
    (⟨cells ++ [⟨v, 1⟩], handles⟩ : Heap V).strong b =
      (⟨cells, handles'⟩ : Heap V).strong b + if cells.length = b then 1 else 0 := by
  rw [strong_mk, strong_mk]
  rcases Nat.lt_trichotomy b cells.length with hb | hb | hb
  · rw [List.getElem?_append_left hb, if_neg (by omega), Nat.add_zero]
  · subst hb
    rw [List.getElem?_concat_length, List.getElem?_eq_none (Nat.le_refl _), if_pos rfl]
    rfl
  · rw [List.getElem?_eq_none (by rw [List.length_append, List.length_singleton]; omega),
      List.getElem?_eq_none (by omega), if_neg (by omega), Nat.add_zero]

theorem count_set {l : List (Option Nat)} {i : Nat} {x : Option Nat} (h : l[i]? = some x) (y : Option Nat) (b : Nat) :
    (l.set i y).count (some b) + (if x = some b then 1 else 0) = l.count (some b) + if y = some b then 1 else 0 := by
  have hset := countP_set (· == some b) h y
  have hcount (l : List (Option Nat)) : l.count (some b) = l.countP (· == some b) := rfl
  have hbool (z : Option Nat) : (z == some b).toNat = if z = some b then 1 else 0 := by
    by_cases hz : z = some b
    · rw [hz, beq_self_eq_true, if_pos rfl, Bool.toNat_true]
    · rw [beq_eq_false_iff_ne.mpr hz, if_neg hz, Bool.toNat_false]
  rwa [hbool, hbool, ← hcount, ← hcount] at hset

theorem counted_mk {cells : List (Cell V)} {handles : List (Option Nat)}
    (h : ∀ b, (⟨cells, handles⟩ : Heap V).strong b = handles.count (some b)) : (⟨cells, handles⟩ : Heap V).Counted := h

theorem counted_empty : (empty : Heap V).Counted := fun _ => rfl

theorem Counted.alloc (hs : s.Counted) (v : V) : (s.alloc v).Counted := by
  intro b
  rw [Heap.alloc, strong_append _ _ s.handles, hs b, List.count_append, List.count_singleton]
  by_cases hb : s.cells.length = b <;> simp [hb]

theorem Counted.clone (hs : s.Counted) (h : Nat) : (s.clone h).Counted := by
  unfold Heap.clone
  cases ha : s.address h with
  | none => exact hs
  | some a =>
    obtain ⟨c, hc, -, -⟩ := hs.cell ha
    refine counted_mk fun b => ?_
    have hcells := strong_modify hc (fun c => { c with strong := c.strong + 1 }) (s.handles ++ [some a]) s.handles b
    have hcount : (⟨s.cells, s.handles⟩ : Heap V).strong b = s.handles.count (some b) := hs b
    rw [List.count_append, List.count_singleton]
    unfold retain
    simp only [Option.some_beq_some, beq_iff_eq]
    dsimp only at hcells
    split_ifs at * <;> omega

theorem Counted.drop (hs : s.Counted) (h : Nat) : (s.drop h).Counted := by
  unfold Heap.drop
  cases ha : s.address h with
  | none => exact hs
  | some a =>
    obtain ⟨c, hc, -, hpos⟩ := hs.cell ha
    refine counted_mk fun b => ?_
    have hcells := strong_modify hc (fun c => { c with strong := c.strong - 1 }) (s.handles.set h none) s.handles b
    have hset := count_set (handle_of_address ha) none b
    have hcount : (⟨s.cells, s.handles⟩ : Heap V).strong b = s.handles.count (some b) := hs b
    simp only [Option.some.injEq, reduceCtorEq, if_false] at hset
    unfold release
    dsimp only at hcells
    split_ifs at * <;> omega

theorem Counted.makeMut (hs : s.Counted) (h : Nat) : (s.makeMut h).Counted := by
  unfold Heap.makeMut
  cases ha : s.address h with
  | none => exact hs
  | some a =>
    dsimp only
    by_cases hsole : s.strong a = 1
    · rw [if_pos hsole]
      exact hs
    · obtain ⟨c, hc, -, hpos⟩ := hs.cell ha
      have hvalue : s.value a = some c.value := by rw [value, hc, Option.map_some]
      have hlen : (release s.cells a).length = s.cells.length := List.length_modify _ _ _
      rw [if_neg hsole, hvalue, Option.toList_some, List.map_singleton]
      refine counted_mk fun b => ?_
      have hcells := strong_modify hc (fun c => { c with strong := c.strong - 1 }) s.handles s.handles b
      have hset := count_set (handle_of_address ha) (some s.cells.length) b
      have hcount : (⟨s.cells, s.handles⟩ : Heap V).strong b = s.handles.count (some b) := hs b
      simp only [Option.some.injEq] at hset
      rw [strong_append _ _ s.handles, hlen]
      unfold release
      dsimp only at hcells
      split_ifs at * <;> omega

theorem Counted.write (hs : s.Counted) (h : Nat) (f : V → V) : (s.write h f).Counted := by
  unfold Heap.write
  cases ha : s.address h with
  | none => exact hs
  | some a =>
    intro b
    rw [← hs b, strong, strong, List.getElem?_modify]
    cases hb : s.cells[b]? with
    | none => simp
    | some c => by_cases hab : a = b <;> simp [hab]

theorem Counted.update (hs : s.Counted) (h : Nat) (f : V → V) : (s.update h f).Counted := (hs.makeMut h).write h f

theorem set_of_getElem? {α : Type*} {l : List α} {i : Nat} {x : α} (h : l[i]? = some x) : l.set i x = l := by
  obtain ⟨hi, rfl⟩ := List.getElem?_eq_some_iff.mp h
  exact List.set_getElem_self hi

theorem view_of_address (ha : s.address h = some a) : s.view[h]? = some (s.through (some a)) := by
  rw [view, List.getElem?_map, handle_of_address ha, Option.map_some]

theorem view_set_none (ha : s.address h = none) : s.view.set h none = s.view := by
  rw [address, List.getD_eq_getElem?_getD] at ha
  cases hh : s.handles[h]? with
  | none =>
    apply List.set_eq_of_length_le
    rw [view, List.length_map]
    exact List.getElem?_eq_none_iff.mp hh
  | some held =>
    rw [hh, Option.getD_some] at ha
    apply set_of_getElem?
    rw [view, List.getElem?_map, hh, ha, Option.map_some]
    rfl

theorem view_modify_none (ha : s.address h = none) (f : V → V) : s.view.modify h (Option.map f) = s.view := by
  apply List.ext_getElem?
  intro j
  rw [List.getElem?_modify]
  by_cases hj : h = j
  · subst hj
    rw [address, List.getD_eq_getElem?_getD] at ha
    rw [view, List.getElem?_map]
    cases hh : s.handles[h]? with
    | none => rfl
    | some held =>
      rw [hh, Option.getD_some] at ha
      simp [ha, through]
  · simp [hj]

theorem view_alloc (hs : s.Counted) (v : V) : (s.alloc v).view = s.view ++ [some v] := by
  rw [view, view, alloc, List.map_append, List.map_singleton, through_new]
  congr 1
  apply List.map_congr_left
  intro held hheld
  cases held with
  | none => rfl
  | some a => exact through_append _ _ _ v (hs.lt hheld)

theorem view_clone (hs : s.Counted) (h : Nat) : (s.clone h).view = s.view ++ (s.read h).toList.map some := by
  unfold clone read
  cases ha : s.address h with
  | none => exact (List.append_nil _).symm
  | some a =>
    obtain ⟨c, hc, -, -⟩ := hs.cell ha
    have hvalue : s.value a = some c.value := by rw [value, hc, Option.map_some]
    have hthrough : s.through (some a) = some c.value := hvalue
    dsimp only
    rw [view, through_retain _ _ s.handles, List.map_append, List.map_singleton, Option.bind_some, hvalue]
    change s.view ++ [s.through (some a)] = _
    rw [hthrough]
    rfl

theorem view_drop (s : Heap V) (h : Nat) : (s.drop h).view = s.view.set h none := by
  unfold drop
  cases ha : s.address h with
  | none => exact (view_set_none ha).symm
  | some a =>
    dsimp only
    rw [view, through_release _ _ s.handles, List.map_set]
    rfl

theorem view_makeMut (hs : s.Counted) (h : Nat) : (s.makeMut h).view = s.view := by
  unfold makeMut
  cases ha : s.address h with
  | none => rfl
  | some a =>
    obtain ⟨c, hc, -, -⟩ := hs.cell ha
    have hvalue : s.value a = some c.value := by rw [value, hc, Option.map_some]
    have hlen : (release s.cells a).length = s.cells.length := List.length_modify _ _ _
    dsimp only
    split_ifs with hsole
    · rfl
    · rw [hvalue, Option.toList_some, List.map_singleton]
      apply List.ext_getElem?
      intro j
      rw [view, List.map_set, List.getElem?_set, ← hlen, through_new]
      split_ifs with hj hlt
      · subst hj
        rw [view_of_address ha]
        exact congrArg some hvalue.symm
      · exact absurd (List.getElem?_eq_some_iff.mp (handle_of_address ha)).1 (by simpa [← hj] using hlt)
      · rw [view, List.getElem?_map, List.getElem?_map]
        cases hheld : s.handles[j]? with
        | none => rfl
        | some held =>
          cases held with
          | none => rfl
          | some b =>
            have hb : b < (release s.cells a).length := hlen ▸ hs.lt (List.mem_of_getElem? hheld)
            rw [Option.map_some, Option.map_some, through_append _ _ s.handles _ hb,
              through_release _ _ s.handles]

theorem makeMut_sole (hs : s.Counted) {b : Nat} (hb : (s.makeMut h).address h = some b) : (s.makeMut h).strong b = 1 := by
  unfold makeMut at hb ⊢
  cases ha : s.address h with
  | none => rw [ha] at hb; rw [ha] at hb; cases hb
  | some a =>
    rw [ha] at hb
    dsimp only at hb ⊢
    by_cases hsole : s.strong a = 1
    · rw [if_pos hsole] at hb ⊢
      rw [ha] at hb
      rwa [← Option.some.inj hb]
    · rw [if_neg hsole] at hb ⊢
      obtain ⟨c, hc, -, -⟩ := hs.cell ha
      have hvalue : s.value a = some c.value := by rw [value, hc, Option.map_some]
      have hlt := (List.getElem?_eq_some_iff.mp (handle_of_address ha)).1
      rw [address, List.getD_eq_getElem?_getD, List.getElem?_set_self hlt, Option.getD_some] at hb
      have hlen : (release s.cells a).length = s.cells.length := List.length_modify _ _ _
      rw [hvalue, Option.toList_some, List.map_singleton, ← Option.some.inj hb, ← hlen, strong_mk,
        List.getElem?_concat_length]
      rfl

theorem view_write (hs : s.Counted) (hsole : ∀ a, s.address h = some a → s.strong a = 1) (f : V → V) :
    (s.write h f).view = s.view.modify h (Option.map f) := by
  unfold write
  cases ha : s.address h with
  | none => exact (view_modify_none ha f).symm
  | some a =>
    have hone : s.handles.count (some a) = 1 := by rw [← hs a, hsole a ha]
    have hother : some a ∉ s.handles.set h none := by
      have hset := count_set (handle_of_address ha) none a
      rw [if_pos rfl, if_neg (by simp), hone] at hset
      exact List.count_eq_zero.mp (by omega)
    apply List.ext_getElem?
    intro j
    rw [view, List.getElem?_map, List.getElem?_modify, view, List.getElem?_map]
    cases hheld : s.handles[j]? with
    | none => simp
    | some held =>
      cases held with
      | none => by_cases hj : h = j <;> simp [hj, through]
      | some b =>
        change some (Option.map Cell.value (s.cells.modify a _)[b]?) =
          Option.map _ (some (Option.map Cell.value s.cells[b]?))
        rw [List.getElem?_modify]
        by_cases hj : h = j
        · rw [← hj, handle_of_address ha] at hheld
          obtain rfl : a = b := by simpa using hheld
          cases hc : s.cells[a]? <;> simp [hj]
        · -- another handle holds another cell
          have hab : a ≠ b := by
            rintro rfl
            apply hother
            apply List.mem_of_getElem?
            rw [List.getElem?_set_ne hj, hheld]
          simp [hj, hab]

theorem view_update (hs : s.Counted) (h : Nat) (f : V → V) : (s.update h f).view = s.view.modify h (Option.map f) := by
  rw [update, view_write (hs.makeMut h) (fun b hb => makeMut_sole hs hb) f, view_makeMut hs]

theorem view_getD (s : Heap V) (h : Nat) : s.view.getD h none = s.read h := by
  rw [view, List.getD_eq_getElem?_getD, List.getElem?_map, read, address, List.getD_eq_getElem?_getD]
  cases s.handles[h]? <;> rfl

theorem view_of_read (hread : s.read h = some v) : s.view[h]? = some (some v) := by
  rw [← view_getD, List.getD_eq_getElem?_getD] at hread
  cases hh : s.view[h]? with
  | none => rw [hh] at hread; cases hread
  | some held => rw [hh, Option.getD_some] at hread; rw [hread]

theorem view_update_of_read (hs : s.Counted) (hread : s.read h = some v) (f : V → V) :
    (s.update h f).view = s.view.set h (some (f v)) := by
  rw [view_update hs]
  apply List.ext_getElem?
  intro j
  rw [List.getElem?_modify, List.getElem?_set]
  by_cases hj : h = j
  · subst hj
    have hview := view_of_read hread
    rw [if_pos rfl, if_pos (List.getElem?_eq_some_iff.mp hview).1, hview]
    simp
  · simp [hj]

theorem read_update (hs : s.Counted) (hread : s.read h = some v) (f : V → V) : (s.update h f).read h = some (f v) := by
  have hlt := (List.getElem?_eq_some_iff.mp (view_of_read hread)).1
  rw [← view_getD, view_update_of_read hs hread, List.getD_eq_getElem?_getD, List.getElem?_set_self hlt, Option.getD_some]

theorem read_makeMut (hs : s.Counted) (h : Nat) : (s.makeMut h).read h = s.read h := by
  rw [← view_getD, view_makeMut hs, view_getD]

theorem read_of_address (hs : s.Counted) (ha : s.address h = some a) : ∃ v, s.read h = some v := by
  obtain ⟨c, hc, -, -⟩ := hs.cell ha
  exact ⟨c.value, by rw [read, ha, Option.bind_some, value, hc, Option.map_some]⟩

theorem live_mk (cells : List (Cell V)) (handles : List (Option Nat)) :
    (⟨cells, handles⟩ : Heap V).live = cells.countP fun c => c.strong != 0 := rfl

theorem live_modify {cells : List (Cell V)} {c : Cell V} (hc : cells[a]? = some c) (f : Cell V → Cell V)
    (handles handles' : List (Option Nat)) :
    (⟨cells.modify a f, handles⟩ : Heap V).live + (c.strong != 0).toNat =
      (⟨cells, handles'⟩ : Heap V).live + ((f c).strong != 0).toNat :=
  countP_modify _ hc f

theorem held_set (hh : s.handles[h]? = some held) (held' : Option Nat) (cells : List (Cell V)) :
    (⟨cells, s.handles.set h held'⟩ : Heap V).held + held.isSome.toNat = s.held + held'.isSome.toNat :=
  countP_set _ hh held'

theorem live_alloc (s : Heap V) (v : V) : (s.alloc v).live = s.live + 1 := by
  rw [live, alloc, List.countP_append]
  rfl

theorem held_alloc (s : Heap V) (v : V) : (s.alloc v).held = s.held + 1 := by
  rw [held, alloc, List.countP_append]
  rfl

theorem live_clone (hs : s.Counted) (h : Nat) : (s.clone h).live = s.live := by
  unfold clone
  cases ha : s.address h with
  | none => rfl
  | some a =>
    obtain ⟨c, hc, -, hpos⟩ := hs.cell ha
    have hlive := live_modify hc (fun c => { c with strong := c.strong + 1 }) (s.handles ++ [some a]) s.handles
    rw [show (c.strong != 0) = true by simp; omega] at hlive
    exact Nat.add_right_cancel hlive

theorem held_clone (s : Heap V) (h : Nat) : (s.clone h).held = s.held + (s.address h).isSome.toNat := by
  unfold clone
  cases ha : s.address h with
  | none => rfl
  | some a =>
    rw [held, List.countP_append]
    rfl

theorem live_drop (hs : s.Counted) (h : Nat) : (s.drop h).live + (s.sole h).toNat = s.live := by
  unfold drop sole
  cases ha : s.address h with
  | none => rfl
  | some a =>
    obtain ⟨c, hc, -, hpos⟩ := hs.cell ha
    have hlive := live_modify hc (fun c => { c with strong := c.strong - 1 }) (s.handles.set h none) s.handles
    have hstrong : s.strong a = c.strong := by rw [strong, hc]; rfl
    rw [Option.any_some, hstrong]
    rw [show (c.strong != 0) = true by simp; omega] at hlive
    dsimp only at hlive ⊢
    unfold release
    by_cases hone : c.strong = 1
    · rw [hone] at hlive ⊢
      simpa using hlive
    · rw [show (c.strong - 1 != 0) = true by simp; omega] at hlive
      rw [show (c.strong == 1) = false by simpa using hone]
      exact Nat.add_right_cancel hlive

theorem held_drop (s : Heap V) (h : Nat) : (s.drop h).held + (s.address h).isSome.toNat = s.held := by
  unfold drop
  cases ha : s.address h with
  | none => rfl
  | some a => exact held_set (handle_of_address ha) none _

theorem live_makeMut (hs : s.Counted) (h : Nat) : (s.makeMut h).live = s.live + (s.shared h).toNat := by
  unfold makeMut shared
  cases ha : s.address h with
  | none => rfl
  | some a =>
    obtain ⟨c, hc, -, hpos⟩ := hs.cell ha
    have hvalue : s.value a = some c.value := by rw [value, hc, Option.map_some]
    have hstrong : s.strong a = c.strong := by rw [strong, hc]; rfl
    rw [Option.any_some]
    dsimp only
    by_cases hone : s.strong a = 1
    · rw [if_pos hone, hone]
      rfl
    · have hlive := live_modify hc (fun c => { c with strong := c.strong - 1 }) s.handles s.handles
      rw [show (c.strong != 0) = true by simp; omega,
        show (({ c with strong := c.strong - 1 } : Cell V).strong != 0) = true by simp; omega] at hlive
      rw [if_neg hone, hvalue, Option.toList_some, List.map_singleton, live_mk, List.countP_append,
        show (s.strong a != 1) = true by simpa using hone]
      have hkept : (release s.cells a).countP (fun c => c.strong != 0) = s.live := Nat.add_right_cancel hlive
      rw [hkept]
      rfl

theorem held_makeMut (s : Heap V) (h : Nat) : (s.makeMut h).held = s.held := by
  unfold makeMut
  cases ha : s.address h with
  | none => rfl
  | some a =>
    dsimp only
    split_ifs with hsole
    · rfl
    · exact Nat.add_right_cancel (held_set (handle_of_address ha) (some s.cells.length) _)

theorem live_write (s : Heap V) (h : Nat) (f : V → V) : (s.write h f).live = s.live := by
  unfold write
  cases ha : s.address h with
  | none => rfl
  | some a =>
    cases hc : s.cells[a]? with
    | none =>
      dsimp only
      rw [List.modify_eq_self (List.getElem?_eq_none_iff.mp hc)]
    | some c => exact Nat.add_right_cancel (live_modify hc (fun c => { c with value := f c.value }) s.handles s.handles)

theorem held_write (s : Heap V) (h : Nat) (f : V → V) : (s.write h f).held = s.held := by
  unfold write
  cases s.address h <;> rfl

theorem live_eq_range (cells : List (Cell V)) (handles : List (Option Nat)) : (⟨cells, handles⟩ : Heap V).live =
    ((List.range cells.length).filter fun a => (⟨cells, handles⟩ : Heap V).strong a != 0).length := by
  rw [live_mk, ← List.countP_eq_length_filter]
  induction cells using List.reverseRecOn with
  | nil => rfl
  | append_singleton cells c ih =>
    rw [List.countP_append, ih, List.length_append, List.length_singleton, List.range_succ, List.countP_append]
    congr 1
    · apply List.countP_congr
      intro a ha
      rw [strong_mk, strong_mk, List.getElem?_append_left (List.mem_range.mp ha)]
    · simp only [strong_mk, List.countP_singleton, List.getElem?_concat_length, Option.map_some, Option.getD_some]

theorem Counted.live_le_held (hs : s.Counted) : s.live ≤ s.held := by
  have hheld : s.held = s.handles.reduceOption.length := by
    rw [List.reduceOption_length_eq, held, List.countP_eq_length_filter]
  rw [live_eq_range s.cells s.handles, hheld]
  apply List.Subperm.length_le
  apply List.Nodup.subperm (List.nodup_range.filter _)
  intro a ha
  have hne := (List.mem_filter.mp ha).2
  rw [List.reduceOption_mem_iff, ← List.count_pos_iff]
  have hcount : (⟨s.cells, s.handles⟩ : Heap V).strong a = s.handles.count (some a) := hs a
  rw [hcount] at hne
  exact Nat.pos_of_ne_zero (by simpa using hne)

theorem address_write (s : Heap V) (h k : Nat) (f : V → V) : (s.write h f).address k = s.address k := by
  unfold write
  cases s.address h <;> rfl

theorem strong_write (s : Heap V) (h : Nat) (f : V → V) (a : Nat) : (s.write h f).strong a = s.strong a := by
  unfold write
  cases ha : s.address h with
  | none => rfl
  | some b =>
    rw [strong, strong, List.getElem?_modify]
    cases hc : s.cells[a]? with
    | none => rfl
    | some c => by_cases hab : b = a <;> simp [hab]

theorem shared_update (hs : s.Counted) (h : Nat) (f : V → V) : (s.update h f).shared h = false := by
  rw [shared, update, address_write]
  cases ha : (s.makeMut h).address h with
  | none => rfl
  | some a => rw [Option.any_some, strong_write, makeMut_sole hs ha]; rfl

theorem live_update (hs : s.Counted) (h : Nat) (f : V → V) : (s.update h f).live = s.live + (s.shared h).toNat := by
  rw [update, live_write, live_makeMut hs]

theorem held_update (s : Heap V) (h : Nat) (f : V → V) : (s.update h f).held = s.held := by
  rw [update, held_write, held_makeMut]

end Heap
end Sharing
