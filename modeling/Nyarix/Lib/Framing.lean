import Mathlib.Data.List.Infix
import Mathlib.Data.Nat.Basic
import Mathlib.Tactic.Ring

/-! Framed records: a key, a mark after it, the length of a body in a field of fixed width, the
body. Lists of records are told apart by their frames unless a key continues another after
the mark. -/

namespace Framing

def leBytes : Nat → Nat → List UInt8
  | 0, _ => []
  | width + 1, n => UInt8.ofNat n :: leBytes width (n / 256)

@[simp] theorem length_leBytes (width n : Nat) : (leBytes width n).length = width := by
  induction width generalizing n with
  | zero => rfl
  | succ width ih => rw [leBytes, List.length_cons, ih]

theorem leBytes_inj {width n m : Nat} (hn : n < 256 ^ width) (hm : m < 256 ^ width)
    (h : leBytes width n = leBytes width m) : n = m := by
  induction width generalizing n m with
  | zero => omega
  | succ width ih =>
    obtain ⟨hlow, hhigh⟩ := List.cons.inj h
    have hdiv : n / 256 = m / 256 := by
      refine ih ?_ ?_ hhigh
      · exact Nat.div_lt_of_lt_mul (by rwa [pow_succ'] at hn)
      · exact Nat.div_lt_of_lt_mul (by rwa [pow_succ'] at hm)
    have hmod : n % 256 = m % 256 := by
      simpa using congrArg UInt8.toNat hlow
    rw [← Nat.div_add_mod n 256, ← Nat.div_add_mod m 256, hdiv, hmod]

variable {K B : Type*} (key : K → List B) (mark : B) (len : Nat → List B)

def frame (e : K × List B) : List B := key e.1 ++ mark :: (len e.2.length ++ e.2)

/-- One key goes on, after the mark, where another ends. -/
def Continues (p q : K) : Prop := key p ++ [mark] <+: key q

variable {key mark len} {width bound : Nat}

theorem key_eq {p q : K} {rest rest' : List B} (hkey : Function.Injective key)
    (hpq : ¬ Continues key mark p q) (hqp : ¬ Continues key mark q p)
    (h : key p ++ mark :: rest = key q ++ mark :: rest') : p = q ∧ rest = rest' := by
  have hp : key p ++ [mark] <+: key q ++ mark :: rest' :=
    ⟨rest, by rw [← h, List.append_assoc, List.singleton_append]⟩
  have hq : key q ++ [mark] <+: key q ++ mark :: rest' :=
    ⟨rest', by rw [List.append_assoc, List.singleton_append]⟩
  have heq : key p = key q := by
    rcases List.prefix_or_prefix_of_prefix hp hq with hpre | hpre
    · rcases List.prefix_concat_iff.mp hpre with heq | hcon
      · exact (List.append_inj' heq rfl).1
      · exact absurd hcon hpq
    · rcases List.prefix_concat_iff.mp hpre with heq | hcon
      · exact (List.append_inj' heq rfl).1.symm
      · exact absurd hcon hqp
  rw [heq] at h
  exact ⟨hkey heq, (List.cons.inj (List.append_cancel_left h)).2⟩

theorem mark_inj {a b rest rest' : List B} (ha : mark ∉ a) (hb : mark ∉ b) :
    a ++ mark :: rest = b ++ mark :: rest' ↔ a = b ∧ rest = rest' := by
  have hmarked : ∀ {a b : List B}, mark ∉ b → ¬ Continues id mark a b :=
    fun hb hpre => hb (hpre.subset (List.mem_append_right _ List.mem_cons_self))
  constructor
  · exact key_eq Function.injective_id (hmarked hb) (hmarked ha)
  · rintro ⟨rfl, rfl⟩
    rfl

theorem body_eq {a b rest rest' : List B} (hwidth : ∀ n, (len n).length = width)
    (hlen : ∀ n < bound, ∀ m < bound, len n = len m → n = m) (ha : a.length < bound) (hb : b.length < bound)
    (h : len a.length ++ a ++ rest = len b.length ++ b ++ rest') : a = b ∧ rest = rest' := by
  rw [List.append_assoc, List.append_assoc] at h
  obtain ⟨hl, h⟩ := List.append_inj h (by rw [hwidth, hwidth])
  exact List.append_inj h (hlen _ ha _ hb hl)

theorem frames_inj (hkey : Function.Injective key) (hwidth : ∀ n, (len n).length = width)
    (hlen : ∀ n < bound, ∀ m < bound, len n = len m → n = m) {l l' : List (K × List B)}
    (hl : ∀ e ∈ l, e.2.length < bound) (hl' : ∀ e ∈ l', e.2.length < bound)
    (hcon : ∀ e ∈ l, ∀ e' ∈ l', ¬ Continues key mark e.1 e'.1 ∧ ¬ Continues key mark e'.1 e.1)
    (h : l.flatMap (frame key mark len) = l'.flatMap (frame key mark len)) : l = l' := by
  induction l generalizing l' with
  | nil =>
    cases l' with
    | nil => rfl
    | cons e l' => simp [frame] at h
  | cons e l ih =>
    cases l' with
    | nil => simp [frame] at h
    | cons e' l' =>
      rw [List.flatMap_cons, List.flatMap_cons, frame, frame, List.append_assoc, List.append_assoc,
        List.cons_append, List.cons_append] at h
      obtain ⟨hpq, hqp⟩ := hcon e List.mem_cons_self e' List.mem_cons_self
      obtain ⟨hk, h⟩ := key_eq hkey hpq hqp h
      obtain ⟨hb, h⟩ := body_eq hwidth hlen (hl e List.mem_cons_self) (hl' e' List.mem_cons_self) h
      rw [Prod.ext hk hb, ih (fun b hb => hl b (List.mem_cons_of_mem e hb))
        (fun b hb => hl' b (List.mem_cons_of_mem e' hb)) (fun b hb b' hb' => hcon b (List.mem_cons_of_mem e hb) b' (List.mem_cons_of_mem e' hb')) h]

theorem length_frames (hwidth : ∀ n, (len n).length = width) (l : List (K × List B)) :
    (l.flatMap (frame key mark len)).length = (l.map fun e => (key e.1).length + width + e.2.length + 1).sum := by
  rw [List.length_flatMap]
  congr 1
  refine List.map_congr_left fun e _ => ?_
  rw [frame, List.length_append, List.length_cons, List.length_append, hwidth]
  omega

theorem frames_inj_of_aligned {l l' : List (K × List B)}
    (halign : l.map (fun e => (e.1, e.2.length)) = l'.map fun e => (e.1, e.2.length))
    (h : l.flatMap (frame key mark len) = l'.flatMap (frame key mark len)) : l = l' := by
  induction l generalizing l' with
  | nil => exact (List.map_eq_nil_iff.mp halign.symm).symm
  | cons e l ih =>
    cases l' with
    | nil => cases halign
    | cons e' l' =>
      rw [List.map_cons, List.map_cons] at halign
      obtain ⟨hhead, htail⟩ := List.cons.inj halign
      obtain ⟨hkey, hlength⟩ := Prod.mk.inj hhead
      rw [List.flatMap_cons, List.flatMap_cons] at h
      have hframes : (frame key mark len e).length = (frame key mark len e').length := by
        simp only [frame, List.length_append, List.length_cons, hkey, hlength]
      obtain ⟨hframe, hrest⟩ := List.append_inj h hframes
      rw [frame, frame, hkey, hlength] at hframe
      have hbody := List.append_cancel_left (List.cons.inj (List.append_cancel_left hframe)).2
      rw [Prod.ext hkey hbody, ih htail hrest]

end Framing
