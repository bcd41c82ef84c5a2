import Mathlib.Data.List.Basic
import Mathlib.Data.List.Range
import Mathlib.Data.Nat.ModEq
import Mathlib.Logic.Function.Basic

/-!
# Windows of a circular buffer

A buffer of `size` cells is read from a position on, wrapping at its end. Positions only grow, and
a cell is the position modulo `size`. A store behind a window that is not longer than the buffer
does not touch it.
-/

namespace PineVoice.Circular

open Function List

variable {α : Type*} {mem mem' : ℕ → α} {size start len : ℕ}

/-- The cells from a position on. -/
def window (mem : ℕ → α) (size start len : ℕ) : List α :=
  (List.range len).map fun i => mem ((start+i) % size)

variable {a i pos : ℕ}

@[simp] theorem window_length (mem : ℕ → α) (size start len : ℕ) :
    (window mem size start len).length = len := by
  rw [window, length_map, length_range]

@[simp] theorem window_zero (mem : ℕ → α) (size start : ℕ) : window mem size start 0 = [] := rfl

theorem window_getElem? (mem : ℕ → α) (size start : ℕ) {len : ℕ} (hi : i < len) :
    (window mem size start len)[i]? = some (mem ((start+i) % size)) := by
  rw [window, getElem?_map, getElem?_range hi, Option.map_some]

/-- The last cell of a window. -/
theorem window_succ (mem : ℕ → α) (size start len : ℕ) :
    window mem size start (len+1) = window mem size start len ++ [mem ((start+len) % size)] := by
  rw [window, range_succ, map_append]
  rfl

/-- A window in two parts. -/
theorem window_add (mem : ℕ → α) (size start a b : ℕ) :
    window mem size start (a+b) = window mem size start a ++ window mem size (start+a) b := by
  induction b with
  | zero => rw [add_zero, window_zero, append_nil]
  | succ b ih =>
    rw [← add_assoc, window_succ, window_succ, ih, append_assoc, add_assoc start a b]

/-- The first cell of a window. -/
theorem window_cons (mem : ℕ → α) (size start len : ℕ) :
    window mem size start (len+1) = mem (start % size) :: window mem size (start+1) len := by
  rw [add_comm len 1, window_add]
  rfl

/-- Only the cell of the first position matters. -/
theorem window_mod (mem : ℕ → α) (size start len : ℕ) :
    window mem size (start % size) len = window mem size start len := by
  exact map_congr_left fun i _ => by rw [Nat.mod_add_mod]

/-- The beginning of a window. -/
theorem window_take (mem : ℕ → α) (size start len k : ℕ) :
    (window mem size start len).take k = window mem size start (min k len) := by
  rw [window, window, ← map_take, take_range]

theorem window_congr (h : ∀ i < len, mem ((start+i) % size) = mem' ((start+i) % size)) :
    window mem size start len = window mem' size start len :=
  map_congr_left fun i hi => h i (List.mem_range.mp hi)

/-- Less than one round apart the cells differ. -/
theorem mod_ne {size b : ℕ} (hlt : a < b) (hround : b < a+size) : a % size ≠ b % size := by
  intro he
  have hd : size ∣ b-a := (Nat.modEq_iff_dvd' hlt.le).mp he
  have hle := Nat.le_of_dvd (by omega) hd
  omega

/-- Less than one round further, a cell is reached either before the end or behind it. -/
theorem add_mod_eq_iff {d : ℕ} (ha : a < size) (hi : i < size) (hd : d ≤ size) :
    (a+d) % size = i ↔ a+d = i ∨ a+d = i+size := by
  rcases lt_or_ge (a+d) size with hlt | hge
  · rw [Nat.mod_eq_of_lt hlt]
    omega
  · rw [Nat.mod_eq_sub_mod hge, Nat.mod_eq_of_lt (by omega)]
    omega

/-- A store behind the window does not touch it. -/
theorem window_update {j : ℕ} (hj : len ≤ j) (hround : j < size) (b : α) :
    window (update mem ((start+j) % size) b) size start len = window mem size start len := by
  refine window_congr fun i hi => update_of_ne ?_ _ _
  exact mod_ne (by omega) (by omega)

/-- A store right behind the window makes it longer. -/
theorem window_store (hlen : len < size) (b : α) :
    window (update mem ((start+len) % size) b) size start (len+1) =
      window mem size start len ++ [b] := by
  rw [window_succ, window_update (le_refl len) hlen, update_self]

/-- A store inside the window. -/
theorem window_set {k : ℕ} (hround : len ≤ size) (hk : k < len) (b : α) :
    window (update mem ((start+k) % size) b) size start len =
      (window mem size start len).set k b := by
  have hlen : (window (update mem ((start+k) % size) b) size start len).length =
      ((window mem size start len).set k b).length := by
    rw [length_set, window_length, window_length]
  refine ext_getElem hlen fun i hi hi' => ?_
  rw [window_length] at hi
  rw [getElem_set]
  simp only [window, getElem_map, getElem_range]
  split_ifs with hik
  · rw [hik, update_self]
  · refine update_of_ne ?_ _ _
    rcases Nat.lt_or_gt_of_ne hik with hlt | hgt
    · exact (mod_ne (by omega) (by omega)).symm
    · exact mod_ne (by omega) (by omega)

/-- A window of a whole round from a later position. -/
theorem window_rotate {a b : List α} (h : window mem size start size = a ++ b) :
    window mem size (start+a.length) size = b ++ a := by
  have hlen : size = a.length+b.length := by
    rw [← length_append, ← h, window_length]
  have hsplit : window mem size start a.length ++ window mem size (start+a.length) b.length =
      a ++ b := by
    rw [← window_add, ← hlen, h]
  rcases append_inj hsplit (window_length ..) with ⟨hfirst, hsecond⟩
  have hround : window mem size (start+a.length) size =
      window mem size (start+a.length) b.length ++
        window mem size (start+a.length+b.length) a.length := by
    rw [← window_add, add_comm b.length, ← hlen]
  rw [hround, hsecond, add_assoc, ← hlen, ← window_mod, Nat.add_mod_right, window_mod, hfirst]

/-- The window after the first cells of a round were replaced. -/
theorem window_replace {data : List α} (hlen : data.length ≤ size)
    (hnew : ∀ (i : ℕ) (hi : i < data.length), mem' ((start+i) % size) = data[i])
    (hold : ∀ i, data.length ≤ i → i < size → mem' ((start+i) % size) = mem ((start+i) % size)) :
    window mem' size start size = data ++ (window mem size start size).drop data.length := by
  rcases Nat.le.dest hlen with ⟨rest, hrest⟩
  have hfirst : window mem' size start data.length = data := by
    refine ext_getElem (window_length ..) fun i hi hi' => ?_
    rw [← hnew i hi']
    simp only [window, getElem_map, getElem_range]
  have hsecond : window mem' size (start+data.length) rest =
      window mem size (start+data.length) rest := by
    refine window_congr fun i hi => ?_
    rw [add_assoc]
    exact hold (data.length+i) (Nat.le_add_right ..) (by omega)
  have hsplit : ∀ m : ℕ → α, window m size start size =
      window m size start data.length ++ window m size (start+data.length) rest := by
    intro m
    rw [← window_add, hrest]
  have hdrop : (window mem size start data.length ++
      window mem size (start+data.length) rest).drop data.length =
      window mem size (start+data.length) rest :=
    drop_left' (window_length ..)
  rw [hsplit mem', hsplit mem, hfirst, hsecond, hdrop]

/-- Consecutive cells, without wrapping. -/
def load (mem : ℕ → α) (pos len : ℕ) : List α := (List.range len).map fun i => mem (pos+i)

@[simp] theorem load_length (mem : ℕ → α) (pos len : ℕ) : (load mem pos len).length = len := by
  rw [load, length_map, length_range]

@[simp] theorem load_zero (mem : ℕ → α) (pos : ℕ) : load mem pos 0 = [] := rfl

/-- The first of consecutive cells. -/
theorem load_succ (mem : ℕ → α) (pos len : ℕ) :
    load mem pos (len+1) = mem pos :: load mem (pos+1) len := by
  rw [load, range_succ_eq_map, map_cons, List.map_map]
  congr 1
  exact map_congr_left fun i _ => congrArg mem (by simp only [Nat.succ_eq_add_one]; omega)

/-- Consecutive cells in two parts. -/
theorem load_add (mem : ℕ → α) (pos a b : ℕ) :
    load mem pos (a+b) = load mem pos a ++ load mem (pos+a) b := by
  induction a generalizing pos with
  | zero => rw [zero_add, load_zero, nil_append, add_zero]
  | succ a ih =>
    rw [Nat.succ_add, load_succ, load_succ, ih, add_right_comm pos 1 a]
    rfl

theorem load_congr (h : ∀ i < len, mem (pos+i) = mem' (pos+i)) :
    load mem pos len = load mem' pos len :=
  map_congr_left fun i hi => h i (List.mem_range.mp hi)

/-- Up to the end of the buffer nothing wraps. -/
theorem load_eq_window (h : start+len ≤ size) : load mem start len = window mem size start len :=
  map_congr_left fun i hi => by
    rw [Nat.mod_eq_of_lt]
    exact (Nat.add_lt_add_left (List.mem_range.mp hi) start).trans_le h

/-- A window that wraps, in two parts. -/
theorem load_append_load (hstart : start < size) (hend : size ≤ start+len)
    (hround : len ≤ size) :
    load mem start (size-start) ++ load mem 0 (len-(size-start)) = window mem size start len := by
  have hzero : window mem size (start+(size-start)) (len-(size-start)) =
      window mem size 0 (len-(size-start)) := by
    rw [Nat.add_sub_cancel' hstart.le, ← window_mod, Nat.mod_self]
  rw [load_eq_window (by omega : start+(size-start) ≤ size),
    load_eq_window (by omega : 0+(len-(size-start)) ≤ size), ← hzero, ← window_add,
    show size-start+(len-(size-start)) = len by omega]

/-- `memcpy` of a list to consecutive cells. -/
def copy (mem : ℕ → α) (pos : ℕ) (data : List α) : ℕ → α :=
  fun a => if h : pos ≤ a ∧ a-pos < data.length then data[a-pos] else mem a

theorem copy_inside {data : List α} (hi : i < data.length) :
    copy mem pos data (pos+i) = data[i] := by
  have h : pos ≤ pos+i ∧ i < data.length := ⟨Nat.le_add_right .., hi⟩
  simp only [copy, Nat.add_sub_cancel_left, dif_pos h]

theorem copy_outside {data : List α} (h : a < pos ∨ pos+data.length ≤ a) :
    copy mem pos data a = mem a :=
  dif_neg (by omega)

@[simp] theorem copy_nil (mem : ℕ → α) (pos : ℕ) : copy mem pos [] = mem :=
  funext fun _ => dif_neg fun h => Nat.not_lt_zero _ h.2

/-- A copy, cell by cell. -/
theorem copy_cons (mem : ℕ → α) (pos : ℕ) (b : α) (data : List α) :
    copy mem pos (b :: data) = copy (update mem pos b) (pos+1) data := by
  funext a
  rcases lt_trichotomy a pos with hlt | rfl | hgt
  · rw [copy_outside (.inl hlt), copy_outside (.inl (by omega)), update_of_ne hlt.ne]
  · rw [copy_outside (.inl (Nat.lt_succ_self a)), update_self]
    have hpos : 0 < (b :: data).length := by
      rw [length_cons]
      omega
    exact copy_inside hpos
  · rcases lt_or_ge a (pos+(b :: data).length) with hin | hout
    · obtain ⟨k, rfl⟩ : ∃ k, a = pos+1+k := ⟨a-(pos+1), by omega⟩
      rw [length_cons] at hin
      rw [copy_inside (by omega), add_assoc, add_comm 1 k,
        copy_inside (by rw [length_cons]; omega), getElem_cons_succ]
    · rw [copy_outside (.inr hout), copy_outside (.inr (by rw [length_cons] at hout; omega)),
        update_of_ne hgt.ne']

/-- Two copies one behind the other. -/
theorem copy_append (mem : ℕ → α) (pos : ℕ) (a b : List α) :
    copy mem pos (a ++ b) = copy (copy mem pos a) (pos+a.length) b := by
  induction a generalizing mem pos with
  | nil => rw [nil_append, copy_nil, length_nil, add_zero]
  | cons c a ih =>
    rw [cons_append, copy_cons, copy_cons, ih, length_cons, add_assoc pos 1, add_comm 1]

/-- Copied cells are read back. -/
theorem load_copy (mem : ℕ → α) (pos : ℕ) (data : List α) :
    load (copy mem pos data) pos data.length = data := by
  refine ext_getElem (load_length ..) fun i hi hi' => ?_
  simp only [load, getElem_map, getElem_range]
  exact copy_inside hi'

/-- `memset` of consecutive cells. -/
def fill (mem : ℕ → α) (pos len : ℕ) (b : α) : ℕ → α :=
  fun a => if pos ≤ a ∧ a < pos+len then b else mem a

theorem fill_inside {b : α} (h : pos ≤ a ∧ a < pos+len) : fill mem pos len b a = b :=
  if_pos h

theorem fill_outside {b : α} (h : ¬(pos ≤ a ∧ a < pos+len)) :
    fill mem pos len b a = mem a :=
  if_neg h

/-- A cell of cells copied from elsewhere. -/
theorem copy_load (mem src : ℕ → α) (pos start : ℕ) (hi : i < len) :
    copy mem pos (load src start len) (pos+i) = src (start+i) := by
  rw [copy_inside (by rw [load_length]; exact hi)]
  simp only [load, getElem_map, getElem_range]

/-- The window after a copy that does not wrap. -/
theorem window_copy {data : List α} (hdata : start+data.length ≤ size) :
    window (copy mem start data) size start size =
      data ++ (window mem size start size).drop data.length := by
  refine window_replace (by omega) (fun i hi => ?_) fun i hi hround => ?_
  · rw [Nat.mod_eq_of_lt (by omega), copy_inside hi]
  · refine copy_outside ?_
    rcases lt_or_ge (start+i) size with hlt | hge
    · rw [Nat.mod_eq_of_lt hlt]
      omega
    · rw [Nat.mod_eq_sub_mod hge, Nat.mod_eq_of_lt (by omega)]
      omega

/-- The window after a copy that wraps. -/
theorem window_copy_copy {data : List α} (hstart : start < size)
    (hend : size ≤ start+data.length) (hround : data.length ≤ size) :
    window (copy (copy mem start (data.take (size-start))) 0 (data.drop (size-start)))
      size start size = data ++ (window mem size start size).drop data.length := by
  have htake : (data.take (size-start)).length = size-start := by
    rw [length_take]
    omega
  have hdrop : (data.drop (size-start)).length = data.length-(size-start) := length_drop
  refine window_replace hround (fun i hi => ?_) fun i hi hlt => ?_
  · rcases lt_or_ge (start+i) size with hin | hover
    · rw [Nat.mod_eq_of_lt hin, copy_outside (by omega), copy_inside (by omega), getElem_take]
    · have hback : (start+i) % size = 0+(start+i-size) := by
        rw [Nat.mod_eq_sub_mod hover, Nat.mod_eq_of_lt (by omega), zero_add]
      rw [hback, copy_inside (by omega), getElem_drop]
      congr 1
      omega
  · have hback : (start+i) % size = start+i-size := by
      rw [Nat.mod_eq_sub_mod (by omega), Nat.mod_eq_of_lt (by omega)]
    rw [copy_outside (by omega), copy_outside (by omega)]

end PineVoice.Circular
