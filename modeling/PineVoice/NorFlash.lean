import Mathlib.Tactic

/-!
# NOR flash as a byte-addressed memory

Programming can only clear bits, so it is a bitwise conjunction with the stored bytes; erasing
sets a whole range back to `0xFF`. A power cut stops a list of operations inside any program
operation, never inside an erase.
-/

namespace PineVoice.NorFlash

open List

/-- Contents of a byte-addressed memory. -/
abbrev Mem := ℕ → UInt8

/-- Program a list of bytes: bits can be cleared and never set. -/
def program (m : Mem) (off : ℕ) (data : List UInt8) : Mem := fun i =>
  if off ≤ i ∧ i < off+data.length then m i &&& data.getD (i-off) 0xFF else m i

/-- Erase a range to the blank value. -/
def erase (m : Mem) (off len : ℕ) : Mem := fun i =>
  if off ≤ i ∧ i < off+len then 0xFF else m i

/-- The window of a memory that starts at a base address. -/
def window (m : Mem) (base : ℕ) : Mem := fun i => m (base+i)

/-- The bytes of a range, in order. -/
def readBytes (m : Mem) (off : ℕ) : ℕ → List UInt8
  | 0 => []
  | n+1 => m off :: readBytes m (off+1) n

/-- Little-endian word of four bytes. -/
def le32 (m : Mem) (off : ℕ) : ℕ :=
  (m off).toNat+256*(m (off+1)).toNat+65536*(m (off+2)).toNat+16777216*(m (off+3)).toNat

/-- The memory stores exactly this list from an address on. -/
def Holds (m : Mem) : ℕ → List UInt8 → Prop
  | _, [] => True
  | off, b :: bs => m off = b ∧ Holds m (off+1) bs

/-- Every byte of the half-open range is erased. -/
def Blank (m : Mem) (lo hi : ℕ) : Prop := ∀ i, lo ≤ i → i < hi → m i = 0xFF

/-- Two memories store the same bytes in a half-open range. -/
def Agree (m m' : Mem) (lo hi : ℕ) : Prop := ∀ i, lo ≤ i → i < hi → m i = m' i

theorem and_blank (x : UInt8) : 0xFF &&& x = x := by
  rw [←UInt8.toBitVec_inj]
  exact BitVec.allOnes_and

variable {m m' : Mem} {hi hi' i len lo lo' off : ℕ} {bs data : List UInt8}

theorem program_outside (h : i < off ∨ off+data.length ≤ i) : program m off data i = m i := by
  rw [program, if_neg (by omega)]

theorem program_inside (h : i < data.length)
    : program m off data (off+i) = m (off+i) &&& data.getD i 0xFF := by
  rw [program, if_pos (by omega), Nat.add_sub_cancel_left]

theorem program_nil (m : Mem) (off : ℕ) : program m off [] = m := by
  funext i
  exact program_outside (by simp only [length_nil]; omega)

/-- Programming two pieces one after the other is programming them together. -/
theorem program_append (m : Mem) (off : ℕ) (xs ys : List UInt8) :
    program (program m off xs) (off+xs.length) ys = program m off (xs ++ ys) := by
  funext i
  simp only [program, length_append, getD_eq_getElem?_getD]
  by_cases hx : off ≤ i ∧ i < off+xs.length
  · rw [if_neg (by omega), if_pos hx, if_pos (by omega), getElem?_append_left (by omega)]
  · by_cases hy : off+xs.length ≤ i ∧ i < off+xs.length+ys.length
    · have he : i-off-xs.length = i-(off+xs.length) := by omega
      rw [if_pos hy, if_neg hx, if_pos (by omega), getElem?_append_right (by omega), he]
    · rw [if_neg hy, if_neg hx, if_neg (by omega)]

theorem erase_outside (h : i < off ∨ off+len ≤ i) : erase m off len i = m i := by
  rw [erase, if_neg (by omega)]

theorem erase_inside (h : off ≤ i) (h' : i < off+len) : erase m off len i = 0xFF := by
  rw [erase, if_pos ⟨h, h'⟩]

/-- Programming inside the window is programming the window. -/
theorem window_program (m : Mem) (base off : ℕ) (data : List UInt8) :
    window (program m (base+off) data) base = program (window m base) off data := by
  funext i
  simp [window, program, add_assoc, Nat.add_sub_add_left]

theorem window_erase (m : Mem) (base len : ℕ) :
    window (erase m base len) base = erase (window m base) 0 len := by
  funext i
  simp [window, erase]

theorem Agree.refl (m : Mem) (lo hi : ℕ) : Agree m m lo hi := fun _ _ _ => rfl

theorem Agree.trans {m'' : Mem} (h : Agree m m' lo hi) (h' : Agree m' m'' lo hi)
    : Agree m m'' lo hi :=
  fun i hl hh => (h i hl hh).trans (h' i hl hh)

theorem Agree.mono (h : Agree m m' lo hi) (hl : lo ≤ lo') (hh : hi' ≤ hi) : Agree m m' lo' hi' :=
  fun i h1 h2 => h i (hl.trans h1) (h2.trans_le hh)

theorem agree_program (h : hi ≤ off ∨ off+data.length ≤ lo) : Agree (program m off data) m lo hi :=
  fun _ h1 h2 => program_outside (by omega)

theorem Blank.mono (h : Blank m lo hi) (hl : lo ≤ lo') (hh : hi' ≤ hi) : Blank m lo' hi' :=
  fun i h1 h2 => h i (hl.trans h1) (h2.trans_le hh)

theorem Blank.congr (h : Blank m lo hi) (ha : Agree m' m lo hi) : Blank m' lo hi :=
  fun i h1 h2 => (ha i h1 h2).trans (h i h1 h2)

theorem blank_erase (m : Mem) (off len : ℕ) : Blank (erase m off len) off (off+len) :=
  fun _ h1 h2 => erase_inside h1 h2

theorem holds_append (m : Mem) (off : ℕ) (xs ys : List UInt8) :
    Holds m off (xs ++ ys) ↔ Holds m off xs ∧ Holds m (off+xs.length) ys := by
  induction xs generalizing off with
  | nil => simp [Holds]
  | cons x xs ih =>
    have he : off+1+xs.length = off+(x :: xs).length := by rw [length_cons]; omega
    simp only [cons_append, Holds, ih, he, and_assoc]

/-- Byte access into a stored list. -/
theorem Holds.getD (h : Holds m off bs) (hi : i < bs.length) (d : UInt8)
    : m (off+i) = bs.getD i d := by
  induction bs generalizing off i with
  | nil => simp only [length_nil, Nat.not_lt_zero] at hi
  | cons b bs ih =>
    cases i with
    | zero => simpa only [add_zero, getD_cons_zero] using h.1
    | succ i =>
      rw [getD_cons_succ, ←ih h.2 (by simpa only [length_cons, Nat.add_lt_add_iff_right]
        using hi)]
      congr 1
      omega

theorem holds_of_getD (d : UInt8) (h : ∀ i, i < bs.length → m (off+i) = bs.getD i d)
    : Holds m off bs := by
  induction bs generalizing off with
  | nil => trivial
  | cons b bs ih =>
    have h0 := h 0 (by simp [length_cons])
    refine ⟨h0, ih fun i hi => ?_⟩
    have hs := h (i+1) (by simpa only [length_cons, Nat.add_lt_add_iff_right] using hi)
    rw [getD_cons_succ] at hs
    rw [←hs]
    congr 1
    omega

theorem Holds.congr (h : Holds m off bs) (ha : Agree m' m off (off+bs.length)) : Holds m' off bs :=
  holds_of_getD 0 fun i hi => (ha (off+i) (by omega) (by omega)).trans (h.getD hi 0)

theorem holds_readBytes (m : Mem) (off n : ℕ) : Holds m off (readBytes m off n) := by
  induction n generalizing off with
  | zero => trivial
  | succ n ih => exact ⟨rfl, ih (off+1)⟩

@[simp] theorem readBytes_length (m : Mem) (off n : ℕ) : (readBytes m off n).length = n := by
  induction n generalizing off with
  | zero => rfl
  | succ n ih => rw [readBytes, length_cons, ih]

theorem readBytes_window (m : Mem) (base off n : ℕ) :
    readBytes (window m base) off n = readBytes m (base+off) n := by
  induction n generalizing off with
  | zero => rfl
  | succ n ih => rw [readBytes, readBytes, ih, add_assoc, window]

theorem Holds.readBytes_eq (h : Holds m off bs) : readBytes m off bs.length = bs := by
  induction bs generalizing off with
  | nil => rfl
  | cons b bs ih => rw [length_cons, readBytes, h.1, ih h.2]

/-- Programming blank cells stores the data verbatim. -/
theorem holds_program (hb : Blank m off (off+data.length)) : Holds (program m off data) off data :=
  holds_of_getD 0xFF fun i hi => by
    rw [program_inside hi, hb (off+i) (by omega) (by omega), and_blank]

/-- A word programmed with zeros reads as zeros, whatever was stored. -/
theorem holds_program_zeros (m : Mem) (off : ℕ) :
    Holds (program m off [0, 0, 0, 0]) off [0, 0, 0, 0] := by
  have hz : ∀ x : UInt8, x &&& 0 = 0 := fun x => by
    rw [←UInt8.toBitVec_inj]
    exact BitVec.and_zero
  refine holds_of_getD 0xFF fun i hi => ?_
  rw [program_inside hi]
  have hi4 : i < 4 := hi
  interval_cases i <;> exact hz _

/-- A word of four stored bytes is zero only when all four are. -/
theorem le32_eq_zero : le32 m off = 0 ↔ Holds m off [0, 0, 0, 0] := by
  have hz : ∀ x : UInt8, x.toNat = 0 ↔ x = 0 := fun x => by
    rw [←UInt8.toNat_inj]
    rfl
  simp only [le32, Holds, add_assoc, Nat.add_eq_zero_iff, mul_eq_zero, hz]
  simp

theorem le32_congr (h : Agree m m' off (off+4)) : le32 m off = le32 m' off := by
  simp only [le32, h off (by omega) (by omega), h (off+1) (by omega) (by omega),
    h (off+2) (by omega) (by omega), h (off+3) (by omega) (by omega)]

theorem le32_blank (h : Blank m lo hi) (hl : lo ≤ off) (hh : off+4 ≤ hi)
    : le32 m off = 0xFFFFFFFF := by
  simp only [le32, h off (by omega) (by omega), h (off+1) (by omega) (by omega),
    h (off+2) (by omega) (by omega), h (off+3) (by omega) (by omega)]
  rfl

/-- An erased word is the only one with all bits set. -/
theorem blank_of_le32 (h : le32 m off = 0xFFFFFFFF) : Blank m off (off+4) := by
  have h0 := (m off).toNat_lt
  have h1 := (m (off+1)).toNat_lt
  have h2 := (m (off+2)).toNat_lt
  have he : ∀ x : UInt8, x.toNat = 255 → x = 0xFF := fun x hx => by
    rw [←UInt8.toNat_inj, hx]
    rfl
  simp only [le32] at h
  intro i hl hh
  obtain rfl|rfl|rfl|rfl : i = off ∨ i = off+1 ∨ i = off+2 ∨ i = off+3 := by omega
  all_goals exact he _ (by omega)

/-- One flash operation on the whole device. -/
inductive Op where
  /-- Program these bytes from an address on. -/
  | write (addr : ℕ) (data : List UInt8)
  /-- Erase a range. -/
  | erase (addr len : ℕ)
deriving DecidableEq, Repr

/-- Effect of a completed operation. -/
def Op.apply (m : Mem) : Op → Mem
  | .write addr data => program m addr data
  | .erase addr len => NorFlash.erase m addr len

/-- Effect of an operation that power cut after some bytes: an erase that
was not completed did not happen. -/
def Op.cut (m : Mem) (n : ℕ) : Op → Mem
  | .write addr data => program m addr (data.take n)
  | .erase _ _ => m

/-- The image left by a cut after some whole operations and, inside the
next one, after some programmed bytes. -/
def cutImage (m : Mem) : List Op → ℕ → ℕ → Mem
  | [], _, _ => m
  | op :: _, 0, bytes => op.cut m bytes
  | op :: ops, n+1, bytes => cutImage (op.apply m) ops n bytes

/-- Effect of a list of completed operations. -/
def applyAll (m : Mem) (ops : List Op) : Mem := ops.foldl Op.apply m

theorem applyAll_append (m : Mem) (xs ys : List Op) :
    applyAll m (xs ++ ys) = applyAll (applyAll m xs) ys := foldl_append

/-- Effect of a list of erases. -/
theorem applyAll_erases {ops : List Op} (h : ∀ op ∈ ops, ∃ a len, op = .erase a len) (m : Mem)
    (i : ℕ) :
    ((∃ a len, .erase a len ∈ ops ∧ a ≤ i ∧ i < a+len) → applyAll m ops i = 0xFF) ∧
    ((¬∃ a len, .erase a len ∈ ops ∧ a ≤ i ∧ i < a+len) → applyAll m ops i = m i) := by
  induction ops generalizing m with
  | nil => exact ⟨fun ⟨_, _, hmem, _⟩ => absurd hmem not_mem_nil, fun _ => rfl⟩
  | cons op ops ih =>
    obtain ⟨a, len, rfl⟩ := h op mem_cons_self
    obtain ⟨hin, hout⟩ := ih (fun op' hmem => h op' (mem_cons_of_mem _ hmem))
      (NorFlash.erase m a len)
    by_cases hrest : ∃ a len, .erase a len ∈ ops ∧ a ≤ i ∧ i < a+len
    · obtain ⟨b, l, hmem, hb⟩ := hrest
      exact ⟨fun _ => hin ⟨b, l, hmem, hb⟩,
        fun hnone => absurd ⟨b, l, mem_cons_of_mem _ hmem, hb⟩ hnone⟩
    · by_cases hfirst : a ≤ i ∧ i < a+len
      · exact ⟨fun _ => (hout hrest).trans (erase_inside hfirst.1 hfirst.2),
          fun hnone => absurd ⟨a, len, mem_cons_self, hfirst⟩ hnone⟩
      · refine ⟨fun ⟨b, l, hmem, hb⟩ => ?_, fun _ => (hout hrest).trans (erase_outside (by omega))⟩
        rcases List.mem_cons.mp hmem with heq | hmem'
        · cases heq
          exact absurd hb hfirst
        · exact absurd ⟨b, l, hmem', hb⟩ hrest

/-- A cut before the first byte leaves everything as it was. -/
theorem Op.cut_zero (m : Mem) (op : Op) : op.cut m 0 = m := by
  cases op with
  | write addr data => rw [Op.cut, take_zero, program_nil]
  | erase addr len => rfl

/-- A cut that tears nothing: no byte is programmed yet, or all that is
missing are zeros. -/
def Op.Untorn (n : ℕ) : Op → Prop
  | .write _ data => n = 0 ∨ ∀ x ∈ data.drop n, x = 0
  | .erase _ _ => True

/-- The operation hit by a cut is not torn. -/
def Untorn : List Op → ℕ → ℕ → Prop
  | [], _, _ => True
  | op :: _, 0, bytes => op.Untorn bytes
  | _ :: ops, n+1, bytes => Untorn ops n bytes

end PineVoice.NorFlash
