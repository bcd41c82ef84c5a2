import PineVoice.DomainName
import Mathlib.Tactic.SplitIfs

/-!
# Decoding a domain name

`utils_dns_domain_get` (`utils_dns.c`) turns the length-prefixed labels of a DNS question into
dotted text. The records and the output are addresses of one memory, because the DNS server
decodes in place. The budget `size_buf` is taken down by every label byte but not by the dots.
-/

namespace PineVoice.UtilsDns

open Function Circular DomainName List

/-- The local variables of the loop. -/
structure Cursor where
  /-- The memory that holds the records and the output. -/
  mem : ℕ → UInt8
  /-- The bytes of the current label that are left. -/
  i : ℕ
  /-- The next record byte. -/
  posIn : ℕ
  /-- The next output byte. -/
  posOut : ℕ
  /-- The output positions stored to, in order. -/
  written : List ℕ

/-- The loop of `utils_dns_domain_get`; the first number is `size_buf`. -/
def domainLoop (records buf : ℕ) : ℕ → Cursor → Cursor
  | 0, c => c
  | sizeBuf+1, c =>
    if c.i = 0 then c
    else
      let mem := update c.mem (buf+c.posOut) (c.mem (records+c.posIn))
      if c.i-1 = 0 ∧ 0 < sizeBuf then
        let mem := update mem (buf+c.posOut+1) 0x2e
        domainLoop records buf sizeBuf ⟨mem, (mem (records+c.posIn+1)).toNat, c.posIn+2, c.posOut+2,
          c.written ++ [c.posOut, c.posOut+1]⟩
      else
        domainLoop records buf sizeBuf
          ⟨mem, c.i-1, c.posIn+1, c.posOut+1, c.written ++ [c.posOut]⟩

/-- What `utils_dns_domain_get` leaves. -/
structure Decoded where
  /-- The memory. -/
  mem : ℕ → UInt8
  /-- `*len`. -/
  len : ℕ
  /-- The output positions stored to. -/
  written : List ℕ
  /-- The return value. -/
  ret : ℤ

/-- `utils_dns_domain_get` with the capacity `len`. -/
def utilsDnsDomainGet (mem : ℕ → UInt8) (records buf len : ℕ) : Decoded :=
  let c := domainLoop records buf len ⟨mem, (mem records).toNat, 1, 0, []⟩
  ⟨c.mem, c.posOut, c.written, 0⟩

section Stream

/-- The output of the loop for records that are not overwritten before they are read. -/
def decodeFrom (rec : ℕ → UInt8) : ℕ → ℕ → ℕ → List UInt8
  | 0, _, _ => []
  | _+1, 0, _ => []
  | sizeBuf+1, i+1, pos =>
    if i = 0 ∧ 0 < sizeBuf then
      rec pos :: 0x2e :: decodeFrom rec sizeBuf (rec (pos+1)).toNat (pos+2)
    else rec pos :: decodeFrom rec sizeBuf i (pos+1)

/-- The output for a record stream and a capacity. -/
def decode (rec : ℕ → UInt8) (len : ℕ) : List UInt8 := decodeFrom rec len (rec 0).toNat 1

variable (rec : ℕ → UInt8) {records buf : ℕ}

/-- The loop stores the decoded bytes one behind the other. -/
theorem domainLoop_eq (sizeBuf i posOut : ℕ) (mem : ℕ → UInt8) (written : List ℕ)
    (hread : ∀ k, posOut < k → k ≤ posOut+(decodeFrom rec sizeBuf i (posOut+1)).length →
      mem (records+k) = rec k)
    (hapart : buf ≤ records ∨
      records+posOut+(decodeFrom rec sizeBuf i (posOut+1)).length < buf+posOut) :
    let out := decodeFrom rec sizeBuf i (posOut+1)
    let c := domainLoop records buf sizeBuf ⟨mem, i, posOut+1, posOut, written⟩
    c.mem = copy mem (buf+posOut) out ∧ c.posOut = posOut+out.length ∧
      c.written = written ++ List.range' posOut out.length := by
  induction sizeBuf generalizing i posOut mem written with
  | zero =>
    simp [domainLoop, decodeFrom, length_nil, append_nil]
  | succ sizeBuf ih =>
    cases i with
    | zero =>
      simp [domainLoop, decodeFrom, length_nil, append_nil]
    | succ i =>
      simp only [domainLoop, decodeFrom, Nat.add_sub_cancel] at hread hapart ⊢
      by_cases hdot : i = 0 ∧ 0 < sizeBuf
      · simp only [if_pos hdot, length_cons] at hread hapart ⊢
        have hrest : decodeFrom rec sizeBuf (rec (posOut+1+1)).toNat (posOut+1+2) =
            decodeFrom rec sizeBuf (rec (posOut+2)).toNat (posOut+2+1) := rfl
        rw [hrest] at hread hapart ⊢
        have hkept : ∀ k, posOut+1 < k → k ≤ posOut+2+(decodeFrom rec sizeBuf
              (rec (posOut+2)).toNat (posOut+2+1)).length →
            update (update mem (buf+posOut) (mem (records+(posOut+1))))
              (buf+posOut+1) 0x2e (records+k) = rec k := by
          intro k hk hbound
          rw [update_of_ne (by omega), update_of_ne (by omega)]
          exact hread k (by omega) (by omega)
        have hnext := hkept (posOut+2) (by omega) (by omega)
        rw [show records+(posOut+1)+1 = records+(posOut+2) from rfl, hnext]
        rcases ih (rec (posOut+2)).toNat (posOut+2) _ (written ++ [posOut, posOut+1])
          (fun k hk hbound => hkept k (by omega) (by omega)) (by omega) with ⟨hmem, hout, hwritten⟩
        refine ⟨?_, ?_, ?_⟩
        · rw [copy_cons, copy_cons, ← hread (posOut+1) (by omega) (by omega)]
          exact hmem
        · exact hout.trans (by omega)
        · rw [range'_succ]
          exact hwritten.trans (append_assoc ..)
      · simp only [if_neg hdot, length_cons] at hread hapart ⊢
        have hkept : ∀ k, posOut+1 < k → k ≤ posOut+1+(decodeFrom rec sizeBuf i
              (posOut+1+1)).length →
            update mem (buf+posOut) (mem (records+(posOut+1))) (records+k) = rec k := by
          intro k hk hbound
          rw [update_of_ne (by omega)]
          exact hread k (by omega) (by omega)
        rcases ih i (posOut+1) _ (written ++ [posOut]) hkept (by omega) with ⟨hmem, hout, hwritten⟩
        refine ⟨?_, ?_, ?_⟩
        · rw [copy_cons, ← hread (posOut+1) (by omega) (by omega)]
          exact hmem
        · exact hout.trans (by omega)
        · rw [range'_succ]
          exact hwritten.trans (append_assoc ..)

/-- In place, or into a buffer behind the records that are read, the output is the decoded
stream. -/
theorem utilsDnsDomainGet_eq (mem : ℕ → UInt8) {len : ℕ}
    (hapart : buf ≤ records ∨ records+(decode (fun k => mem (records+k)) len).length < buf) :
    utilsDnsDomainGet mem records buf len =
      ⟨copy mem buf (decode (fun k => mem (records+k)) len),
        (decode (fun k => mem (records+k)) len).length,
        List.range' 0 (decode (fun k => mem (records+k)) len).length, 0⟩ := by
  rcases domainLoop_eq (fun k => mem (records+k)) len (mem records).toNat 0 mem []
    (fun k _ _ => rfl) hapart with ⟨hmem, hout, hwritten⟩
  have hlen := hout.trans (zero_add _)
  rw [utilsDnsDomainGet, hmem, hlen, hwritten]
  rfl

end Stream

section Labels

variable {rec : ℕ → UInt8}

variable {rec' : ℕ → UInt8} {i pos sizeBuf : ℕ}

/-- The loop reads one record byte for every output byte. -/
theorem decodeFrom_congr (sizeBuf i pos : ℕ)
    (h : ∀ j < (decodeFrom rec sizeBuf i pos).length, rec (pos+j) = rec' (pos+j)) :
    decodeFrom rec sizeBuf i pos = decodeFrom rec' sizeBuf i pos := by
  induction sizeBuf generalizing i pos with
  | zero => rfl
  | succ sizeBuf ih =>
    cases i with
    | zero => rfl
    | succ i =>
      rw [decodeFrom] at h ⊢
      rw [decodeFrom]
      split_ifs at h ⊢ with hdot
      · have hfirst : rec pos = rec' pos := h 0 (by rw [length_cons]; omega)
        have hsecond : rec (pos+1) = rec' (pos+1) :=
          h 1 (by rw [length_cons, length_cons]; omega)
        rw [← hfirst, ← hsecond, ih (rec (pos+1)).toNat (pos+2) fun j hj => ?_]
        rw [add_assoc, add_comm 2 j]
        exact h (j+2) (by rw [length_cons, length_cons]; omega)
      · have hfirst : rec pos = rec' pos := h 0 (by rw [length_cons]; omega)
        rw [← hfirst, ih i (pos+1) fun j hj => ?_]
        rw [add_assoc, add_comm 1 j]
        exact h (j+1) (by rw [length_cons]; omega)

/-- The bytes behind the end of the name do not matter. -/
theorem decode_congr (len : ℕ) (h : ∀ j ≤ (decode rec len).length, rec j = rec' j)
    : decode rec len = decode rec' len := by
  rw [decode, decode, ← h 0 (Nat.zero_le _)]
  refine decodeFrom_congr len _ 1 fun j hj => ?_
  rw [add_comm]
  exact h (j+1) hj

/-- A label that uses up the budget ends the output. -/
theorem decodeFrom_of_le (pos : ℕ) (h : sizeBuf ≤ i) :
    decodeFrom rec sizeBuf i pos = load rec pos sizeBuf := by
  induction sizeBuf generalizing i pos with
  | zero => rfl
  | succ sizeBuf ih =>
    obtain ⟨i, rfl⟩ : ∃ j, i = j+1 := ⟨i-1, by omega⟩
    rw [decodeFrom, if_neg (by omega), ih (pos+1) (by omega), load_succ]

/-- A label within the budget is followed by a dot and the next label. -/
theorem decodeFrom_label (pos : ℕ) (hi : i+1 < sizeBuf) :
    decodeFrom rec sizeBuf (i+1) pos = load rec pos (i+1) ++
      0x2e :: decodeFrom rec (sizeBuf-(i+1)) (rec (pos+(i+1))).toNat (pos+(i+1)+1) := by
  induction i generalizing sizeBuf pos with
  | zero =>
    obtain ⟨sizeBuf, rfl⟩ : ∃ n, sizeBuf = n+1 := ⟨sizeBuf-1, by omega⟩
    rw [decodeFrom, if_pos ⟨rfl, by omega⟩]
    rfl
  | succ i ih =>
    obtain ⟨sizeBuf, rfl⟩ : ∃ n, sizeBuf = n+1 := ⟨sizeBuf-1, by omega⟩
    rw [decodeFrom, ih (pos+1) (by omega), load_succ rec pos (i+1), Nat.add_sub_add_right,
      show pos+1+(i+1) = pos+(i+1+1) by omega]
    rfl

/-- A name that ends within the budget is decoded whole. -/
theorem decodeFrom_labels (pos : ℕ) (labels : List (List UInt8))
    (hlength : ∀ label ∈ labels, LabelLength label) (hread : ReadAt rec pos (encode labels))
    (hsize : size labels < sizeBuf ∨ labels = []) :
    decodeFrom rec sizeBuf (rec pos).toNat (pos+1) = dotted labels := by
  induction labels generalizing sizeBuf pos with
  | nil =>
    have hzero : (rec pos).toNat = 0 := congrArg UInt8.toNat ((readAt_cons ..).mp hread).1
    rw [hzero]
    cases sizeBuf <;> rfl
  | cons label labels ih =>
    rcases (readAt_encode_cons label labels).mp hread with ⟨hlen, hlabel, hrest⟩
    rcases hlength label mem_cons_self with ⟨hpos, hbyte⟩
    have hi : (rec pos).toNat = label.length-1+1 := by
      rw [hlen, UInt8.toNat_ofNat_of_lt' hbyte]
      omega
    have hone : label.length-1+1 = label.length := by omega
    have hbudget : label.length+size labels < sizeBuf := hsize.resolve_right (cons_ne_nil _ _)
    rw [hi, decodeFrom_label (pos+1) (by omega), hone, hlabel, dotted,
      ih (pos+1+label.length) (fun l hl => hlength l (mem_cons_of_mem label hl)) hrest
        (.inl (by omega))]

/-- The stream has a whole name from a position on whose labels are within the budget. -/
def EndsWithin (rec : ℕ → UInt8) (pos sizeBuf : ℕ) : Prop :=
  ∃ labels, (∀ label ∈ labels, LabelLength label) ∧ ReadAt rec pos (encode labels) ∧
    (size labels < sizeBuf ∨ labels = [])

/-- A zero length is a whole name. -/
theorem endsWithin_of_zero (sizeBuf : ℕ) (h : (rec pos).toNat = 0) :
    EndsWithin rec pos sizeBuf :=
  ⟨[], fun _ hl => absurd hl not_mem_nil, (readAt_cons ..).mpr ⟨UInt8.toNat_inj.mp h, rfl⟩,
    .inr rfl⟩

/-- A label before a whole name. -/
theorem EndsWithin.cons (hi : (rec pos).toNat = i+1) (hlt : i+1 < sizeBuf)
    (h : EndsWithin rec (pos+1+(i+1)) (sizeBuf-(i+1))) : EndsWithin rec pos sizeBuf := by
  rcases h with ⟨labels, hlength, hread, hsize⟩
  have hload : (load rec (pos+1) (i+1)).length = i+1 := load_length ..
  have hbyte := UInt8.toNat_lt (rec pos)
  have hrest : size labels < sizeBuf-(i+1) := by
    rcases hsize with hsize | rfl
    · exact hsize
    · rw [size_nil]
      omega
  refine ⟨load rec (pos+1) (i+1) :: labels, fun l hl => ?_, ?_, .inl ?_⟩
  · rcases List.mem_cons.mp hl with rfl | hl
    · exact ⟨by omega, by omega⟩
    · exact hlength l hl
  · refine (readAt_encode_cons ..).mpr ⟨?_, ?_, ?_⟩
    · rw [hload, ← hi, UInt8.ofNat_toNat]
    · rw [ReadAt, hload]
    · rw [hload]
      exact hread
  · rw [size_cons]
    omega

/-- Without the end of the name the whole budget is used, and every dot goes beyond it. -/
theorem length_decodeFrom_of_not_endsWithin (pos : ℕ) (h : ¬EndsWithin rec pos sizeBuf) :
    sizeBuf ≤ (decodeFrom rec sizeBuf (rec pos).toNat (pos+1)).length ∧
      ((rec pos).toNat < sizeBuf →
        sizeBuf < (decodeFrom rec sizeBuf (rec pos).toNat (pos+1)).length) := by
  induction sizeBuf using Nat.strong_induction_on generalizing pos with
  | h sizeBuf ih =>
    rcases lt_or_ge (rec pos).toNat sizeBuf with hlt | hge
    · have hne : (rec pos).toNat ≠ 0 := fun hzero => h (endsWithin_of_zero sizeBuf hzero)
      obtain ⟨i, hi⟩ : ∃ i, (rec pos).toNat = i+1 := ⟨(rec pos).toNat-1, by omega⟩
      have hrest : ¬EndsWithin rec (pos+1+(i+1)) (sizeBuf-(i+1)) :=
        fun hends => h (hends.cons hi (hi ▸ hlt))
      have hnext := (ih (sizeBuf-(i+1)) (by omega) (pos+1+(i+1)) hrest).1
      rw [hi] at hlt ⊢
      rw [decodeFrom_label (pos+1) hlt, length_append, length_cons, load_length]
      omega
    · rw [decodeFrom_of_le (pos+1) hge, load_length]
      omega

/-- The output is as long as the capacity at most when the first label alone uses it up or the
whole name fits. -/
theorem length_decode_le_iff (rec : ℕ → UInt8) (len : ℕ) :
    (decode rec len).length ≤ len ↔ len ≤ (rec 0).toNat ∨
      ∃ labels, (∀ label ∈ labels, LabelLength label) ∧ ReadAt rec 0 (encode labels) ∧
        (encode labels).length ≤ len+1 := by
  rw [decode]
  constructor
  · intro hle
    by_cases hends : EndsWithin rec 0 len
    · rcases hends with ⟨labels, hlength, hread, hsize⟩
      refine .inr ⟨labels, hlength, hread, ?_⟩
      rw [decodeFrom_labels 0 labels hlength hread hsize, dotted_length] at hle
      rw [encode_length]
      omega
    · have hover : (rec 0).toNat < len → len < (decodeFrom rec len (rec 0).toNat 1).length :=
        (length_decodeFrom_of_not_endsWithin 0 hends).2
      exact .inl (by omega)
  · rintro (hfirst | ⟨labels, hlength, hread, hfits⟩)
    · rw [decodeFrom_of_le 1 hfirst, load_length]
    · rw [encode_length] at hfits
      have hsize : size labels < len ∨ labels = [] := by
        cases labels with
        | nil => exact .inr rfl
        | cons label labels =>
          rw [length_cons] at hfits
          exact .inl (by omega)
      rw [decodeFrom_labels 0 labels hlength hread hsize, dotted_length]
      omega

/-- Decoding stays within its capacity exactly when the first label alone uses it up or the
whole encoded name, without its final zero, fits. -/
theorem domainGet_within_capacity_iff (mem : ℕ → UInt8) (records buf len : ℕ)
    (hapart : buf ≤ records ∨ records+(decode (fun k => mem (records+k)) len).length < buf) :
    (∀ pos ∈ (utilsDnsDomainGet mem records buf len).written, pos < len) ∧
        (utilsDnsDomainGet mem records buf len).len ≤ len ↔
      len ≤ (mem records).toNat ∨
        ∃ labels, (∀ label ∈ labels, LabelLength label) ∧
          ReadAt (fun k => mem (records+k)) 0 (encode labels) ∧ (encode labels).length ≤ len+1 := by
  rw [utilsDnsDomainGet_eq mem hapart]
  refine Iff.trans ?_ (length_decode_le_iff (fun k => mem (records+k)) len)
  constructor
  · exact fun h => h.2
  · refine fun h => ⟨fun pos hpos => ?_, h⟩
    have hlt := (List.mem_range'_1.mp hpos).2
    omega

/-- Two labels of one byte. -/
def shortLabels : ℕ → UInt8
  | 0 => 1
  | 1 => 0x61
  | 2 => 1
  | 3 => 0x62
  | _ => 0

/-- The name `a.b` fits a capacity of four, decoded in place. -/
theorem domainGet_within_capacity_four :
    (∀ pos ∈ (utilsDnsDomainGet shortLabels 0 0 4).written, pos < 4) ∧
      (utilsDnsDomainGet shortLabels 0 0 4).len ≤ 4 := by
  refine (domainGet_within_capacity_iff shortLabels 0 0 4 (.inl (le_refl 0))).mpr (.inr ?_)
  refine ⟨[[0x61], [0x62]], fun label hlabel => ?_, rfl, by decide⟩
  rcases List.mem_cons.mp hlabel with rfl | hlabel
  · exact ⟨by decide, by decide⟩
  · rw [List.mem_singleton.mp hlabel]
    exact ⟨by decide, by decide⟩

/-- With a capacity of two the dot is the second byte and `b` is stored behind the buffer. -/
theorem domainGet_overruns : ¬((∀ pos ∈ (utilsDnsDomainGet shortLabels 0 8 2).written, pos < 2) ∧
    (utilsDnsDomainGet shortLabels 0 8 2).len ≤ 2) := by
  decide

end Labels

end PineVoice.UtilsDns
