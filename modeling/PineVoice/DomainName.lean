import PineVoice.Circular
import Mathlib.Data.List.GetD

/-!
# Domain names on the wire and as text

A domain name is a list of labels. On the wire each label follows its length and a zero length
ends the name; as text the labels are separated by dots and a zero byte ends the string. Both are
read from a byte stream, a function of the position.
-/

namespace PineVoice.DomainName

open Circular List

/-- Every label behind its length. -/
def records : List (List UInt8) → List UInt8
  | [] => []
  | label :: labels => UInt8.ofNat label.length :: label ++ records labels

/-- The wire form. -/
def encode (labels : List (List UInt8)) : List UInt8 := records labels ++ [0]

/-- Every label with a dot behind it. -/
def dotted : List (List UInt8) → List UInt8
  | [] => []
  | label :: labels => label ++ 0x2e :: dotted labels

/-- The text, with its final zero. -/
def text : List (List UInt8) → List UInt8
  | [] => [0]
  | [label] => label ++ [0]
  | label :: next :: labels => label ++ 0x2e :: text (next :: labels)

/-- The bytes of the labels alone. -/
def size (labels : List (List UInt8)) : ℕ := (labels.map List.length).sum

/-- A label of the wire form is not empty and its length fits a byte. -/
def LabelLength (label : List UInt8) : Prop := 1 ≤ label.length ∧ label.length < 256

/-- The stream holds these bytes from a position on. -/
def ReadAt (rec : ℕ → UInt8) (pos : ℕ) (bytes : List UInt8) : Prop :=
  load rec pos bytes.length = bytes

variable {rec rec' : ℕ → UInt8} {pos : ℕ}

@[simp] theorem size_nil : size [] = 0 := rfl

@[simp] theorem size_cons (label : List UInt8) (labels : List (List UInt8)) :
    size (label :: labels) = label.length+size labels := rfl

theorem records_length (labels : List (List UInt8)) :
    (records labels).length = size labels+labels.length := by
  induction labels with
  | nil => rfl
  | cons label labels ih =>
    rw [records, length_append, length_cons, length_cons, size_cons]
    omega

theorem encode_length (labels : List (List UInt8)) :
    (encode labels).length = size labels+labels.length+1 := by
  rw [encode, length_append, records_length]
  rfl

theorem dotted_length (labels : List (List UInt8)) :
    (dotted labels).length = size labels+labels.length := by
  induction labels with
  | nil => rfl
  | cons label labels ih =>
    rw [dotted, length_append, length_cons, length_cons, size_cons]
    omega

/-- The text has a zero in the place of the last dot. -/
theorem text_eq_dotted {labels : List (List UInt8)} (h : labels ≠ []) :
    ∃ front, dotted labels = front ++ [0x2e] ∧ text labels = front ++ [0] := by
  induction labels with
  | nil => exact absurd rfl h
  | cons label labels ih =>
    cases labels with
    | nil => exact ⟨label, rfl, rfl⟩
    | cons next labels =>
      rcases ih (cons_ne_nil _ _) with ⟨front, hdotted, htext⟩
      refine ⟨label ++ 0x2e :: front, ?_, ?_⟩
      · rw [dotted, hdotted, append_assoc, cons_append]
      · rw [text, htext, append_assoc, cons_append]

theorem text_length {labels : List (List UInt8)} (h : labels ≠ []) :
    (text labels).length = size labels+labels.length := by
  rcases text_eq_dotted h with ⟨front, hdotted, htext⟩
  rw [← dotted_length, hdotted, htext, length_append, length_append]
  rfl

/-- A string without zero is the text of labels without dots. -/
theorem exists_text (s : List UInt8) (hzero : 0 ∉ s) : ∃ labels, labels ≠ [] ∧
    text labels = s ++ [0] ∧ ∀ label ∈ labels, 0x2e ∉ label ∧ 0 ∉ label := by
  induction s with
  | nil =>
    refine ⟨[[]], cons_ne_nil _ _, rfl, fun label hlabel => ?_⟩
    rw [List.mem_singleton.mp hlabel]
    exact ⟨not_mem_nil, not_mem_nil⟩
  | cons b s ih =>
    rcases ih (fun h => hzero (mem_cons_of_mem b h)) with ⟨labels, hne, htext, hplain⟩
    have hb : (0 : UInt8) ≠ b := fun h => hzero (h ▸ mem_cons_self)
    rcases exists_cons_of_ne_nil hne with ⟨label, rest, rfl⟩
    by_cases hdot : b = 0x2e
    · refine ⟨[] :: label :: rest, cons_ne_nil _ _, ?_, fun l hl => ?_⟩
      · rw [text, htext, hdot]
        rfl
      · rcases List.mem_cons.mp hl with rfl | hl
        · exact ⟨not_mem_nil, not_mem_nil⟩
        · exact hplain l hl
    · refine ⟨(b :: label) :: rest, cons_ne_nil _ _, ?_, fun l hl => ?_⟩
      · rw [cons_append, ← htext]
        cases rest with
        | nil => rfl
        | cons next rest => rfl
      · rcases List.mem_cons.mp hl with rfl | hl
        · have hlabel := hplain label mem_cons_self
          refine ⟨fun h => ?_, fun h => ?_⟩
          · rcases List.mem_cons.mp h with h | h
            · exact hdot h.symm
            · exact hlabel.1 h
          · rcases List.mem_cons.mp h with h | h
            · exact hb h
            · exact hlabel.2 h
        · exact hplain l (mem_cons_of_mem label hl)

theorem readAt_congr {bytes : List UInt8} (h : ∀ i < bytes.length, rec (pos+i) = rec' (pos+i)) :
    ReadAt rec pos bytes ↔ ReadAt rec' pos bytes := by
  rw [ReadAt, ReadAt, load_congr h]

/-- Bytes read in two parts. -/
theorem readAt_append (a b : List UInt8) :
    ReadAt rec pos (a ++ b) ↔ ReadAt rec pos a ∧ ReadAt rec (pos+a.length) b := by
  rw [ReadAt, length_append, load_add]
  constructor
  · exact fun h => append_inj h (load_length ..)
  · rintro ⟨ha, hb⟩
    rw [ha, hb]

/-- The first byte read. -/
theorem readAt_cons (b : UInt8) (bytes : List UInt8) :
    ReadAt rec pos (b :: bytes) ↔ rec pos = b ∧ ReadAt rec (pos+1) bytes := by
  rw [ReadAt, ReadAt, length_cons, load_succ, List.cons.injEq]

/-- The beginning of a list, read as a stream. -/
theorem readAt_getD (a b : List UInt8) : ReadAt (fun i => (a ++ b).getD i 0) 0 a := by
  refine ext_getElem (load_length ..) fun i hi hi' => ?_
  simp only [load, getElem_map, getElem_range, Nat.zero_add]
  rw [getD_append _ _ _ _ hi', getD_eq_getElem _ _ hi']

/-- A zero stored in copied bytes ends them there. -/
theorem readAt_update_copy (mem : ℕ → UInt8) (bytes : List UInt8) {len : ℕ}
    (hle : len ≤ bytes.length) :
    ReadAt (Function.update (copy mem 0 bytes) len 0) 0 (bytes.take len ++ [0]) := by
  have htake : (bytes.take len).length = len := length_take_of_le hle
  have hall : ReadAt (copy mem 0 bytes) 0 (bytes.take len ++ bytes.drop len) := by
    rw [take_append_drop]
    exact load_copy mem 0 bytes
  refine (readAt_append ..).mpr ⟨?_, (readAt_cons ..).mpr ⟨?_, rfl⟩⟩
  · refine (readAt_congr fun i hi => ?_).mp ((readAt_append ..).mp hall).1
    rw [Function.update_of_ne (by omega)]
  · rw [htake, Nat.zero_add, Function.update_self]

/-- The wire form, label by label. -/
theorem readAt_encode_cons (label : List UInt8) (labels : List (List UInt8)) :
    ReadAt rec pos (encode (label :: labels)) ↔ rec pos = UInt8.ofNat label.length ∧
      ReadAt rec (pos+1) label ∧ ReadAt rec (pos+1+label.length) (encode labels) := by
  rw [encode, records, append_assoc, cons_append, readAt_cons, readAt_append]
  rfl

end PineVoice.DomainName
