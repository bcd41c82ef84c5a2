import Mathlib.Data.List.Infix
import Mathlib.Data.List.TakeWhile

/-!
# Parameters of a URI

The value of a parameter is found by a search for its name over the whole URI. The first
occurrence counts, also where it is part of the scheme, of a value or of a longer name. It gives a
value if it ends where some key ends.
-/

namespace PineVoice.UriParse

open List

/-- `'='`. -/
def equals : UInt8 := 0x3D

/-- `'&'`. -/
def ampersand : UInt8 := 0x26

/-- `strstr`: the text from the first occurrence on. -/
def strstr (item : List UInt8) : List UInt8 → Option (List UInt8)
  | [] => if item <+: [] then some [] else none
  | c :: text => if item <+: c :: text then some (c :: text) else strstr item text

/-- `uri_get_item_value`: the value if 0 is returned, nothing if -1 is. -/
def uriGetItemValue (url item : List UInt8) (len : ℕ) : Option (List UInt8) :=
  if len = 0 then none
  else match strstr item url with
    | none => none
    | some p1 =>
      match p1.drop item.length with
      | [] => none
      | c :: p2 =>
        if c = equals then
          let value := p2.takeWhile (· ≠ ampersand)
          if 0 < value.length ∧ value.length < len then some value else none
        else none

/-- A text without the characters that separate. -/
def Plain (text : List UInt8) : Prop := equals ∉ text ∧ ampersand ∉ text ∧ 0 ∉ text
deriving Decidable

/-- A URI `scheme://k1=v1&...&kn=vn`. -/
structure Uri where
  /-- The scheme. -/
  scheme : List UInt8
  /-- The keys and their values. -/
  params : List (List UInt8 × List UInt8)
  /-- The scheme is a string. -/
  scheme_string : 0 ∉ scheme
  /-- Keys and values are free of the characters that separate them. -/
  params_plain : ∀ p ∈ params, Plain p.1 ∧ Plain p.2
  /-- The keys are distinct. -/
  keys_nodup : (params.map Prod.fst).Nodup

/-- The text of a URI. -/
def Uri.text (uri : Uri) : List UInt8 :=
  uri.scheme ++ [0x3A, 0x2F, 0x2F]
    ++ [ampersand].intercalate (uri.params.map fun p => p.1 ++ equals :: p.2)

/-! ### The search -/

/-- The item occurs at a position, and at none before it. -/
def FirstAt (url item : List UInt8) (n : ℕ) : Prop :=
  item <+: url.drop n ∧ ∀ m, item <+: url.drop m → n ≤ m

theorem strstr_eq_some_iff (item url p : List UInt8) :
    strstr item url = some p ↔ ∃ n, FirstAt url item n ∧ url.drop n = p := by
  induction url with
  | nil =>
    by_cases hitem : item <+: []
    · simp only [strstr, hitem, if_true, FirstAt, drop_nil, true_and, Option.some.injEq]
      exact ⟨fun hp => ⟨0, fun m _ => Nat.zero_le m, hp⟩, fun ⟨_, _, hp⟩ => hp⟩
    · simp [strstr, hitem, FirstAt]
  | cons c url ih =>
    by_cases hitem : item <+: c :: url
    · rw [strstr, if_pos hitem, Option.some.injEq]
      constructor
      · intro hp
        exact ⟨0, ⟨hitem, fun m _ => Nat.zero_le m⟩, hp⟩
      · rintro ⟨n, ⟨_, hfirst⟩, hp⟩
        rwa [Nat.le_zero.mp (hfirst 0 hitem)] at hp
    · rw [strstr, if_neg hitem, ih]
      constructor
      · rintro ⟨n, ⟨hthere, hfirst⟩, hp⟩
        refine ⟨n+1, ⟨hthere, fun m hm => ?_⟩, hp⟩
        obtain _ | m := m
        · exact absurd hm hitem
        · exact Nat.succ_le_succ (hfirst m hm)
      · rintro ⟨n, ⟨hthere, hfirst⟩, hp⟩
        obtain _ | n := n
        · exact absurd hthere hitem
        · exact ⟨n, ⟨hthere, fun m hm => Nat.le_of_succ_le_succ (hfirst (m+1) hm)⟩, hp⟩

/-- A value is returned if the first occurrence of the item is followed by `=` and then, up to `&`
or the end, by that value. -/
theorem uriGetItemValue_eq_some_iff (url item value : List UInt8) (len : ℕ) :
    uriGetItemValue url item len = some value
      ↔ (∃ n rest, FirstAt url item n ∧ url.drop (n+item.length) = equals :: rest
          ∧ rest.takeWhile (· ≠ ampersand) = value) ∧ value ≠ [] ∧ value.length < len := by
  constructor
  · intro hget
    unfold uriGetItemValue at hget
    split_ifs at hget with hlen
    split at hget
    · cases hget
    next p1 hp1 =>
      split at hget
      · cases hget
      next c p2 hp2 =>
        dsimp only at hget
        split_ifs at hget with hc hcount
        obtain ⟨n, hfirst, hn⟩ := (strstr_eq_some_iff item url p1).mp hp1
        have htake := Option.some.inj hget
        rw [htake] at hcount
        refine ⟨⟨n, p2, hfirst, ?_, htake⟩, length_pos_iff.mp hcount.1, hcount.2⟩
        rw [← drop_drop, hn, hp2, hc]
  · rintro ⟨⟨n, rest, hfirst, htext, htake⟩, hne, hlen⟩
    have hfound := (strstr_eq_some_iff item url _).mpr ⟨n, hfirst, rfl⟩
    have hpos : 0 < value.length := length_pos_iff.mpr hne
    simp only [uriGetItemValue, hfound, drop_drop, htext, htake, if_true]
    rw [if_neg (Nat.ne_zero_of_lt hlen), if_pos ⟨hpos, hlen⟩]

/-! ### Where the keys end -/

/-- Parameters, each with a separator before it. -/
def joined (params : List (List UInt8 × List UInt8)) : List UInt8 :=
  params.flatMap fun p => ampersand :: (p.1 ++ equals :: p.2)

/-- The loop over the value stops before the next parameter. -/
theorem takeWhile_joined {value : List UInt8} (h : ampersand ∉ value)
    (after : List (List UInt8 × List UInt8)) :
    (value ++ joined after).takeWhile (· ≠ ampersand) = value := by
  have hall : ∀ c ∈ value, decide (c ≠ ampersand) = true := by
    intro c hc
    simpa using ne_of_mem_of_not_mem hc h
  rw [takeWhile_append_of_pos hall]
  cases after with
  | nil => simp [joined]
  | cons p after => simp [joined]

/-- The separator before the first parameter is left out. -/
theorem intercalate_eq_tail (params : List (List UInt8 × List UInt8)) :
    [ampersand].intercalate (params.map fun p => p.1 ++ equals :: p.2) = (joined params).tail := by
  induction params with
  | nil => rfl
  | cons p rest ih =>
    cases rest with
    | nil => simp [joined]
    | cons q rest =>
      rw [map_cons] at ih
      rw [map_cons, map_cons, intercalate_cons_cons, ih]
      simp [joined]

/-- The text behind the scheme. -/
theorem Uri.drop_text (uri : Uri) (m : ℕ) :
    uri.text.drop (uri.scheme.length+3+m) = (joined uri.params).drop (m+1) := by
  have hfront : (uri.scheme ++ [0x3A, 0x2F, 0x2F]).length = uri.scheme.length+3 := length_append
  rw [Uri.text, intercalate_eq_tail, ← hfront, ← drop_drop, drop_left, ← drop_one, drop_drop,
    Nat.add_comm 1 m]

/-- The position behind a key, from the parameters before it. -/
def Uri.keyEnd (uri : Uri) (before : List (List UInt8 × List UInt8)) (key : List UInt8) : ℕ :=
  uri.scheme.length+3+((joined before).length+key.length)

/-- Behind a key come `=` and its value. -/
theorem Uri.drop_keyEnd (uri : Uri) {before after : List (List UInt8 × List UInt8)}
    {key value : List UInt8} (h : uri.params = before ++ (key, value) :: after) :
    uri.text.drop (uri.keyEnd before key) = equals :: (value ++ joined after) := by
  have hjoined : joined uri.params =
      joined before ++ (ampersand :: key ++ (equals :: (value ++ joined after))) := by
    rw [h]
    simp [joined]
  have hlength : (joined before).length+key.length+1
      = (joined before ++ ampersand :: key).length := by
    simp
    omega
  rw [keyEnd, uri.drop_text, hjoined, ← append_assoc, hlength, drop_left]

/-- Values are free of `&`. -/
theorem Uri.ampersand_not_mem (uri : Uri) {before after : List (List UInt8 × List UInt8)}
    {key value : List UInt8} (h : uri.params = before ++ (key, value) :: after) :
    ampersand ∉ value := by
  have hmem : (key, value) ∈ uri.params := h ▸ mem_append_right before mem_cons_self
  exact (uri.params_plain _ hmem).2.2.1

/-- A separator `=` stands behind a key. -/
theorem exists_of_joined {params : List (List UInt8 × List UInt8)} {m : ℕ}
    (hplain : ∀ p ∈ params, Plain p.1 ∧ Plain p.2) (h : (joined params)[m+1]? = some equals) :
    ∃ before key value after, params = before ++ (key, value) :: after
      ∧ m = (joined before).length+key.length := by
  induction params generalizing m with
  | nil => cases h
  | cons p rest ih =>
    obtain ⟨hkey, hvalue⟩ := hplain p mem_cons_self
    have hcons : joined (p :: rest) = ampersand :: (p.1 ++ equals :: (p.2 ++ joined rest)) := by
      simp [joined]
    rw [hcons, getElem?_cons_succ] at h
    by_cases hbefore : m < p.1.length
    · rw [getElem?_append_left hbefore] at h
      exact absurd (mem_of_getElem? h) hkey.1
    rw [getElem?_append_right (Nat.le_of_not_lt hbefore)] at h
    obtain hat | ⟨k, hk⟩ : m = p.1.length ∨ ∃ k, m = p.1.length+(k+1) := by
      rcases Nat.exists_eq_add_of_le (Nat.le_of_not_lt hbefore) with ⟨_ | k, hk⟩
      · exact .inl hk
      · exact .inr ⟨k, hk⟩
    · exact ⟨[], p.1, p.2, rest, rfl, by simp [joined, hat]⟩
    rw [hk, Nat.add_sub_cancel_left, getElem?_cons_succ] at h
    by_cases hinside : k < p.2.length
    · rw [getElem?_append_left hinside] at h
      exact absurd (mem_of_getElem? h) hvalue.1
    rw [getElem?_append_right (Nat.le_of_not_lt hinside)] at h
    obtain ⟨m', hm'⟩ : ∃ m', k-p.2.length = m'+1 := by
      cases hzero : k-p.2.length with
      | succ m' => exact ⟨m', rfl⟩
      | zero =>
        rw [hzero] at h
        cases rest with
        | nil => cases h
        | cons q rest => exact absurd (Option.some.inj h) (by decide)
    rw [hm'] at h
    obtain ⟨before, key, value, after, hrest, hpos⟩ :=
      ih (fun q hq => hplain q (mem_cons_of_mem p hq)) h
    refine ⟨p :: before, key, value, after, by rw [hrest, cons_append], ?_⟩
    have hlength : (joined (p :: before)).length
        = p.1.length+p.2.length+2+(joined before).length := by
      simp [joined]
      omega
    omega

/-- A position gives a value: it is behind a key with this value, or in the scheme before a `=`
that this text follows up to `&`. -/
def Uri.GivesAt (uri : Uri) (n : ℕ) (value : List UInt8) : Prop :=
  (∃ before key after, uri.params = before ++ (key, value) :: after ∧ n = uri.keyEnd before key)
    ∨ uri.scheme[n]? = some equals
      ∧ value = (uri.text.drop (n+1)).takeWhile (· ≠ ampersand)

/-- The values that can be read behind a `=` are those that positions give. -/
theorem Uri.givesAt_iff (uri : Uri) (n : ℕ) (value : List UInt8) :
    (∃ rest, uri.text.drop n = equals :: rest ∧ rest.takeWhile (· ≠ ampersand) = value)
      ↔ uri.GivesAt n value := by
  constructor
  · rintro ⟨rest, htext, htake⟩
    have hget : uri.text[n]? = some equals := by
      rw [← head?_drop, htext, head?_cons]
    have hrest : uri.text.drop (n+1) = rest := by
      rw [← drop_drop, htext, drop_one, tail_cons]
    by_cases hscheme : n < uri.scheme.length
    · rw [Uri.text, append_assoc, getElem?_append_left hscheme] at hget
      exact .inr ⟨hget, by rw [hrest, htake]⟩
    obtain ⟨k, rfl⟩ := Nat.exists_eq_add_of_le (Nat.le_of_not_lt hscheme)
    rw [Uri.text, append_assoc, getElem?_append_right (Nat.le_add_right _ _),
      Nat.add_sub_cancel_left] at hget
    match k, hget with
    | 0, hget => exact absurd (Option.some.inj hget) (by decide)
    | 1, hget => exact absurd (Option.some.inj hget) (by decide)
    | 2, hget => exact absurd (Option.some.inj hget) (by decide)
    | m+3, _ =>
      rw [show uri.scheme.length+(m+3) = uri.scheme.length+3+m by omega] at htext ⊢
      have hjoined : (joined uri.params)[m+1]? = some equals := by
        rw [← head?_drop, ← uri.drop_text, htext, head?_cons]
      obtain ⟨before, key, found, after, hparams, rfl⟩ := exists_of_joined uri.params_plain hjoined
      have hbehind := uri.drop_keyEnd hparams
      rw [keyEnd, htext] at hbehind
      have hvalue := (cons_inj_right equals).mp hbehind
      rw [hvalue, takeWhile_joined (uri.ampersand_not_mem hparams)] at htake
      exact .inl ⟨before, key, after, htake ▸ hparams, rfl⟩
  · rintro (⟨before, key, after, hparams, rfl⟩ | ⟨hget, rfl⟩)
    · refine ⟨_, uri.drop_keyEnd hparams, ?_⟩
      exact takeWhile_joined (uri.ampersand_not_mem hparams) after
    · have hlt := (List.getElem?_eq_some_iff.mp hget).1
      have htext : uri.text[n]? = some equals := by
        rw [Uri.text, append_assoc, getElem?_append_left hlt, hget]
      refine ⟨uri.text.drop (n+1), ?_, rfl⟩
      rw [← getElem_cons_drop (List.getElem?_eq_some_iff.mp htext).1]
      rw [(List.getElem?_eq_some_iff.mp htext).2]

/-- Where the first occurrence of the name must lie. -/
structure Uri.Locates (uri : Uri) (item : List UInt8) (len : ℕ) : Prop where
  /-- If the parameter of this name has a value that can be returned, the first occurrence ends
  where its key ends, or at a position that gives the same value. -/
  own : ∀ value, (item, value) ∈ uri.params → value ≠ [] → value.length < len →
    ∃ n, FirstAt uri.text item n ∧ uri.GivesAt (n+item.length) value
  /-- Otherwise it does not end at a position that gives a value that can be returned. -/
  other : ∀ n value, FirstAt uri.text item n → uri.GivesAt (n+item.length) value → value ≠ [] →
    value.length < len → (item, value) ∈ uri.params

/-- The value is looked up by the exact name if and only if the first occurrence of the name lies
where it must. -/
theorem uriGetItemValue_exact_iff (uri : Uri) (item : List UInt8) (len : ℕ) :
    (∀ value, uriGetItemValue uri.text item len = some value
        ↔ (item, value) ∈ uri.params ∧ value ≠ [] ∧ value.length < len)
      ↔ uri.Locates item len := by
  have hget (value : List UInt8) : uriGetItemValue uri.text item len = some value
      ↔ (∃ n, FirstAt uri.text item n ∧ uri.GivesAt (n+item.length) value)
        ∧ value ≠ [] ∧ value.length < len := by
    rw [uriGetItemValue_eq_some_iff]
    refine and_congr_left fun _ => exists_congr fun n => ?_
    rw [← uri.givesAt_iff]
    exact exists_and_left
  constructor
  · intro h
    constructor
    · intro value hmem hne hlen
      exact ((hget value).mp ((h value).mpr ⟨hmem, hne, hlen⟩)).1
    · intro n value hfirst hgives hne hlen
      exact ((h value).mp ((hget value).mpr ⟨⟨n, hfirst, hgives⟩, hne, hlen⟩)).1
  · intro h value
    rw [hget]
    constructor
    · rintro ⟨⟨n, hfirst, hgives⟩, hne, hlen⟩
      exact ⟨h.other n value hfirst hgives hne hlen, hne, hlen⟩
    · rintro ⟨hmem, hne, hlen⟩
      exact ⟨h.own value hmem hne hlen, hne, hlen⟩

/-- `mem://xlen=5&len=7`. -/
def sampleUri : Uri where
  scheme := [0x6D, 0x65, 0x6D]
  params := [([0x78, 0x6C, 0x65, 0x6E], [0x35]), ([0x6C, 0x65, 0x6E], [0x37])]
  scheme_string := by decide
  params_plain := by decide
  keys_nodup := by decide

/-- Under the name `len` the value of `xlen` is returned. -/
theorem uriGetItemValue_other :
    (([0x6C, 0x65, 0x6E], [0x37]) : List UInt8 × List UInt8) ∈ sampleUri.params
      ∧ uriGetItemValue sampleUri.text [0x6C, 0x65, 0x6E] 8 = some [0x35] := by
  decide

end PineVoice.UriParse
