import Mathlib.Algebra.Group.Int.Defs
import Mathlib.Data.List.TakeWhile
import Mathlib.Tactic.Common

/-!
# The choice of a transport by the scheme of a path

`netio_open` takes the text in front of "://" as a scheme and compares that many characters of the
path with the names of the registered classes. A name that goes on behind the scheme compares
equal as well. One character less is compared if "https" occurs anywhere in the path.
-/

namespace PineVoice.Netio

open List Option

/-- A C string without its terminator. -/
abbrev Text := List Char

/-- `netio_cls_t` with the fields `netio_open` uses. -/
structure NetioCls where
  /-- `name`. -/
  name : Text
  /-- `open` is not null. -/
  opens : Bool
deriving DecidableEq

/-- `strstr`, the place of the first occurrence. -/
def strstr (needle : Text) : Text → Option ℕ
  | [] => if needle = [] then some 0 else none
  | c :: rest =>
    if needle.isPrefixOf (c :: rest) then some 0 else (strstr needle rest).map (·+1)

/-- `strncmp(cls->name, path, len) == 0`. -/
def NetioCls.compares (path : Text) (len : ℕ) (cls : NetioCls) : Bool :=
  cls.name.take len == path.take len

/-- The separator "://". -/
def separator : Text := [':', '/', '/']

/-- The text "https". -/
def https : Text := ['h', 't', 't', 'p', 's']

/-- The name "http". -/
def http : Text := ['h', 't', 't', 'p']

/-- What `netio_open` returns and calls. -/
structure Opened where
  /-- The class of the returned handle, if it is not null. -/
  io : Option NetioCls
  /-- The classes whose `open` was called. -/
  calls : List NetioCls
deriving DecidableEq

section Model

variable (zalloc : Bool) (openRet : NetioCls → ℤ)

/-- The loop over the classes; nothing if a null pointer is followed. -/
def openLoop (path : Text) (len : ℕ) : List NetioCls → Option Opened
  | [] => some ⟨none, []⟩
  | cls :: rest =>
    if cls.compares path len then
      if cls.opens then
        if zalloc then
          if openRet cls < 0 then some ⟨none, [cls]⟩ else some ⟨some cls, [cls]⟩
        else none
      else some ⟨none, []⟩
    else openLoop path len rest

/-- `len`, as the `size_t` that `strncmp` takes. -/
def compareLen (path : Text) (delim : ℕ) : ℕ :=
  let len : ℤ := if (strstr https path).isSome then delim-1 else delim
  (len % 2^32).toNat

/-- `netio_open`. -/
def netioOpen (clsList : List NetioCls) (path : Text) : Option Opened :=
  match strstr separator path with
  | some delim => openLoop zalloc openRet path (compareLen path delim) clsList
  | none => some ⟨none, []⟩

end Model

/-- The class is the one for a scheme. -/
def NetioCls.Serves (scheme : Text) (cls : NetioCls) : Prop :=
  cls.name = scheme ∨ cls.name = http ∧ scheme = https

instance (scheme : Text) (cls : NetioCls) : Decidable (cls.Serves scheme) :=
  inferInstanceAs (Decidable (_ ∨ _))

/-- The `open` of a class for the scheme was called and no other, or there is no class for
it, nothing was called and the result is null. -/
def Dispatched (clsList : List NetioCls) (scheme : Text) (result : Option Opened) : Prop :=
  (∃ cls ∈ clsList, cls.Serves scheme ∧ ∃ io, result = some ⟨io, [cls]⟩) ∨
    (∀ cls ∈ clsList, ¬cls.Serves scheme) ∧ result = some ⟨none, []⟩

section Loop

variable {zalloc : Bool} {openRet : NetioCls → ℤ} {path : Text} {len : ℕ}

/-- The first class that compares equal decides. -/
theorem openLoop_find (clsList : List NetioCls) :
    openLoop zalloc openRet path len clsList = match clsList.find? (NetioCls.compares path len) with
      | none => some ⟨none, []⟩
      | some cls =>
        if cls.opens then
          if zalloc then some ⟨if openRet cls < 0 then none else some cls, [cls]⟩ else none
        else some ⟨none, []⟩ := by
  induction clsList with
  | nil => rfl
  | cons cls rest ih =>
    rw [openLoop, find?_cons]
    cases cls.compares path len with
    | false => exact ih
    | true =>
      show (if cls.opens then _ else _) = if cls.opens then _ else _
      split_ifs <;> rfl

end Loop

section Compare

variable {scheme rest : Text}

/-- The compared characters are some of the scheme, unless the scheme is empty. -/
theorem compareLen_le {path : Text} {delim : ℕ}
    (h : delim = 0 → strstr https path = none) : compareLen path delim ≤ delim := by
  unfold compareLen
  cases hfind : strstr https path with
  | none =>
    simp only [isSome_none, Bool.false_eq_true, if_false]
    omega
  | some i =>
    have hpos : delim ≠ 0 := fun hzero => by
      rw [h hzero] at hfind
      cases hfind
    simp only
    omega

variable {cls : NetioCls}

/-- A class for the scheme compares equal. -/
theorem serves_compare (hserves : cls.Serves scheme)
    (h : scheme = [] → strstr https (scheme ++ separator ++ rest) = none) :
    cls.compares (scheme ++ separator ++ rest)
      (compareLen (scheme ++ separator ++ rest) scheme.length) = true := by
  rcases hserves with rfl | ⟨hname, rfl⟩
  · have hle : compareLen (cls.name ++ separator ++ rest) cls.name.length ≤ cls.name.length :=
      compareLen_le fun hzero => h (eq_nil_of_length_eq_zero hzero)
    rw [NetioCls.compares, append_assoc, take_append_of_le_length (by
      rw [← append_assoc]; exact hle), beq_self_eq_true]
  · have hlen : compareLen (https ++ separator ++ rest) https.length = 4 := rfl
    rw [NetioCls.compares, hname]
    rfl

/-- With "https" behind an empty scheme the whole path is compared, which no class for the
scheme has as its name. -/
theorem not_compare_of_empty (hserves : cls.Serves []) (h : strstr https (separator ++ rest) ≠ none)
    : cls.compares (separator ++ rest) (compareLen (separator ++ rest) 0) = false := by
  have hname : cls.name = [] := by
    rcases hserves with hname | ⟨-, hscheme⟩
    · exact hname
    · cases hscheme
  have hlen : compareLen (separator ++ rest) 0 = 2^32-1 := by
    rw [compareLen, if_pos (Option.isSome_iff_ne_none.mpr h)]
    rfl
  rw [NetioCls.compares, hlen, hname]
  rfl

end Compare

/-- No class that is not meant comes first. If there is a class for the scheme, no name of a
class in front of the first one compares equal, that class has an `open`, there is memory for
the handle, and the scheme is not an empty one with "https" behind it. If there is none, no
name compares equal, or the first that does belongs to a class without an `open`. -/
def Unmistaken (zalloc : Bool) (clsList : List NetioCls) (scheme path : Text) : Prop :=
  let compares := NetioCls.compares path (compareLen path scheme.length)
  match clsList.find? fun cls => cls.Serves scheme with
  | some cls =>
    (∀ c ∈ clsList.takeWhile fun c => ¬c.Serves scheme, compares c = false) ∧
      cls.opens = true ∧ zalloc = true ∧ (scheme = [] → strstr https path = none)
  | none => ∀ cls ∈ clsList.find? compares, cls.opens = false

section Dispatch

variable {zalloc : Bool} {openRet : NetioCls → ℤ} {clsList : List NetioCls}
variable {scheme path : Text} {len : ℕ}

variable {cls : NetioCls}

/-- The classes in front of the first one for the scheme. -/
theorem takeWhile_front {front : List NetioCls} (back : List NetioCls) (hserves : cls.Serves scheme)
    (hfront : ∀ c ∈ front, ¬c.Serves scheme) :
    (front ++ cls :: back).takeWhile (fun c => ¬c.Serves scheme) = front := by
  rw [takeWhile_append_of_pos fun c hc => decide_eq_true (hfront c hc),
    takeWhile_cons_of_neg (by simpa using hserves), append_nil]

theorem find_serves (h : clsList.find? (fun c => c.Serves scheme) = some cls) :
    ∃ front back, clsList = front ++ cls :: back ∧ cls.Serves scheme ∧
      ∀ c ∈ front, ¬c.Serves scheme := by
  obtain ⟨hcls, front, back, rfl, hbefore⟩ := List.find?_eq_some_iff_append.mp h
  exact ⟨front, back, rfl, of_decide_eq_true hcls, fun c hc => by simpa using hbefore c hc⟩

/-- A call of an `open` is one of the first class that compares equal. -/
theorem openLoop_calls {io : Option NetioCls}
    (h : openLoop zalloc openRet path len clsList = some ⟨io, [cls]⟩) :
    clsList.find? (NetioCls.compares path len) = some cls ∧ cls.opens = true ∧ zalloc = true := by
  rw [openLoop_find] at h
  cases hfind : clsList.find? (NetioCls.compares path len) with
  | none =>
    rw [hfind] at h
    cases h
  | some first =>
    rw [hfind] at h
    dsimp only at h
    split_ifs at h with hopens halloc <;> cases h
    all_goals exact ⟨rfl, hopens, halloc⟩

/-- A null result without a call. -/
theorem openLoop_null_iff :
    openLoop zalloc openRet path len clsList = some ⟨none, []⟩ ↔
      ∀ cls ∈ clsList.find? (NetioCls.compares path len), cls.opens = false := by
  rw [openLoop_find]
  cases clsList.find? (NetioCls.compares path len) with
  | none => exact iff_of_true rfl nofun
  | some first =>
    simp only [mem_some_iff, forall_eq']
    cases hopens : first.opens with
    | false => exact iff_of_true rfl rfl
    | true =>
      refine iff_of_false (fun h => ?_) Bool.noConfusion
      rw [if_pos rfl] at h
      split_ifs at h <;> cases h

end Dispatch

/-- For every list of classes and every path with a scheme, `netio_open` goes by the scheme if
and only if no other class comes first. -/
theorem netioOpen_dispatches_iff (zalloc : Bool) (openRet : NetioCls → ℤ)
    (clsList : List NetioCls) (scheme rest : Text)
    (hscheme : strstr separator (scheme ++ separator ++ rest) = some scheme.length) :
    Dispatched clsList scheme (netioOpen zalloc openRet clsList (scheme ++ separator ++ rest)) ↔
      Unmistaken zalloc clsList scheme (scheme ++ separator ++ rest) := by
  generalize hpath : scheme ++ separator ++ rest = path at hscheme ⊢
  rw [netioOpen, hscheme, Unmistaken, Dispatched]
  dsimp only
  generalize hlen : compareLen path scheme.length = len
  cases hfind : clsList.find? fun cls => cls.Serves scheme with
  | none =>
    have hno : ∀ cls ∈ clsList, ¬cls.Serves scheme := fun cls hmem =>
      of_decide_eq_false (Bool.eq_false_iff.mpr (List.find?_eq_none.mp hfind cls hmem))
    rw [or_iff_right (fun h => by
      rcases h with ⟨cls, hmem, hserves, -⟩
      exact hno cls hmem hserves), and_iff_right hno]
    exact openLoop_null_iff
  | some cls =>
    obtain ⟨front, back, rfl, hserves, hfront⟩ := find_serves hfind
    have hmem : cls ∈ front ++ cls :: back := mem_append_right front mem_cons_self
    rw [or_iff_left fun h => h.1 cls hmem hserves]
    rw [takeWhile_front back hserves hfront]
    constructor
    · rintro ⟨c, -, hc, io, hcalls⟩
      obtain ⟨hfirst, hopens, halloc⟩ := openLoop_calls hcalls
      have hequal : c.compares path len = true := find?_some hfirst
      have hempty : scheme = [] → strstr https path = none := by
        intro hnil
        by_contra hhttps
        subst hnil hpath hlen
        exact Bool.false_ne_true ((not_compare_of_empty hc hhttps).symm.trans hequal)
      have hnone : front.find? (NetioCls.compares path len) = none := by
        rw [find?_append] at hfirst
        cases hfound : front.find? (NetioCls.compares path len) with
        | none => rfl
        | some d =>
          rw [hfound] at hfirst
          cases hfirst
          exact absurd hc (hfront c (mem_of_find?_eq_some hfound))
      have hcompare : cls.compares path len = true := by
        subst hpath hlen
        exact serves_compare hserves hempty
      rw [find?_append, hnone, none_or, find?_cons_of_pos hcompare] at hfirst
      cases hfirst
      refine ⟨fun d hd => ?_, hopens, halloc, hempty⟩
      exact Bool.eq_false_iff.mpr (List.find?_eq_none.mp hnone d hd)
    · rintro ⟨hno, hopens, halloc, hempty⟩
      have hcompare : cls.compares path len = true := by
        subst hpath hlen
        exact serves_compare hserves hempty
      have hnone : front.find? (NetioCls.compares path len) = none :=
        List.find?_eq_none.mpr fun d hd => Bool.eq_false_iff.mp (hno d hd)
      refine ⟨cls, hmem, hserves, if openRet cls < 0 then none else some cls, ?_⟩
      rw [openLoop_find, find?_append, hnone, none_or,
        find?_cons_of_pos hcompare]
      dsimp only
      rw [if_pos hopens, if_pos halloc]

/-- The class "flash". -/
def flash : NetioCls := ⟨['f', 'l', 'a', 's', 'h'], true⟩

/-- The class "flashab". -/
def flashab : NetioCls := ⟨['f', 'l', 'a', 's', 'h', 'a', 'b'], true⟩

/-- The class "http". -/
def httpCls : NetioCls := ⟨http, true⟩

/-- The path "https://a" goes to the class "http". -/
theorem netioOpen_dispatches_sample :
    strstr separator (https ++ separator ++ ['a']) = some https.length ∧
      Dispatched [flash, flashab, httpCls] https
        (netioOpen true (fun _ => 0) [flash, flashab, httpCls] (https ++ separator ++ ['a'])) :=
  ⟨by decide, (netioOpen_dispatches_iff true (fun _ => 0) [flash, flashab, httpCls] https ['a']
    (by decide)).mpr ⟨by decide, by decide, by decide, nofun⟩⟩

/-- The path "flash://" opens the class "flashab" if that is registered first, and with
"https" behind it the path "flasx://https" opens the class "flash". -/
theorem netioOpen_mistakes :
    (netioOpen true (fun _ => 0) [flashab, flash] (flash.name ++ separator)).map
        Opened.calls = some [flashab] ∧
      ¬Dispatched [flashab, flash] flash.name
        (netioOpen true (fun _ => 0) [flashab, flash] (flash.name ++ separator)) ∧
      (netioOpen true (fun _ => 0) [flash]
        (['f', 'l', 'a', 's', 'x'] ++ separator ++ https)).map Opened.calls = some [flash] ∧
      ¬Dispatched [flash] ['f', 'l', 'a', 's', 'x'] (netioOpen true (fun _ => 0) [flash]
        (['f', 'l', 'a', 's', 'x'] ++ separator ++ https)) := by
  refine ⟨rfl, ?_, rfl, ?_⟩
  · rintro (⟨cls, -, hserves, io, hcalls⟩ | ⟨-, hcalls⟩)
    · cases hcalls
      exact absurd hserves (by decide)
    · cases hcalls
  · rintro (⟨cls, -, hserves, io, hcalls⟩ | ⟨-, hcalls⟩)
    · cases hcalls
      exact absurd hserves (by decide)
    · cases hcalls

end PineVoice.Netio
