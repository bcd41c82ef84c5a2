import Mathlib.Tactic.Ring
import PineVoice.Mtb

/-!
# The search for the partition table

`mtb_find_addr` steps over a range by the block size and stops at the first header of a table, or
of a boot table of version 1 with a table behind it. A range that the block size does not divide
counts as found. The table is an array of the program (`CONFIG_IMTB_CONST_ARRAY`), so headers are
read where they are. Addresses are an `unsigned long` of `w` bits.
-/

namespace PineVoice.Mtb

open NorFlash

/-- `MTB_MAGIC`. -/
def mtbMagic : ℕ := 0x74427251

/-- `BMTB_MAGIC`. -/
def bmtbMagic : ℕ := 0x74427254

section Header

variable (mem : Mem) (addr : ℕ)

/-- Two bytes of a header. -/
def headLe16 (off : ℕ) : ℕ := (mem (addr+off)).toNat+256*(mem (addr+off+1)).toNat

/-- `magic` of a `mhead_tb`. -/
def headMagic : ℕ := le32 mem addr

/-- `version` of a `mhead_tb`. -/
def headVersion : ℕ := headLe16 mem addr 4

/-- `size` of a `mhead_tb`. -/
def headSize : ℕ := headLe16 mem addr 14

end Header

/-- `mtb_t` with the fields that are set. -/
structure MtbState where
  /-- `using_addr`. -/
  usingAddr : ℕ
  /-- `prim_addr`. -/
  primAddr : ℕ
  /-- `i_offset`. -/
  iOffset : ℕ
  /-- `version`. -/
  version : ℕ
deriving DecidableEq

section Model

variable (w : ℕ) (mem : Mem) (flashEnd blockSize : ℕ)

/-- The body of the loop at an address: what it writes before it stops. -/
def mtbLook (addr : ℕ) : Option MtbState :=
  let iAddr := (addr+headSize mem addr) % 2^w
  if headMagic mem addr = bmtbMagic ∧ headVersion mem addr = 1 ∧ iAddr < flashEnd ∧
      headMagic mem iAddr = mtbMagic then
    some ⟨iAddr, addr, headSize mem addr, 1⟩
  else if headMagic mem addr = mtbMagic then some ⟨addr, addr, 0, headVersion mem addr⟩
  else none

/-- The loop, with a bound on its iterations; its last address and what was found there. -/
def mtbFindLoop : ℕ → ℕ → Option (ℕ × Option MtbState)
  | 0, _ => none
  | fuel+1, addr =>
    if addr < flashEnd then
      match mtbLook w mem flashEnd addr with
      | some found => some (addr, some found)
      | none => mtbFindLoop fuel ((addr+blockSize) % 2^w)
    else some (addr, none)

/-- `mtb_find_addr`. -/
def mtbFindAddr (fuel : ℕ) (mtb : MtbState) (findStart : ℕ) : Option (ℤ × MtbState) :=
  (mtbFindLoop w mem flashEnd blockSize fuel findStart).map fun r =>
    (if r.1 = flashEnd then -1 else 0, r.2.getD mtb)

end Model

section Spec

variable (mem : Mem) (findStart findEnd blockSize : ℕ)

/-- An address holds a table, or a boot table of version 1 that a table follows in range. -/
def HoldsTable (addr : ℕ) : Prop :=
  headMagic mem addr = mtbMagic ∨
    headMagic mem addr = bmtbMagic ∧ headVersion mem addr = 1 ∧
      addr+headSize mem addr < findEnd ∧ headMagic mem (addr+headSize mem addr) = mtbMagic

/-- The version that such an address gives. -/
def tableVersion (addr : ℕ) : ℕ :=
  if headMagic mem addr = mtbMagic then headVersion mem addr else 1

/-- The first block of the range that holds a table. -/
def IsFirst (i : ℕ) : Prop :=
  findStart+i*blockSize < findEnd ∧ HoldsTable mem findEnd (findStart+i*blockSize) ∧
    ∀ j < i, ¬HoldsTable mem findEnd (findStart+j*blockSize)

/-- Zero if and only if some block of the range holds a table, and then the address and the
version of the first one. -/
def RightResult (r : ℤ × MtbState) : Prop :=
  (r.1 = 0 ↔ ∃ i, findStart+i*blockSize < findEnd ∧
    HoldsTable mem findEnd (findStart+i*blockSize)) ∧
  (r.1 = 0 → ∃ i, IsFirst mem findStart findEnd blockSize i ∧
    r.2.primAddr = findStart+i*blockSize ∧
    r.2.version = tableVersion mem (findStart+i*blockSize))

/-- The search returns, with the right result. -/
def FindsFirst (w : ℕ) (mtb : MtbState) : Prop :=
  ∃ fuel r, mtbFindAddr w mem findEnd blockSize fuel mtb findStart = some r ∧
    RightResult mem findStart findEnd blockSize r

end Spec

section Loop

variable {w : ℕ} {mem : Mem} {flashEnd blockSize : ℕ}

/-- The addresses that the loop takes. -/
def walk (w blockSize findStart n : ℕ) : ℕ := (findStart+n*blockSize) % 2^w

/-- The walk starts at the start of the range. -/
theorem walk_zero (blockSize : ℕ) {findStart : ℕ} (h : findStart < 2^w) :
    walk w blockSize findStart 0 = findStart := by
  rw [walk, zero_mul, add_zero, Nat.mod_eq_of_lt h]

/-- The walk from the next address is the rest of the walk. -/
theorem walk_succ (findStart n : ℕ) :
    walk w blockSize ((findStart+blockSize) % 2^w) n = walk w blockSize findStart (n+1) := by
  rw [walk, Nat.mod_add_mod]
  congr 1
  ring

/-- Up to an address of the walk there is nothing to stop at. -/
def Passes (w : ℕ) (mem : Mem) (flashEnd blockSize findStart n : ℕ) : Prop :=
  ∀ m < n, walk w blockSize findStart m < flashEnd ∧
    mtbLook w mem flashEnd (walk w blockSize findStart m) = none

/-- The loop ends at the first address of the walk that is not below the end or holds a
header. -/
theorem mtbFindLoop_iff {findStart : ℕ} (hstart : findStart < 2^w) {r : ℕ × Option MtbState} :
    (∃ fuel, mtbFindLoop w mem flashEnd blockSize fuel findStart = some r) ↔
      ∃ n, Passes w mem flashEnd blockSize findStart n ∧
        r.1 = walk w blockSize findStart n ∧
        (flashEnd ≤ r.1 ∧ r.2 = none ∨
          r.1 < flashEnd ∧ r.2.isSome ∧ mtbLook w mem flashEnd r.1 = r.2) := by
  constructor
  · rintro ⟨fuel, h⟩
    induction fuel generalizing findStart with
    | zero => cases h
    | succ fuel ih =>
      have hzero := walk_zero blockSize hstart
      rw [mtbFindLoop] at h
      split_ifs at h with hlt
      · cases hlook : mtbLook w mem flashEnd findStart with
        | some found =>
          rw [hlook] at h
          cases h
          exact ⟨0, nofun, hzero.symm, .inr ⟨hlt, rfl, hlook⟩⟩
        | none =>
          rw [hlook] at h
          obtain ⟨n, hpass, haddr, hstop⟩ := ih (Nat.mod_lt _ (Nat.two_pow_pos w)) h
          refine ⟨n+1, fun m hm => ?_, by rw [haddr, walk_succ], hstop⟩
          cases m with
          | zero => rw [hzero]; exact ⟨hlt, hlook⟩
          | succ m =>
            rw [← walk_succ]
            exact hpass m (Nat.lt_of_succ_lt_succ hm)
      · cases h
        exact ⟨0, nofun, hzero.symm, .inl ⟨Nat.le_of_not_lt hlt, rfl⟩⟩
  · rintro ⟨n, hpass, haddr, hstop⟩
    induction n generalizing findStart with
    | zero =>
      rw [walk_zero blockSize hstart] at haddr
      refine ⟨1, ?_⟩
      obtain ⟨addr, found⟩ := r
      subst haddr
      rw [mtbFindLoop]
      rcases hstop with ⟨hle, rfl⟩ | ⟨hlt, hsome, hlook⟩
      · rw [if_neg (not_lt.mpr hle)]
      · obtain ⟨x, rfl⟩ := Option.isSome_iff_exists.mp hsome
        rw [if_pos hlt, hlook]
    | succ n ih =>
      have hfirst := hpass 0 (Nat.succ_pos n)
      rw [walk_zero blockSize hstart] at hfirst
      obtain ⟨fuel, hloop⟩ := ih (Nat.mod_lt (findStart+blockSize) (Nat.two_pow_pos w))
        (fun m hm => by rw [walk_succ]; exact hpass (m+1) (Nat.succ_lt_succ hm))
        (by rw [walk_succ, haddr])
      refine ⟨fuel+1, ?_⟩
      rw [mtbFindLoop, if_pos hfirst.1, hfirst.2]
      exact hloop

/-- The result does not depend on the bound. -/
theorem mtbFindLoop_unique {fuel fuel' findStart : ℕ} {r r' : ℕ × Option MtbState}
    (h : mtbFindLoop w mem flashEnd blockSize fuel findStart = some r)
    (h' : mtbFindLoop w mem flashEnd blockSize fuel' findStart = some r') : r = r' := by
  induction fuel generalizing fuel' findStart with
  | zero => cases h
  | succ fuel ih =>
    cases fuel' with
    | zero => cases h'
    | succ fuel' =>
      rw [mtbFindLoop] at h h'
      split_ifs at h h' with hlt
      · cases hlook : mtbLook w mem flashEnd findStart with
        | some found =>
          rw [hlook] at h h'
          exact Option.some.inj (h.symm.trans h')
        | none =>
          rw [hlook] at h h'
          exact ih h h'
      · exact Option.some.inj (h.symm.trans h')

end Loop

section Range

variable {w : ℕ} {mem : Mem} {findStart findEnd blockSize n : ℕ}

/-- Below the end an address of the range is one of the walk. -/
theorem walk_eq (hend : findEnd < 2^w) (h : findStart+n*blockSize < findEnd) :
    walk w blockSize findStart n = findStart+n*blockSize := Nat.mod_eq_of_lt (h.trans hend)

/-- The loop stops at an address that holds a table, and takes its version. -/
theorem mtbLook_of_holdsTable (hend : findEnd < 2^w) {addr : ℕ}
    (h : HoldsTable mem findEnd addr) :
    ∃ x, mtbLook w mem findEnd addr = some x ∧ x.primAddr = addr ∧
      x.version = tableVersion mem addr := by
  rcases h with hmagic | ⟨hmagic, hversion, hrange, hmagic'⟩
  · have hver : tableVersion mem addr = headVersion mem addr := if_pos hmagic
    refine ⟨⟨addr, addr, 0, headVersion mem addr⟩, ?_, rfl, hver.symm⟩
    rw [mtbLook, if_neg fun h => absurd (hmagic.symm.trans h.1) (by decide), if_pos hmagic]
  · have hwrap : (addr+headSize mem addr) % 2^w = addr+headSize mem addr :=
      Nat.mod_eq_of_lt (hrange.trans hend)
    have hver : tableVersion mem addr = 1 :=
      if_neg fun h => absurd (hmagic.symm.trans h) (by decide)
    refine ⟨⟨addr+headSize mem addr, addr, headSize mem addr, 1⟩, ?_, rfl, hver.symm⟩
    rw [mtbLook, hwrap, if_pos ⟨hmagic, hversion, hrange, hmagic'⟩]

/-- What the loop has passed holds no table. -/
theorem Passes.not_holdsTable (hend : findEnd < 2^w)
    (h : Passes w mem findEnd blockSize findStart n) {i : ℕ} (hi : i < n)
    (hrange : findStart+i*blockSize < findEnd) :
    ¬HoldsTable mem findEnd (findStart+i*blockSize) := by
  intro hholds
  obtain ⟨x, hx, -⟩ := mtbLook_of_holdsTable hend hholds
  have hnone := (h i hi).2
  rw [walk_eq hend hrange, hx] at hnone
  cases hnone

/-- Later blocks have higher addresses. -/
theorem add_mul_le (findStart blockSize : ℕ) {i j : ℕ} (h : i ≤ j) :
    findStart+i*blockSize ≤ findStart+j*blockSize :=
  Nat.add_le_add_left (Nat.mul_le_mul_right blockSize h) findStart

end Range

/-- The walk comes to the end of the range exactly, or to a block of the range that holds a
table, before anything else makes the loop stop. -/
def Searchable (w : ℕ) (mem : Mem) (findStart findEnd blockSize : ℕ) : Prop :=
  ∃ n, Passes w mem findEnd blockSize findStart n ∧
    (walk w blockSize findStart n = findEnd ∨
      findStart+n*blockSize < findEnd ∧ HoldsTable mem findEnd (findStart+n*blockSize))

section Result

variable {w : ℕ} {mem : Mem} {findStart findEnd blockSize n : ℕ} {mtb : MtbState}

/-- The range was passed without a stop. -/
theorem rightResult_end_iff (hend : findEnd < 2^w)
    (hpass : Passes w mem findEnd blockSize findStart n)
    (hle : findEnd ≤ walk w blockSize findStart n) :
    RightResult mem findStart findEnd blockSize
        (if walk w blockSize findStart n = findEnd then -1 else 0, mtb) ↔
      walk w blockSize findStart n = findEnd := by
  have hno : ¬∃ i, findStart+i*blockSize < findEnd ∧
      HoldsTable mem findEnd (findStart+i*blockSize) := by
    rintro ⟨i, hrange, hholds⟩
    refine hpass.not_holdsTable hend ?_ hrange hholds
    by_contra hge
    have hlast := lt_of_le_of_lt (add_mul_le _ _ (Nat.le_of_not_lt hge)) hrange
    rw [walk_eq hend hlast] at hle
    omega
  by_cases hat : walk w blockSize findStart n = findEnd
  · refine iff_of_true ?_ hat
    rw [if_pos hat]
    exact ⟨iff_of_false (show (-1 : ℤ) ≠ 0 by decide) hno,
      fun h => absurd h (show (-1 : ℤ) ≠ 0 by decide)⟩
  · refine iff_of_false (fun h => hno (h.1.mp ?_)) hat
    rw [if_neg hat]

/-- The loop stopped at a header. -/
theorem rightResult_found_iff (hend : findEnd < 2^w)
    (hpass : Passes w mem findEnd blockSize findStart n) {x : MtbState}
    (hlook : mtbLook w mem findEnd (walk w blockSize findStart n) = some x)
    (hprim : x.primAddr = walk w blockSize findStart n) :
    RightResult mem findStart findEnd blockSize (0, x) ↔
      findStart+n*blockSize < findEnd ∧ HoldsTable mem findEnd (findStart+n*blockSize) := by
  constructor
  · rintro ⟨-, hfirst⟩
    obtain ⟨i, ⟨hrange, hholds, -⟩, haddr, -⟩ := hfirst rfl
    have hge : n ≤ i := by
      by_contra hi
      exact hpass.not_holdsTable hend (Nat.lt_of_not_le hi) hrange hholds
    have hin := lt_of_le_of_lt (add_mul_le _ _ hge) hrange
    have heq : findStart+n*blockSize = findStart+i*blockSize :=
      (walk_eq hend hin).symm.trans (hprim.symm.trans haddr)
    exact ⟨hin, heq ▸ hholds⟩
  · rintro ⟨hin, hholds⟩
    obtain ⟨y, hy, -, hversion⟩ := mtbLook_of_holdsTable hend hholds
    rw [walk_eq hend hin] at hlook hprim
    cases hlook.symm.trans hy
    refine ⟨iff_of_true rfl ⟨n, hin, hholds⟩, fun _ => ⟨n, ⟨hin, hholds, ?_⟩, hprim, hversion⟩⟩
    exact fun j hj => hpass.not_holdsTable hend hj (lt_of_le_of_lt (add_mul_le _ _ hj.le) hin)

/-- What is found is the address of its header. -/
theorem primAddr_of_mtbLook {addr : ℕ} {x : MtbState} (h : mtbLook w mem findEnd addr = some x) :
    x.primAddr = addr := by
  rw [mtbLook] at h
  split_ifs at h <;> cases h <;> rfl

end Result

/-- For every memory and range, the search returns with the right result if and only if the range
can be searched. -/
theorem mtbFindAddr_iff (w : ℕ) (mem : Mem) (mtb : MtbState) {findStart findEnd : ℕ}
    (hlt : findStart < findEnd) (hend : findEnd < 2^w) (blockSize : ℕ) :
    FindsFirst mem findStart findEnd blockSize w mtb ↔
      Searchable w mem findStart findEnd blockSize := by
  have hstart : findStart < 2^w := hlt.trans hend
  constructor
  · rintro ⟨fuel, r, hfind, hright⟩
    obtain ⟨⟨addr, found⟩, hloop, rfl⟩ := Option.map_eq_some_iff.mp hfind
    obtain ⟨n, hpass, haddr, hstop⟩ := (mtbFindLoop_iff hstart).mp ⟨fuel, hloop⟩
    subst haddr
    refine ⟨n, hpass, ?_⟩
    rcases hstop with ⟨hle, rfl⟩ | ⟨hbelow, hsome, hlook⟩
    · exact .inl ((rightResult_end_iff hend hpass hle).mp hright)
    · obtain ⟨x, rfl⟩ := Option.isSome_iff_exists.mp hsome
      rw [if_neg hbelow.ne] at hright
      exact .inr ((rightResult_found_iff hend hpass hlook (primAddr_of_mtbLook hlook)).mp hright)
  · rintro ⟨n, hpass, hat | ⟨hin, hholds⟩⟩
    · obtain ⟨fuel, hloop⟩ := (mtbFindLoop_iff (r := (_, none)) hstart).mpr
        ⟨n, hpass, rfl, .inl ⟨hat.ge, rfl⟩⟩
      refine ⟨fuel, _, Option.map_eq_some_iff.mpr ⟨_, hloop, rfl⟩, ?_⟩
      exact (rightResult_end_iff hend hpass hat.ge).mpr hat
    · have hwalk := walk_eq hend hin
      obtain ⟨x, hx, hprim, -⟩ := mtbLook_of_holdsTable hend hholds
      rw [← hwalk] at hx hprim
      have hbelow : walk w blockSize findStart n < findEnd := hwalk.trans_lt hin
      obtain ⟨fuel, hloop⟩ :=
        (mtbFindLoop_iff (r := (walk w blockSize findStart n, some x)) hstart).mpr
          ⟨n, hpass, rfl, .inr ⟨hbelow, rfl, hx⟩⟩
      refine ⟨fuel, _, Option.map_eq_some_iff.mpr ⟨_, hloop, rfl⟩, ?_⟩
      rw [if_neg hbelow.ne]
      exact (rightResult_found_iff hend hpass hx hprim).mpr ⟨hin, hholds⟩

section NoWrap

variable {w : ℕ} {mem : Mem} {findStart findEnd blockSize : ℕ}

/-- Without a boot table at the end of the address space, the loop stops only at tables. -/
theorem holdsTable_of_mtbLook {addr : ℕ} {x : MtbState} (hsize : addr+headSize mem addr < 2^w)
    (h : mtbLook w mem findEnd addr = some x) : HoldsTable mem findEnd addr := by
  rw [mtbLook, Nat.mod_eq_of_lt hsize] at h
  by_cases htable : headMagic mem addr = mtbMagic
  · exact .inl htable
  · rw [if_neg htable] at h
    exact .inr (Option.ite_none_right_eq_some.mp h).1

/-- The size of a header has sixteen bits. -/
theorem headSize_lt (mem : Mem) (addr : ℕ) : headSize mem addr < 65536 := by
  have hlow := (mem (addr+14)).toNat_lt
  have hhigh := (mem (addr+14+1)).toNat_lt
  rw [headSize, headLe16]
  omega

/-- The walk leaves the range before it comes to the end of the address space. -/
theorem Passes.add_mul_lt (hlt : findStart < findEnd) (hwrap : findEnd+blockSize ≤ 2^w) {n : ℕ}
    (h : Passes w mem findEnd blockSize findStart n) : findStart+n*blockSize < 2^w := by
  induction n with
  | zero => omega
  | succ n ih =>
    have hprev := ih fun m hm => h m (Nat.lt_succ_of_lt hm)
    have hbelow := (h n (Nat.lt_succ_self n)).1
    rw [walk, Nat.mod_eq_of_lt hprev] at hbelow
    rw [Nat.succ_mul]
    omega

/-- Away from the end of the address space, a range can be searched if and only if it has a
table, or the block size divides it. -/
theorem searchable_iff (hlt : findStart < findEnd) (hblock : findEnd+blockSize ≤ 2^w)
    (hboot : findEnd+65536 ≤ 2^w) :
    Searchable w mem findStart findEnd blockSize ↔
      (∃ i, findStart+i*blockSize < findEnd ∧
        HoldsTable mem findEnd (findStart+i*blockSize)) ∨
      ∃ n, findStart+n*blockSize = findEnd := by
  have hend : findEnd < 2^w := by omega
  constructor
  · rintro ⟨n, hpass, hat | hfound⟩
    · exact .inr ⟨n, (Nat.mod_eq_of_lt (hpass.add_mul_lt hlt hblock)).symm.trans hat⟩
    · exact .inl ⟨n, hfound⟩
  · intro h
    have hpass : ∀ n, (∀ m < n, findStart+m*blockSize < findEnd ∧
        ¬HoldsTable mem findEnd (findStart+m*blockSize)) →
        Passes w mem findEnd blockSize findStart n := by
      intro n hno m hm
      obtain ⟨hrange, htable⟩ := hno m hm
      have hsize := headSize_lt mem (findStart+m*blockSize)
      rw [walk_eq hend hrange]
      refine ⟨hrange, Option.eq_none_iff_forall_ne_some.mpr fun x hlook => htable ?_⟩
      exact holdsTable_of_mtbLook (by omega) hlook
    by_cases hsome : ∃ i, findStart+i*blockSize < findEnd ∧
        HoldsTable mem findEnd (findStart+i*blockSize)
    · classical
      have hin := (Nat.find_spec hsome).1
      refine ⟨Nat.find hsome, hpass _ fun m hm => ?_, .inr (Nat.find_spec hsome)⟩
      have hrange := lt_of_le_of_lt (add_mul_le findStart blockSize hm.le) hin
      exact ⟨hrange, fun htable => Nat.find_min hsome hm ⟨hrange, htable⟩⟩
    · obtain ⟨n, hat⟩ := h.resolve_left hsome
      have hpos : 0 < blockSize := pos_of_ne_zero fun hzero => by
        rw [hzero] at hat
        omega
      refine ⟨n, hpass n fun m hm => ?_, .inl ?_⟩
      · have hrange : findStart+m*blockSize < findEnd :=
          hat ▸ Nat.add_lt_add_left (Nat.mul_lt_mul_of_pos_right hm hpos) findStart
        exact ⟨hrange, fun htable => hsome ⟨m, hrange, htable⟩⟩
      · rw [walk, hat, Nat.mod_eq_of_lt hend]

end NoWrap

section Samples

/-- A boot table of 64 bytes at address 64 with a table behind it, and zeroes elsewhere. -/
def bootFlash : Mem := fun addr =>
  (List.replicate 64 (0 : UInt8) ++
    [0x54, 0x72, 0x42, 0x74, 1, 0, 0, 0, 0, 0, 0, 0, 0, 0, 64, 0] ++ List.replicate 48 0 ++
    [0x51, 0x72, 0x42, 0x74, 4, 0]).getD addr 0

/-- `g_mtb` at the start. -/
def initialMtb : MtbState := ⟨0, 0, 0, 0⟩

/-- The boot table is found in the second block. -/
theorem mtbFindAddr_sample : FindsFirst bootFlash 0 200 64 32 initialMtb := by
  refine (mtbFindAddr_iff 32 bootFlash initialMtb (by decide) (by decide) 64).mpr
    ⟨1, fun m hm => ?_, .inr ⟨by decide, .inr (by decide)⟩⟩
  obtain rfl : m = 0 := by omega
  exact ⟨by decide, by decide⟩

/-- The end of the range lies between two blocks: nothing is found and zero is returned. -/
theorem mtbFindAddr_overshoots :
    mtbFindAddr 32 (fun _ => 0) 100 64 3 initialMtb 0 = some (0, initialMtb) ∧
      (∀ addr, ¬HoldsTable (fun _ => 0) 100 addr) ∧
      ¬FindsFirst (fun _ => 0) 0 100 64 32 initialMtb := by
  have hno : ∀ addr, ¬HoldsTable (fun _ => 0) 100 addr := by
    have hzero (addr : ℕ) : headMagic (fun _ => 0) addr = 0 := rfl
    rintro addr (hmagic | ⟨hmagic, -⟩)
    · exact absurd ((hzero addr).symm.trans hmagic) (by decide)
    · exact absurd ((hzero addr).symm.trans hmagic) (by decide)
  have hloop : mtbFindLoop 32 (fun _ => 0) 100 64 3 0 = some (128, none) := by decide
  refine ⟨by decide, hno, ?_⟩
  rintro ⟨fuel, r, hfind, hright⟩
  obtain ⟨s, hs, rfl⟩ := Option.map_eq_some_iff.mp hfind
  obtain rfl := mtbFindLoop_unique hs hloop
  obtain ⟨i, -, htable⟩ := hright.1.mp rfl
  exact hno _ htable

end Samples

end PineVoice.Mtb
