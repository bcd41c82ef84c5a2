import Mathlib.Tactic

/-!
# The console looks a command up

`proc_onecmd` looks the first word of a command up. If it has an extension, every command whose name
begins with the part before the dot is taken for the one that is named.
-/

namespace PineVoice.Cli

open List

/-- `struct cli_command`. -/
structure Command where
  /-- `name`. -/
  name : List UInt8
  /-- `function`, as an address. -/
  function : ℕ

/-- `lookup_command` in the registered commands: `strncmp` compares the first characters. -/
def lookupCommand (cmds : List Command) (name : List UInt8) (len : ℕ) : Option Command :=
  cmds.find? fun cmd => if len ≠ 0 then cmd.name.take len = name.take len else cmd.name = name

/-- The error codes of `proc_onecmd`. -/
inductive CliErr where
  | invalid
  | cmdnotexist

/-- The place of the first dot of a word, or 0. -/
def dotOf (w : List UInt8) : ℕ := if 46 ∈ w then w.idxOf 46 else 0

/-- `proc_onecmd`: the command whose function is called, or an error. -/
def procOnecmd (cmds : List Command) : List (List UInt8) → Except CliErr Command
  | [] => .error .invalid
  | w :: _ =>
    match lookupCommand cmds w (dotOf w) with
    | none => .error .cmdnotexist
    | some cmd => .ok cmd

/-- The name that a word stands for. -/
def named (w : List UInt8) : List UInt8 := if 0 < dotOf w then w.take (dotOf w) else w

/-- A command is taken if its name begins with the name before the dot. -/
theorem take_eq_iff {w : List UInt8} (name : List UInt8) :
    name.take (dotOf w) = w.take (dotOf w) ↔ w.take (dotOf w) <+: name := by
  have hlen : (w.take (dotOf w)).length = dotOf w := by
    rw [length_take, dotOf]
    split
    · exact Nat.min_eq_left idxOf_le_length
    · exact Nat.zero_min _
  rw [prefix_iff_eq_take, hlen, eq_comm]

/-- A word runs just the command that it names, exactly when any command whose name goes on behind
the name before the dot is registered after one with this name. -/
theorem proc_onecmd_iff (cmds : List Command) (w : List UInt8) (args : List (List UInt8)) :
    ((∀ cmd, procOnecmd cmds (w :: args) = .ok cmd → cmd.name = named w) ∧
      ((∃ cmd ∈ cmds, cmd.name = named w) → ∃ cmd, procOnecmd cmds (w :: args) = .ok cmd)) ↔
    (0 < dotOf w → ∀ pre cmd post, cmds = pre ++ cmd :: post → named w <+: cmd.name →
      ∃ cmd' ∈ pre ++ [cmd], cmd'.name = named w) := by
  have hproc : ∀ cmd, procOnecmd cmds (w :: args) = .ok cmd ↔
      lookupCommand cmds w (dotOf w) = some cmd := by
    intro cmd
    rw [procOnecmd]
    cases lookupCommand cmds w (dotOf w) with
    | none => exact iff_of_false nofun nofun
    | some found => rw [Except.ok.injEq, Option.some.injEq]
  simp only [hproc, lookupCommand, named]
  by_cases hdot : 0 < dotOf w
  · simp only [hdot, hdot.ne', ne_eq, not_false_eq_true, if_true, take_eq_iff, true_imp_iff]
    constructor
    · rintro ⟨hname, -⟩ pre cmd post rfl hcmd
      cases hfind : pre.find? fun cmd => w.take (dotOf w) <+: cmd.name with
      | none => exact ⟨cmd, by simp, hname cmd (by simp [hfind, hcmd])⟩
      | some d =>
        exact ⟨d, mem_append_left _ (mem_of_find?_eq_some hfind), hname d (by
          rw [find?_append, hfind]
          rfl)⟩
    · intro hcond
      refine ⟨fun cmd hfind => ?_, ?_⟩
      · obtain ⟨hcmd, pre, post, rfl, hpre⟩ := find?_eq_some_iff_append.mp hfind
        obtain ⟨d, hd, hname⟩ := hcond pre cmd post rfl (by simpa using hcmd)
        rcases mem_append.mp hd with hd | hd
        · simpa [hname] using hpre d hd
        · rwa [mem_singleton.mp hd] at hname
      · rintro ⟨cmd, hmem, hname⟩
        rw [← Option.isSome_iff_exists, find?_isSome]
        exact ⟨cmd, hmem, by simp [hname]⟩
  · have h0 := Nat.eq_zero_of_not_pos hdot
    simp only [h0, lt_self_iff_false, false_imp_iff, iff_true]
    refine ⟨fun cmd hfind => by simpa using find?_some hfind, ?_⟩
    rintro ⟨cmd, hmem, hname⟩
    rw [← Option.isSome_iff_exists, find?_isSome]
    exact ⟨cmd, hmem, by simp [hname]⟩

/-- With `foobar` registered before `foo`, the word `foo.x` runs `foobar`. -/
theorem proc_onecmd_extended :
    (procOnecmd [⟨[102, 111, 111, 98, 97, 114], 1⟩, ⟨[102, 111, 111], 2⟩]
      [[102, 111, 111, 46, 120]]) = .ok ⟨[102, 111, 111, 98, 97, 114], 1⟩ ∧
      named [102, 111, 111, 46, 120] = [102, 111, 111] :=
  ⟨rfl, by decide⟩

end PineVoice.Cli
