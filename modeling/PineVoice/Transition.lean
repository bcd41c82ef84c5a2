import Mathlib.Data.List.Basic

/-!
# Runs of a step function

A system is a function that says what a step does in a state, or that it cannot be taken.
What every step keeps holds along every run. The condition on a step may depend on the
state before it, so that a result can be restricted to the runs whose steps all meet it.
-/

namespace PineVoice.Transition

variable {σ α : Type*} {step : σ → α → Option σ}

/-- A run of steps, each of which can be taken. -/
def run (step : σ → α → Option σ) (s : σ) : List α → Option σ
  | [] => some s
  | a :: as => (step s a).bind fun s' => run step s' as

/-- Every step of a run meets a condition on the state before it. -/
def Along (step : σ → α → Option σ) (ok : σ → α → Prop) (s : σ) : List α → Prop
  | [] => True
  | a :: as => ok s a ∧ ∀ s', step s a = some s' → Along step ok s' as

instance decidableAlong {ok : σ → α → Prop} [∀ s a, Decidable (ok s a)] :
    ∀ (as : List α) (s : σ), Decidable (Along step ok s as)
  | [], _ => isTrue trivial
  | a :: as, s =>
    match hstep : step s a with
    | none => decidable_of_iff (ok s a)
        ⟨fun h => ⟨h, fun s' hs => by rw [hstep] at hs; cases hs⟩, And.left⟩
    | some s' =>
      have : Decidable (Along step ok s' as) := decidableAlong as s'
      decidable_of_iff (ok s a ∧ Along step ok s' as)
        ⟨fun h => ⟨h.1, fun t ht => by rw [hstep] at ht; cases ht; exact h.2⟩,
          fun h => ⟨h.1, h.2 s' hstep⟩⟩

/-- What a run returns can be tested. -/
instance decidableExistsSome {o : Option σ} {p : σ → Prop} [DecidablePred p] :
    Decidable (∃ s, o = some s ∧ p s) :=
  inferInstanceAs (Decidable (∃ s ∈ o, p s))

/-- A result that passes a test, and what holds of every such result. -/
theorem exists_some_and {o : Option σ} {p q : σ → Prop} (h : ∃ s, o = some s ∧ p s)
    (hq : ∀ s, o = some s → p s → q s) : ∃ s, o = some s ∧ p s ∧ q s := by
  obtain ⟨s, hs, hp⟩ := h
  exact ⟨s, hs, hp, hq s hs hp⟩

/-- What every step keeps holds along every run. -/
theorem run_keeps {P : σ → Prop} {ok : σ → α → Prop}
    (hstep : ∀ s a s', ok s a → P s → step s a = some s' → P s') :
    ∀ {as : List α} {s s' : σ}, Along step ok s as → P s → run step s as = some s' → P s'
  | [], _, _, _, hp, hrun => Option.some.inj hrun ▸ hp
  | a :: as, s, s', hok, hp, hrun => by
    cases hs : step s a with
    | none =>
      rw [run, hs] at hrun
      cases hrun
    | some t =>
      rw [run, hs] at hrun
      exact run_keeps hstep (hok.2 t hs) (hstep s a t hok.1 hp hs) hrun

/-- If every step that meets the condition can be taken and keeps what holds, then so can every
run whose steps all meet it. -/
theorem run_returns {P : σ → Prop} {ok : σ → α → Prop}
    (hstep : ∀ s a, ok s a → P s → ∃ s', step s a = some s' ∧ P s') :
    ∀ {as : List α} {s : σ}, Along step ok s as → P s → ∃ s', run step s as = some s' ∧ P s'
  | [], s, _, hp => ⟨s, rfl, hp⟩
  | a :: as, s, hok, hp => by
    rcases hstep s a hok.1 hp with ⟨t, hs, ht⟩
    rcases run_returns hstep (hok.2 t hs) ht with ⟨s', hrun, hp'⟩
    exact ⟨s', by rw [run, hs, Option.bind_some, hrun], hp'⟩

/-- Without a condition every run meets it. -/
theorem along_true : ∀ (as : List α) (s : σ), Along step (fun _ _ => True) s as
  | [], _ => trivial
  | _ :: as, _ => ⟨trivial, fun s' _ => along_true as s'⟩

/-- A condition that does not depend on the state. -/
theorem along_of_forall_mem {ok : α → Prop} :
    ∀ {as : List α} {s : σ}, (∀ a ∈ as, ok a) → Along step (fun _ a => ok a) s as
  | [], _, _ => trivial
  | a :: _, _, h =>
    ⟨h a List.mem_cons_self, fun _ _ => along_of_forall_mem fun b hb =>
      h b (List.mem_cons_of_mem a hb)⟩

/-- Along a run whose steps meet a condition, what is kept implies another condition. -/
theorem along_keeps {P : σ → Prop} {ok good : σ → α → Prop}
    (hstep : ∀ s a s', ok s a → P s → step s a = some s' → P s')
    (hgood : ∀ s a, ok s a → P s → good s a) :
    ∀ {as : List α} {s : σ}, Along step ok s as → P s → Along step good s as
  | [], _, _, _ => trivial
  | a :: _, s, hok, hp =>
    ⟨hgood s a hok.1 hp, fun s' hs => along_keeps hstep hgood (hok.2 s' hs)
      (hstep s a s' hok.1 hp hs)⟩

/-- One run after another. -/
theorem run_append : ∀ (as bs : List α) (s : σ),
    run step s (as ++ bs) = (run step s as).bind fun s' => run step s' bs
  | [], _, _ => rfl
  | a :: as, bs, s => by
    rw [List.cons_append, run, run, Option.bind_assoc]
    exact Option.bind_congr fun s' _ => run_append as bs s'

/-- What the steps that meet a condition keep, and the others break, holds after every step of a
run if and only if all its steps meet the condition. -/
theorem along_good_iff {P good : σ → Prop} {ok : σ → α → Prop} (hgood : ∀ s, P s → good s)
    (hkeeps : ∀ s a s', ok s a → P s → step s a = some s' → P s')
    (hbreaks : ∀ s a s', ¬ok s a → P s → step s a = some s' → ¬good s') :
    ∀ {as : List α} {s s' : σ}, P s → run step s as = some s' →
      (Along step (fun s a => ∀ s', step s a = some s' → good s') s as ↔ Along step ok s as)
  | [], _, _, _, _ => Iff.rfl
  | a :: as, s, s', hp, hrun => by
    cases hs : step s a with
    | none =>
      rw [run, hs] at hrun
      cases hrun
    | some t =>
      rw [run, hs] at hrun
      by_cases hok : ok s a
      · have ht := hkeeps s a t hok hp hs
        have hrest := along_good_iff hgood hkeeps hbreaks ht hrun
        simp [Along, hs, hgood t ht, hok, hrest]
      · have hbad := hbreaks s a t hok hp hs
        simp [Along, hs, hbad, hok]

section Calls

variable {τ β : Type*}

/-- The state and the results after a list of calls, each of which returns. -/
def calls (call : σ → α → σ × β) (s : σ) : List α → σ × List β
  | [] => (s, [])
  | a :: as => ((calls call (call s a).1 as).1, (call s a).2 :: (calls call (call s a).1 as).2)

/-- A list of calls with their results, as an abstract component allows it. -/
def Allows (spec : τ → α → β → τ → Prop) (t : τ) : List α → List β → τ → Prop
  | [], [], t' => t' = t
  | a :: as, b :: bs, t' => ∃ u, spec t a b u ∧ Allows spec u as bs t'
  | _, _, _ => False

/-- What is simulated call by call is simulated as a whole. -/
theorem calls_allowed {call : σ → α → σ × β} {spec : τ → α → β → τ → Prop} {R : σ → τ → Prop}
    {ok : α → Prop}
    (hcall : ∀ s t a, ok a → R s t → ∃ t', spec t a (call s a).2 t' ∧ R (call s a).1 t') :
    ∀ (as : List α) {s : σ} {t : τ}, (∀ a ∈ as, ok a) → R s t →
      ∃ t', Allows spec t as (calls call s as).2 t' ∧ R (calls call s as).1 t'
  | [], _, t, _, hR => ⟨t, rfl, hR⟩
  | a :: as, s, t, hok, hR => by
    rcases hcall s t a (hok a List.mem_cons_self) hR with ⟨u, hspec, hu⟩
    rcases calls_allowed hcall as (fun b hb => hok b (List.mem_cons_of_mem a hb)) hu with
      ⟨t', hrest, ht'⟩
    exact ⟨t', ⟨u, hspec, hrest⟩, ht'⟩

end Calls

end PineVoice.Transition
