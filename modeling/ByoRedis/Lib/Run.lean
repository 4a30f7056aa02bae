import Mathlib

/-!
# Lib — runs of a component and the model it refines

A component is a partial step function: a state and an input give the next
state and an output, or nothing where the program would go wrong. A model is
a relation between states, inputs and outputs, so that it can leave open what
the component may choose. `run_simulates` is the one induction behind every
"for every sequence of calls" statement; the inputs a caller promises not to
send are excluded by `Admissible`, in terms of the model alone.
-/

namespace Run

variable {σ τ ι ω : Type}

/-- Feed a list of inputs to the component, collecting the outputs. -/
def run (step : σ → ι → Option (σ × ω)) : σ → List ι → Option (σ × List ω)
  | s, [] => some (s, [])
  | s, i :: is =>
    match step s i with
    | none => none
    | some (s', o) =>
      match run step s' is with
      | none => none
      | some (s'', os) => some (s'', o :: os)

/-- The outputs that the model accepts for a list of inputs. -/
inductive Accepts (spec : τ → ι → ω → τ → Prop) : τ → List ι → List ω → τ → Prop
  | nil (t : τ) : Accepts spec t [] [] t
  | cons {t t' t'' : τ} {i : ι} {o : ω} {is : List ι} {os : List ω} :
      spec t i o t' → Accepts spec t' is os t'' → Accepts spec t (i :: is) (o :: os) t''

/-- Every input of the list keeps the caller's promise `pre` in whatever
model state it is given. -/
def Admissible (spec : τ → ι → ω → τ → Prop) (pre : τ → ι → Prop) : τ → List ι → Prop
  | _, [] => True
  | t, i :: is => pre t i ∧ ∀ o t', spec t i o t' → Admissible spec pre t' is

/-! ## Runs -/

@[simp] theorem run_nil (step : σ → ι → Option (σ × ω)) (s : σ) :
    run step s [] = some (s, []) := rfl

theorem run_cons_some {step : σ → ι → Option (σ × ω)} {s s' s'' : σ} {i : ι} {o : ω}
    {is : List ι} {os : List ω} (h : step s i = some (s', o))
    (hr : run step s' is = some (s'', os)) :
    run step s (i :: is) = some (s'', o :: os) := by
  simp [run, h, hr]

/-- A run of a nonempty list starts with a step that answers. -/
theorem run_cons_inv {step : σ → ι → Option (σ × ω)} {s s'' : σ} {i : ι} {is : List ι}
    {os : List ω} (h : run step s (i :: is) = some (s'', os)) :
    ∃ s' o os', step s i = some (s', o) ∧ run step s' is = some (s'', os') ∧ os = o :: os' := by
  simp only [run] at h
  split at h
  · cases h
  · rename_i s' o hs
    split at h
    · cases h
    · rename_i s2 os' hr
      cases h
      exact ⟨s', o, os', hs, hr, rfl⟩

/-- If a step never fails under an invariant and keeps it, so does a run. -/
theorem run_total {step : σ → ι → Option (σ × ω)} {I : σ → Prop}
    (hstep : ∀ s i, I s → ∃ s' o, step s i = some (s', o) ∧ I s') (is : List ι) :
    ∀ {s : σ}, I s → ∃ s' os, run step s is = some (s', os) ∧ I s' := by
  induction is with
  | nil =>
    intro s hs
    exact ⟨s, [], rfl, hs⟩
  | cons i is ih =>
    intro s hs
    obtain ⟨s1, o, h1, hs1⟩ := hstep s i hs
    obtain ⟨s', os, h2, hs'⟩ := ih hs1
    exact ⟨s', o :: os, run_cons_some h1 h2, hs'⟩

/-- A run that goes on. -/
theorem run_append {step : σ → ι → Option (σ × ω)} {s s' s'' : σ} {is js : List ι}
    {os os' : List ω} (h : run step s is = some (s', os)) (h' : run step s' js = some (s'', os')) :
    run step s (is ++ js) = some (s'', os ++ os') := by
  induction is generalizing s os with
  | nil =>
    cases h
    exact h'
  | cons j is ih =>
    obtain ⟨s₁, o₁, os₁, hj, hrest, rfl⟩ := run_cons_inv h
    exact run_cons_some hj (ih hrest)

/-- A run that goes one step further. -/
theorem run_concat {step : σ → ι → Option (σ × ω)} {s s' s'' : σ} {is : List ι} {os : List ω}
    {i : ι} {o : ω} (h : run step s is = some (s', os)) (hs : step s' i = some (s'', o)) :
    run step s (is ++ [i]) = some (s'', os ++ [o]) :=
  run_append h (run_cons_some hs rfl)

/-- What holds of the start, and of every step with the outputs so far, holds of
every run. -/
theorem run_history {step : σ → ι → Option (σ × ω)} {I : σ → List ω → Prop}
    (hstep : ∀ s os i s' o, I s os → step s i = some (s', o) → I s' (os ++ [o])) {is : List ι} :
    ∀ {s s' : σ} {os os' : List ω}, I s os → run step s is = some (s', os') → I s' (os ++ os') := by
  induction is with
  | nil =>
    intro s s' os os' hI h
    cases h
    rw [List.append_nil]
    exact hI
  | cons i is ih =>
    intro s s' os os' hI h
    obtain ⟨s₁, o, os₁, hs, hr, rfl⟩ := run_cons_inv h
    rw [← List.singleton_append, ← List.append_assoc]
    exact ih (hstep s os i s₁ o hI hs) hr

/-- If a silent step leaves the abstract state as it is, and any other is a step of
the abstract component, a run is one of the abstract component, with the silent
steps left out. -/
theorem run_stutters {κ : Type} {step : σ → ι → Option (σ × Option ω)}
    {step' : τ → κ → Option (τ × ω)} {abs : σ → τ}
    (hsilent : ∀ s i s', step s i = some (s', none) → abs s' = abs s)
    (hseen : ∀ s i s' o, step s i = some (s', some o) → ∃ k, step' (abs s) k = some (abs s', o))
    {is : List ι} : ∀ {s s' : σ} {os : List (Option ω)}, run step s is = some (s', os) →
      ∃ ks, run step' (abs s) ks = some (abs s', os.reduceOption) := by
  induction is with
  | nil =>
    intro s s' os h
    cases h
    exact ⟨[], rfl⟩
  | cons i is ih =>
    intro s s' os h
    obtain ⟨s₁, o, os₁, hs, hr, rfl⟩ := run_cons_inv h
    obtain ⟨ks, hks⟩ := ih hr
    cases o with
    | none =>
      rw [hsilent s i s₁ hs] at hks
      exact ⟨ks, hks⟩
    | some o =>
      obtain ⟨k, hk⟩ := hseen s i s₁ o hs
      exact ⟨k :: ks, run_cons_some hk hks⟩

/-- If every step keeps the invariant, and is paid for out of the budget and what it
brings, so is a run. -/
theorem run_pays {step : σ → ι → Option (σ × ω)} {I : σ → Prop} {budget : σ → Nat}
    {cost gain : ι → Nat}
    (hstep : ∀ s i s' o, I s → step s i = some (s', o) →
      I s' ∧ cost i + budget s' ≤ budget s + gain i) {is : List ι} :
    ∀ {s s' : σ} {os : List ω}, I s → run step s is = some (s', os) →
      I s' ∧ (is.map cost).sum + budget s' ≤ budget s + (is.map gain).sum := by
  induction is with
  | nil =>
    intro s s' os hI h
    cases h
    exact ⟨hI, by simp⟩
  | cons i is ih =>
    intro s s' os hI h
    obtain ⟨s₁, o, os₁, hs, hr, rfl⟩ := run_cons_inv h
    obtain ⟨hI₁, hpay⟩ := hstep s i s₁ o hI hs
    obtain ⟨hI', hrest⟩ := ih hI₁ hr
    refine ⟨hI', ?_⟩
    simp only [List.map_cons, List.sum_cons]
    omega

/-! ## Guarded runs -/

/-- Runs in which every input is allowed in the state it meets. -/
inductive Guarded (step : σ → ι → Option σ) (ok : σ → ι → Prop) : σ → List ι → σ → Prop
  | nil (s : σ) : Guarded step ok s [] s
  | cons {s s' s'' : σ} {i : ι} {is : List ι} (hok : ok s i) (hstep : step s i = some s')
      (hrest : Guarded step ok s' is s'') : Guarded step ok s (i :: is) s''

/-- A guarded run that goes one step further. -/
theorem Guarded.concat {step : σ → ι → Option σ} {ok : σ → ι → Prop} {s s' s'' : σ} {is : List ι}
    {i : ι} (h : Guarded step ok s is s') (hok : ok s' i) (hs : step s' i = some s'') :
    Guarded step ok s (is ++ [i]) s'' := by
  induction h with
  | nil s => exact .cons hok hs (.nil s'')
  | cons hok' hs' _ ih => exact .cons hok' hs' (ih hok hs)

/-- One guarded run behind another. -/
theorem Guarded.append {step : σ → ι → Option σ} {ok : σ → ι → Prop} {s s' s'' : σ} {is js : List ι}
    (h : Guarded step ok s is s') (h' : Guarded step ok s' js s'') :
    Guarded step ok s (is ++ js) s'' := by
  induction h with
  | nil s => exact h'
  | cons hok hs _ ih => exact .cons hok hs (ih h')

/-- If an allowed step never fails under an invariant and keeps it, it holds
at the end of every guarded run. -/
theorem Guarded.invariant {step : σ → ι → Option σ} {ok : σ → ι → Prop} {I : σ → Prop}
    (hstep : ∀ s i, I s → ok s i → ∃ s', step s i = some s' ∧ I s') {s s' : σ} {is : List ι}
    (h : Guarded step ok s is s') : I s → I s' := by
  induction h with
  | nil s => exact id
  | @cons s s₁ s'' i is hok hs _ ih =>
    intro hI
    obtain ⟨s₂, hs₂, hI₂⟩ := hstep s i hI hok
    obtain rfl : s₁ = s₂ := Option.some.inj (hs.symm.trans hs₂)
    exact ih hI₂

/-! ## Acceptance -/

section Acceptance

variable {spec : τ → ι → ω → τ → Prop} {pre : τ → ι → Prop}

theorem Accepts.length_eq {t t' : τ} {is : List ι} {os : List ω}
    (h : Accepts spec t is os t') : os.length = is.length := by
  induction h with
  | nil => rfl
  | cons _ _ ih => simp [ih]

theorem Accepts.append_inv {is js : List ι} :
    ∀ {t t'' : τ} {os : List ω}, Accepts spec t (is ++ js) os t'' →
      ∃ t' os₁ os₂, os = os₁ ++ os₂ ∧ Accepts spec t is os₁ t' ∧ Accepts spec t' js os₂ t'' := by
  induction is with
  | nil =>
    intro t t'' os h
    exact ⟨t, [], os, rfl, .nil t, h⟩
  | cons i is ih =>
    intro t t'' os h
    cases h with
    | cons hs hr =>
      obtain ⟨t', os₁, os₂, rfl, h1, h2⟩ := ih hr
      exact ⟨t', _ :: os₁, os₂, rfl, .cons hs h1, h2⟩

/-- Where the model determines its next state and its output up to `Same`,
two acceptances of one list agree. -/
theorem Accepts.det {Same : ω → ω → Prop}
    (hdet : ∀ t i o o' t₁ t₂, spec t i o t₁ → spec t i o' t₂ → t₁ = t₂ ∧ Same o o')
    {t t₁ : τ} {is : List ι} {os₁ : List ω} (h₁ : Accepts spec t is os₁ t₁) :
    ∀ {os₂ : List ω} {t₂ : τ}, Accepts spec t is os₂ t₂ →
      t₁ = t₂ ∧ List.Forall₂ Same os₁ os₂ := by
  induction h₁ with
  | nil t =>
    intro os₂ t₂ h₂
    cases h₂
    exact ⟨rfl, .nil⟩
  | cons hs _ ih =>
    intro os₂ t₂ h₂
    cases h₂ with
    | cons hs' hr' =>
      obtain ⟨rfl, ho⟩ := hdet _ _ _ _ _ _ hs hs'
      obtain ⟨ht, hos⟩ := ih hr'
      exact ⟨ht, .cons ho hos⟩

/-- A model that is itself a step function accepts exactly its own runs. -/
theorem Accepts.run_eq {step : τ → ι → Option (τ × ω)} {t t' : τ} {is : List ι} {os : List ω}
    (h : Accepts (fun t i o t' => step t i = some (t', o)) t is os t') :
    run step t is = some (t', os) := by
  induction h with
  | nil t => rfl
  | cons hs _ ih => exact run_cons_some hs ih

theorem admissible_append {is js : List ι} :
    ∀ {t : τ}, Admissible spec pre t (is ++ js) ↔
      Admissible spec pre t is ∧
        ∀ os t', Accepts spec t is os t' → Admissible spec pre t' js := by
  induction is with
  | nil =>
    intro t
    constructor
    · intro h
      refine ⟨trivial, ?_⟩
      intro os t' ha
      cases ha
      exact h
    · exact fun h => h.2 [] t (.nil t)
  | cons i is ih =>
    intro t
    constructor
    · rintro ⟨hp, h⟩
      refine ⟨⟨hp, fun o t' hs => (ih.mp (h o t' hs)).1⟩, ?_⟩
      intro os t' ha
      cases ha with
      | cons hs hr => exact (ih.mp (h _ _ hs)).2 _ _ hr
    · rintro ⟨⟨hp, h⟩, hrest⟩
      refine ⟨hp, fun o t' hs => ih.mpr ⟨h o t' hs, ?_⟩⟩
      exact fun os t'' ha => hrest (o :: os) t'' (.cons hs ha)

/-- A promise that does not look at the state. -/
theorem admissible_of_forall {is : List ι} (h : ∀ i ∈ is, ∀ t, pre t i) :
    ∀ t : τ, Admissible spec pre t is := by
  induction is with
  | nil => exact fun _ => trivial
  | cons i is ih =>
    intro t
    refine ⟨h i (by simp) t, ?_⟩
    intro o t' _
    exact ih (fun j hj => h j (by simp [hj])) t'

/-- Component and model in step: related states before the run and after
every input, each step of the component matched by one of the model. -/
inductive Lockstep (step : σ → ι → Option (σ × ω)) (spec : τ → ι → ω → τ → Prop)
    (R : σ → τ → Prop) : σ → τ → List ι → List ω → σ → τ → Prop
  | nil {s : σ} {t : τ} : R s t → Lockstep step spec R s t [] [] s t
  | cons {s s' s'' : σ} {t t' t'' : τ} {i : ι} {o : ω} {is : List ι} {os : List ω} :
      R s t → step s i = some (s', o) → spec t i o t' →
      Lockstep step spec R s' t' is os s'' t'' →
      Lockstep step spec R s t (i :: is) (o :: os) s'' t''

variable {step : σ → ι → Option (σ × ω)} {R : σ → τ → Prop}

theorem Lockstep.run_eq {s s' : σ} {t t' : τ} {is : List ι} {os : List ω}
    (h : Lockstep step spec R s t is os s' t') : run step s is = some (s', os) := by
  induction h with
  | nil _ => rfl
  | cons _ hs _ _ ih => exact run_cons_some hs ih

theorem Lockstep.accepts {s s' : σ} {t t' : τ} {is : List ι} {os : List ω}
    (h : Lockstep step spec R s t is os s' t') : Accepts spec t is os t' := by
  induction h with
  | nil _ => exact .nil _
  | cons _ _ hsp _ ih => exact .cons hsp ih

theorem Lockstep.last {s s' : σ} {t t' : τ} {is : List ι} {os : List ω}
    (h : Lockstep step spec R s t is os s' t') : R s' t' := by
  induction h with
  | nil h => exact h
  | cons _ _ _ _ ih => exact ih

/-- **Forward simulation.** If every admissible input in related states is
answered, accepted and leads to related states again, then component and
model stay in step over every admissible list of inputs. -/
theorem lockstep_of_simulates
    (hstep : ∀ s t i, R s t → pre t i →
      ∃ s' o t', step s i = some (s', o) ∧ spec t i o t' ∧ R s' t') :
    ∀ {is : List ι} {s : σ} {t : τ}, R s t → Admissible spec pre t is →
      ∃ s' os t', Lockstep step spec R s t is os s' t' := by
  intro is
  induction is with
  | nil =>
    intro s t hR _
    exact ⟨s, [], t, .nil hR⟩
  | cons i is ih =>
    intro s t hR ⟨hp, hadm⟩
    obtain ⟨s1, o, t1, hs, hsp, hR1⟩ := hstep s t i hR hp
    obtain ⟨s', os, t', hl⟩ := ih hR1 (hadm o t1 hsp)
    exact ⟨s', o :: os, t', .cons hR hs hsp hl⟩

theorem run_simulates
    (hstep : ∀ s t i, R s t → pre t i →
      ∃ s' o t', step s i = some (s', o) ∧ spec t i o t' ∧ R s' t')
    {is : List ι} {s : σ} {t : τ} (hR : R s t) (hadm : Admissible spec pre t is) :
    ∃ s' os t', run step s is = some (s', os) ∧ Accepts spec t is os t' ∧ R s' t' := by
  obtain ⟨s', os, t', hl⟩ := lockstep_of_simulates hstep hR hadm
  exact ⟨s', os, t', hl.run_eq, hl.accepts, hl.last⟩

end Acceptance

end Run
