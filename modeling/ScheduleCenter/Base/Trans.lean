/-
# Labelled step functions

A system is a partial step function `step : σ → α → Option σ`: in state `s`
the step labelled `a` is enabled if `step s a` is some state. The states
reached by steps that all meet a side condition `ok s a` are `Reach step ok`;
a side condition restricts the labels of a run, the states its steps are
taken in, or both. An invariant is proved once for a step and holds of every
reached state (`Reach.invariant`); a simulation is proved once for a step and
carries over to runs (`Reach.simulate`); a quantity that each step changes by
what comes in and what goes out balances over a run (`run_balance`).

Key definitions: `Trans.Reach`, `Trans.run`, `Trans.guarded`, `Trans.total`, `Trans.emits`,
`Trans.Along`, `Trans.Always`.
Key theorems: `Reach.invariant`, `Reach.trans`, `Reach.of_run`,
`Reach.of_guarded`, `Reach.simulate`, `Reach.eventually`, `run_filter`, `run_balance`, `run_emits`,
`emits_invariant`, `total_eq_zero_iff`,
`always_iff_along`.
-/
import Mathlib.Algebra.BigOperators.Group.List.Basic
import Mathlib.Tactic.Abel

namespace Trans

variable {σ α τ β : Type*}

/-- The states reached from `s₀` by steps that meet `ok`. -/
inductive Reach (step : σ → α → Option σ) (ok : σ → α → Prop) (s₀ : σ) : σ → Prop
  | refl : Reach step ok s₀ s₀
  | tail {s : σ} {a : α} {s' : σ} :
      Reach step ok s₀ s → ok s a → step s a = some s' → Reach step ok s₀ s'

section Reach

variable {step : σ → α → Option σ} {ok : σ → α → Prop} {s₀ s s' : σ}

theorem Reach.single {a : α} (ha : ok s a) (h : step s a = some s') : Reach step ok s s' :=
  .tail .refl ha h

theorem Reach.trans {s₁ : σ} (h₁ : Reach step ok s₀ s₁) (h₂ : Reach step ok s₁ s) :
    Reach step ok s₀ s := by
  induction h₂ with
  | refl => exact h₁
  | tail _ ha hs ih => exact .tail ih ha hs

theorem Reach.mono {ok' : σ → α → Prop} (h : Reach step ok s₀ s) (hok : ∀ s a, ok s a → ok' s a) :
    Reach step ok' s₀ s := by
  induction h with
  | refl => exact .refl
  | tail _ ha hs ih => exact .tail ih (hok _ _ ha) hs

/-- What holds at the start and is kept by every step that meets `ok` holds
of every state reached by such steps. -/
theorem Reach.invariant {I : σ → Prop} (h : Reach step ok s₀ s) (h₀ : I s₀)
    (hI : ∀ s a s', I s → ok s a → step s a = some s' → I s') : I s := by
  induction h with
  | refl => exact h₀
  | tail _ ha hs ih => exact hI _ _ _ ih ha hs

/-- **Progress.** If from every state of `I` that is not final some step stays
in `I` and lowers a measure, a final state is reached. -/
theorem Reach.eventually {I F : σ → Prop} (μ : σ → ℕ)
    (hp : ∀ s, I s → F s ∨ ∃ a s', ok s a ∧ step s a = some s' ∧ I s' ∧ μ s' < μ s) {s : σ} (hs : I s) :
    ∃ s', Reach step ok s s' ∧ F s' := by
  generalize hn : μ s = n
  induction n using Nat.strong_induction_on generalizing s with
  | h n ih =>
    rcases hp s hs with hF | ⟨a, s', ha, hstep, hI, hlt⟩
    · exact ⟨s, .refl, hF⟩
    · obtain ⟨s'', hr, hF⟩ := ih (μ s') (by omega) hI rfl
      exact ⟨s'', (Reach.single ha hstep).trans hr, hF⟩

/-- **Simulation.** If every step from related states is answered by a run of
the other system that ends in related states, every reached state is related
to a reached state. The answer may use that the other state is reached. -/
theorem Reach.simulate {step' : τ → β → Option τ} {ok' : τ → β → Prop} {R : σ → τ → Prop} {t₀ : τ}
    (h : Reach step ok s₀ s) (h₀ : R s₀ t₀)
    (hR : ∀ s a s' t, R s t → Reach step' ok' t₀ t → ok s a → step s a = some s' →
      ∃ t', R s' t' ∧ Reach step' ok' t t') :
    ∃ t, R s t ∧ Reach step' ok' t₀ t := by
  induction h with
  | refl => exact ⟨t₀, h₀, .refl⟩
  | tail _ ha hs ih =>
    obtain ⟨t, hst, ht⟩ := ih
    obtain ⟨t', hst', ht'⟩ := hR _ _ _ t hst ht ha hs
    exact ⟨t', hst', ht.trans ht'⟩

end Reach

/-! ### Runs -/

/-- The state after the steps `as`, if all of them are enabled. -/
def run (step : σ → α → Option σ) : σ → List α → Option σ
  | s, [] => some s
  | s, a :: as => (step s a).bind fun s' => run step s' as

/-- The step function restricted to the steps that meet `ok`. -/
def guarded (step : σ → α → Option σ) (ok : σ → α → Prop) [∀ s a, Decidable (ok s a)] (s : σ) (a : α) :
    Option σ :=
  if ok s a then step s a else none

section Run

variable {step : σ → α → Option σ} {ok : σ → α → Prop} {s s' : σ}

theorem run_cons {a : α} {as : List α} :
    run step s (a :: as) = some s' ↔ ∃ s₁, step s a = some s₁ ∧ run step s₁ as = some s' := by
  simp [run, Option.bind_eq_some_iff]

theorem run_append {bs : List α} : ∀ {as : List α} {s : σ},
    run step s (as ++ bs) = some s' ↔ ∃ s₁, run step s as = some s₁ ∧ run step s₁ bs = some s'
  | [], _ => by simp [run]
  | a :: as, s => by
    rw [List.cons_append, run_cons]
    simp only [run_append, run_cons]
    constructor
    · rintro ⟨s₁, h₁, s₂, h₂, h₃⟩
      exact ⟨s₂, ⟨s₁, h₁, h₂⟩, h₃⟩
    · rintro ⟨s₂, ⟨s₁, h₁, h₂⟩, h₃⟩
      exact ⟨s₁, h₁, s₂, h₂, h₃⟩

theorem Reach.of_run : ∀ {as : List α} {s : σ}, run step s as = some s' →
    Reach step (fun _ _ => True) s s'
  | [], _, h => by cases h; exact .refl
  | _ :: _, _, h => by
    obtain ⟨s₁, h₁, h₂⟩ := run_cons.mp h
    exact (Reach.single trivial h₁).trans (Reach.of_run h₂)

variable [∀ s a, Decidable (ok s a)]

theorem guarded_eq_some {a : α} : guarded step ok s a = some s' ↔ ok s a ∧ step s a = some s' := by
  unfold guarded
  split <;> simp_all

/-- A run of the restricted system is a run whose steps all meet `ok`. -/
theorem Reach.of_guarded : ∀ {as : List α} {s : σ}, run (guarded step ok) s as = some s' →
    Reach step ok s s'
  | [], _, h => by cases h; exact .refl
  | _ :: _, _, h => by
    obtain ⟨s₁, h₁, h₂⟩ := run_cons.mp h
    obtain ⟨ha, hs⟩ := guarded_eq_some.mp h₁
    exact (Reach.single ha hs).trans (Reach.of_guarded h₂)

end Run

/-! ### What a run adds up -/

section Total

variable {M : Type*} [AddCommMonoid M]

/-- The sum of `f` over the steps of a run. -/
def total (step : σ → α → Option σ) (f : σ → α → M) : σ → List α → M
  | _, [] => 0
  | s, a :: as => f s a + ((step s a).map fun s' => total step f s' as).getD 0

variable {step : σ → α → Option σ} {f : σ → α → M}

theorem total_cons {s s₁ : σ} {a : α} {as : List α} (h : step s a = some s₁) :
    total step f s (a :: as) = f s a + total step f s₁ as := by
  simp [total, h]

@[simp]
theorem total_zero : ∀ {as : List α} {s : σ}, total step (fun _ _ => (0 : M)) s as = 0
  | [], _ => rfl
  | a :: as, s => by
    rcases h : step s a with _ | s₁
    · simp [total, h]
    · rw [total_cons h, total_zero, add_zero]

/-- **Balance.** If a step changes `val` by what comes in less what goes out,
a run changes it by the totals. -/
theorem run_balance (val : σ → M) (inn out : σ → α → M) {I : σ → Prop}
    (hI : ∀ s a s', I s → step s a = some s' → I s')
    (hs : ∀ s a s', I s → step s a = some s' → val s' + out s a = val s + inn s a) :
    ∀ {as : List α} {s s' : σ}, I s → run step s as = some s' →
      val s' + total step out s as = val s + total step inn s as
  | [], _, _, _, h => by cases h; simp [total]
  | a :: as, s, s', hs0, h => by
    obtain ⟨s₁, h₁, h₂⟩ := run_cons.mp h
    have ih := run_balance val inn out hI hs (hI _ _ _ hs0 h₁) h₂
    have h1 := hs _ _ _ hs0 h₁
    rw [total_cons h₁, total_cons h₁]
    calc val s' + (out s a + total step out s₁ as)
        = out s a + (val s' + total step out s₁ as) := by abel
      _ = (val s₁ + out s a) + total step inn s₁ as := by rw [ih]; abel
      _ = val s + (inn s a + total step inn s₁ as) := by rw [h1]; abel

theorem total_add {f g : σ → α → M} : ∀ {as : List α} {s s' : σ}, run step s as = some s' →
    total step (fun s a => f s a + g s a) s as = total step f s as + total step g s as
  | [], _, _, _ => by simp [total]
  | a :: as, s, s', h => by
    obtain ⟨s₁, h₁, h₂⟩ := run_cons.mp h
    rw [total_cons h₁, total_cons h₁, total_cons h₁, total_add h₂]
    abel

/-- `P` holds at every step of the run. -/
def Along (step : σ → α → Option σ) (P : σ → α → Prop) : σ → List α → Prop
  | _, [] => True
  | s, a :: as => P s a ∧ ∀ s', step s a = some s' → Along step P s' as

theorem along_cons {P : σ → α → Prop} {s s₁ : σ} {a : α} {as : List α} (h : step s a = some s₁) :
    Along step P s (a :: as) ↔ P s a ∧ Along step P s₁ as := by
  simp [Along, h]

instance Along.decidable (P : σ → α → Prop) [∀ s a, Decidable (P s a)] :
    ∀ (s : σ) (as : List α), Decidable (Along step P s as)
  | _, [] => isTrue trivial
  | s, a :: as =>
    match h : step s a with
    | none => decidable_of_iff (P s a) (by simp [Along, h])
    | some s₁ =>
      have := Along.decidable P s₁ as
      decidable_of_iff (P s a ∧ Along step P s₁ as) (along_cons h).symm

theorem along_of_forall {P : σ → α → Prop} (hP : ∀ s a, P s a) : ∀ (as : List α) (s : σ), Along step P s as
  | [], _ => trivial
  | a :: as, s => ⟨hP s a, fun s' _ => along_of_forall hP as s'⟩

theorem along_of_mem {P : α → Prop} : ∀ {as : List α} {s : σ}, (∀ a ∈ as, P a) → Along step (fun _ a => P a) s as
  | [], _, _ => trivial
  | a :: _, _, h => ⟨h a List.mem_cons_self, fun _ _ => along_of_mem fun a ha => h a (List.mem_cons_of_mem _ ha)⟩

/-- Where only zeros add up to zero, a total is zero if every step's share is. -/
theorem total_eq_zero_iff (h0 : ∀ x y : M, x + y = 0 ↔ x = 0 ∧ y = 0) :
    ∀ {as : List α} {s s' : σ}, run step s as = some s' →
      (total step f s as = 0 ↔ Along step (fun s a => f s a = 0) s as)
  | [], _, _, _ => by simp [total, Along]
  | a :: as, s, s', h => by
    obtain ⟨s₁, h₁, h₂⟩ := run_cons.mp h
    rw [total_cons h₁, h0, along_cons h₁, total_eq_zero_iff h0 h₂]

/-- A total is zero where an invariant makes every step's share zero. -/
theorem total_eq_zero_of_along {P : σ → α → Prop} {I : σ → Prop}
    (hI : ∀ s a s', I s → P s a → step s a = some s' → I s' ∧ f s a = 0) :
    ∀ {as : List α} {s s' : σ}, I s → Along step P s as → run step s as = some s' → total step f s as = 0
  | [], _, _, _, _, _ => rfl
  | a :: as, s, s', h, hP, hr => by
    obtain ⟨s₁, h₁, h₂⟩ := run_cons.mp hr
    obtain ⟨ha, has⟩ := (along_cons h₁).mp hP
    obtain ⟨hI₁, hf⟩ := hI s a s₁ h ha h₁
    rw [total_cons h₁, hf, total_eq_zero_of_along hI hI₁ has h₂, add_zero]

/-- What the steps of a run put out, in order. -/
def emits (step : σ → α → Option σ) (f : σ → α → List β) : σ → List α → List β
  | _, [] => []
  | s, a :: as => f s a ++ ((step s a).map fun s' => emits step f s' as).getD []

theorem emits_cons {f : σ → α → List β} {s s₁ : σ} {a : α} {as : List α} (h : step s a = some s₁) :
    emits step f s (a :: as) = f s a ++ emits step f s₁ as := by
  simp [emits, h]

theorem emits_append {f : σ → α → List β} {bs : List α} : ∀ {as : List α} {s s₁ : σ}, run step s as = some s₁ →
    emits step f s (as ++ bs) = emits step f s as ++ emits step f s₁ bs
  | [], _, _, h => by cases h; rfl
  | a :: as, s, s₁, h => by
    obtain ⟨s₂, h₁, h₂⟩ := run_cons.mp h
    rw [List.cons_append, emits_cons h₁, emits_cons h₁, emits_append h₂, List.append_assoc]

theorem emits_map {γ : Type*} {f : σ → α → List β} (g : β → γ) : ∀ {as : List α} {s s' : σ}, run step s as = some s' →
    emits step (fun s a => (f s a).map g) s as = (emits step f s as).map g
  | [], _, _, _ => rfl
  | a :: as, s, s', h => by
    obtain ⟨s₁, h₁, h₂⟩ := run_cons.mp h
    rw [emits_cons h₁, emits_cons h₁, emits_map g h₂, List.map_append]

/-- **Order.** If a step takes what it puts out from the front of a list and
adds what it takes in to its end, so does a run. -/
theorem run_emits (val : σ → List β) {inn out : σ → α → List β}
    (hs : ∀ s a s', step s a = some s' → val s ++ inn s a = out s a ++ val s') :
    ∀ {as : List α} {s s' : σ}, run step s as = some s' →
      val s ++ emits step inn s as = emits step out s as ++ val s'
  | [], _, _, h => by cases h; simp [emits]
  | a :: as, s, s', h => by
    obtain ⟨s₁, h₁, h₂⟩ := run_cons.mp h
    have ih := run_emits val hs h₂
    rw [emits_cons h₁, emits_cons h₁]
    calc val s ++ (inn s a ++ emits step inn s₁ as)
        = out s a ++ (val s₁ ++ emits step inn s₁ as) := by
          rw [← List.append_assoc, hs _ _ _ h₁, List.append_assoc]
      _ = out s a ++ emits step out s₁ as ++ val s' := by rw [ih, List.append_assoc]

/-- The same where an invariant holds. -/
theorem run_emits_of_invariant {I : σ → Prop} (val : σ → List β) {inn out : σ → α → List β}
    (hI : ∀ s a s', I s → step s a = some s' → I s')
    (hs : ∀ s a s', I s → step s a = some s' → val s ++ inn s a = out s a ++ val s') :
    ∀ {as : List α} {s s' : σ}, I s → run step s as = some s' →
      val s ++ emits step inn s as = emits step out s as ++ val s'
  | [], _, _, _, h => by cases h; simp [emits]
  | a :: as, s, s', hs0, h => by
    obtain ⟨s₁, h₁, h₂⟩ := run_cons.mp h
    have ih := run_emits_of_invariant val hI hs (hI _ _ _ hs0 h₁) h₂
    rw [emits_cons h₁, emits_cons h₁]
    calc val s ++ (inn s a ++ emits step inn s₁ as)
        = out s a ++ (val s₁ ++ emits step inn s₁ as) := by
          rw [← List.append_assoc, hs _ _ _ hs0 h₁, List.append_assoc]
      _ = out s a ++ emits step out s₁ as ++ val s' := by rw [ih, List.append_assoc]

theorem along_append {P : σ → α → Prop} {as bs : List α} : ∀ {s s₁ : σ}, run step s as = some s₁ →
    (Along step P s (as ++ bs) ↔ Along step P s as ∧ Along step P s₁ bs) := by
  induction as with
  | nil =>
    intro s s₁ h
    cases h
    simp [Along]
  | cons a as ih =>
    intro s s₁ h
    obtain ⟨s₂, h₁, h₂⟩ := run_cons.mp h
    rw [List.cons_append, along_cons h₁, along_cons h₁, ih h₂, and_assoc]

/-- What holds at every step holds after every beginning of the run. -/
theorem along_iff_take {P : σ → α → Prop} : ∀ {as : List α} {s : σ},
    Along step P s as ↔ ∀ i (hi : i < as.length) s', run step s (as.take i) = some s' → P s' as[i]
  | [], s => by simp [Along]
  | a :: as, s => by
    constructor
    · rintro ⟨ha, has⟩ i hi s' hr
      cases i with
      | zero =>
        cases hr
        exact ha
      | succ i =>
        obtain ⟨s₁, h₁, h₂⟩ := run_cons.mp hr
        exact along_iff_take.mp (has s₁ h₁) i (Nat.lt_of_succ_lt_succ hi) s' h₂
    · intro h
      refine ⟨h 0 (Nat.zero_lt_succ _) s rfl, fun s₁ h₁ => along_iff_take.mpr fun i hi s' hr => ?_⟩
      exact h (i + 1) (Nat.succ_lt_succ hi) s' (run_cons.mpr ⟨s₁, h₁, hr⟩)

/-- The step after a beginning of a run. -/
theorem exists_step_take {as : List α} {s t : σ} (hr : run step s as = some t) {i : ℕ} (hi : i < as.length) :
    ∃ s' s'', run step s (as.take i) = some s' ∧ step s' as[i] = some s'' := by
  rw [← List.take_append_drop i as, List.drop_eq_getElem_cons hi] at hr
  obtain ⟨s', h₁, h₂⟩ := run_append.mp hr
  obtain ⟨s'', h₃, -⟩ := run_cons.mp h₂
  exact ⟨s', s'', h₁, h₃⟩

/-- A run whose steps all meet `P`. -/
theorem Reach.of_along {P : σ → α → Prop} : ∀ {as : List α} {s s' : σ}, Along step P s as →
    run step s as = some s' → Reach step P s s'
  | [], _, _, _, hr => by cases hr; exact .refl
  | _ :: _, _, _, hP, hr => by
    obtain ⟨s₁, h₁, h₂⟩ := run_cons.mp hr
    obtain ⟨ha, has⟩ := (along_cons h₁).mp hP
    exact (Reach.single ha h₁).trans (Reach.of_along has h₂)

/-- **Steps left out.** If a step that is kept is answered from related states, and
one that is left out leads to a related state, the run can be taken without those. -/
theorem run_filter {step' : τ → α → Option τ} {P : σ → α → Prop} {R : σ → τ → Prop} {keep : α → Bool}
    (hkeep : ∀ s a s' t, R s t → P s a → keep a = true → step s a = some s' → ∃ t', step' t a = some t' ∧ R s' t')
    (hdrop : ∀ s a s' t, R s t → P s a → keep a = false → step s a = some s' → R s' t) :
    ∀ {as : List α} {s s' : σ} {t : τ}, R s t → Along step P s as → run step s as = some s' →
      ∃ t', run step' t (as.filter keep) = some t' ∧ R s' t'
  | [], _, _, t, hR, _, h => by cases h; exact ⟨t, rfl, hR⟩
  | a :: as, s, s', t, hR, hP, h => by
    obtain ⟨s₁, h₁, h₂⟩ := run_cons.mp h
    obtain ⟨ha, has⟩ := (along_cons h₁).mp hP
    rcases hk : keep a
    · rw [List.filter_cons_of_neg (by simp [hk])]
      exact run_filter hkeep hdrop (hdrop _ _ _ _ hR ha hk h₁) has h₂
    · obtain ⟨t₁, ht₁, hR₁⟩ := hkeep _ _ _ _ hR ha hk h₁
      obtain ⟨t', ht', hR'⟩ := run_filter hkeep hdrop hR₁ has h₂
      rw [List.filter_cons_of_pos hk]
      exact ⟨t', run_cons.mpr ⟨t₁, ht₁, ht'⟩, hR'⟩

/-- Steps that are taken where an invariant holds. -/
theorem along_of_invariant {P Q : σ → α → Prop} {I : σ → Prop}
    (hI : ∀ s a s', I s → P s a → step s a = some s' → I s' ∧ Q s a) :
    ∀ {as : List α} {s s' : σ}, I s → Along step P s as → run step s as = some s' → Along step Q s as
  | [], _, _, _, _, _ => trivial
  | a :: as, s, s', h, hP, hr => by
    obtain ⟨s₁, h₁, h₂⟩ := run_cons.mp hr
    obtain ⟨ha, has⟩ := (along_cons h₁).mp hP
    obtain ⟨hI₁, hQ⟩ := hI s a s₁ h ha h₁
    exact (along_cons h₁).mpr ⟨hQ, along_of_invariant hI hI₁ has h₂⟩

/-- What is kept of a state and of all that has been put out. -/
theorem emits_invariant {f : σ → α → List β} {P : σ → α → Prop} {I : σ → List β → Prop}
    (hI : ∀ s g a s', I s g → P s a → step s a = some s' → I s' (g ++ f s a)) :
    ∀ {as : List α} {s s' : σ} {g : List β}, I s g → Along step P s as → run step s as = some s' →
      I s' (g ++ emits step f s as)
  | [], _, _, g, h, _, hr => by
    cases hr
    simpa [emits] using h
  | a :: as, s, s', g, h, hP, hr => by
    obtain ⟨s₁, h₁, h₂⟩ := run_cons.mp hr
    obtain ⟨ha, has⟩ := (along_cons h₁).mp hP
    rw [emits_cons h₁, ← List.append_assoc]
    exact emits_invariant hI (hI s g a s₁ h ha h₁) has h₂

/-- **Answers.** If a step from related states is answered by the steps it puts out, so
is a run. -/
theorem run_answer {step' : τ → β → Option τ} {f : σ → α → List β} {R : σ → τ → Prop}
    (hR : ∀ s a s' t, R s t → step s a = some s' → ∃ t', run step' t (f s a) = some t' ∧ R s' t') :
    ∀ {as : List α} {s s' : σ} {t : τ}, R s t → run step s as = some s' →
      ∃ t', run step' t (emits step f s as) = some t' ∧ R s' t'
  | [], _, _, t, h, hr => by
    cases hr
    exact ⟨t, rfl, h⟩
  | a :: as, s, s', t, h, hr => by
    obtain ⟨s₁, h₁, h₂⟩ := run_cons.mp hr
    obtain ⟨t₁, ht₁, hst₁⟩ := hR s a s₁ t h h₁
    obtain ⟨t', ht', hst'⟩ := run_answer hR hst₁ h₂
    rw [emits_cons h₁]
    exact ⟨t', run_append.mpr ⟨t₁, ht₁, ht'⟩, hst'⟩

theorem emits_eq_nil {f : σ → α → List β} : ∀ {as : List α} {s : σ}, (∀ a ∈ as, ∀ s, f s a = []) →
    emits step f s as = []
  | [], _, _ => rfl
  | a :: as, s, h => by
    have ih : ∀ s₁, emits step f s₁ as = [] := fun s₁ => emits_eq_nil fun b hb => h b (List.mem_cons_of_mem a hb)
    rw [emits, h a List.mem_cons_self s, List.nil_append]
    rcases step s a with _ | s₁
    · rfl
    · exact ih s₁

/-- What the run puts out is what its answer puts out. -/
theorem emits_answer {γ : Type*} {step' : τ → β → Option τ} {f : σ → α → List β} {R : σ → τ → Prop}
    {g : σ → α → List γ} {g' : τ → β → List γ}
    (hR : ∀ s a s' t, R s t → step s a = some s' → ∃ t', run step' t (f s a) = some t' ∧ R s' t')
    (hg : ∀ s a s' t, R s t → step s a = some s' → g s a = emits step' g' t (f s a)) :
    ∀ {as : List α} {s s' : σ} {t : τ}, R s t → run step s as = some s' →
      emits step g s as = emits step' g' t (emits step f s as)
  | [], _, _, _, _, _ => rfl
  | a :: as, s, s', t, h, hr => by
    obtain ⟨s₁, h₁, h₂⟩ := run_cons.mp hr
    obtain ⟨t₁, ht₁, hst₁⟩ := hR s a s₁ t h h₁
    rw [emits_cons h₁, emits_cons h₁, emits_append ht₁, hg s a s₁ t h h₁, emits_answer hR hg hst₁ h₂]

/-- `P` holds of every state of the run. -/
def Always (step : σ → α → Option σ) (P : σ → Prop) : σ → List α → Prop
  | s, [] => P s
  | s, a :: as => P s ∧ ∀ s', step s a = some s' → Always step P s' as

theorem always_cons {P : σ → Prop} {s s₁ : σ} {a : α} {as : List α} (h : step s a = some s₁) :
    Always step P s (a :: as) ↔ P s ∧ Always step P s₁ as := by
  simp [Always, h]

theorem Always.head {P : σ → Prop} {s : σ} : ∀ {as : List α}, Always step P s as → P s
  | [], h => h
  | _ :: _, h => h.1

/-- If a step from a state with `P` leads to one with `P` exactly if it
meets `Q`, then `P` holds throughout a run exactly if its steps meet `Q`. -/
theorem always_iff_along {I P : σ → Prop} {Q : σ → α → Prop}
    (hI : ∀ s a s', I s → step s a = some s' → I s')
    (hP : ∀ s a s', I s → P s → step s a = some s' → (P s' ↔ Q s a)) :
    ∀ {as : List α} {s s' : σ}, I s → P s → run step s as = some s' →
      (Always step P s as ↔ Along step Q s as)
  | [], _, _, _, h, _ => by simp [Always, Along, h]
  | a :: as, s, s', hIs, hPs, h => by
    obtain ⟨s₁, h₁, h₂⟩ := run_cons.mp h
    have hstep := hP s a s₁ hIs hPs h₁
    rw [always_cons h₁, along_cons h₁]
    constructor
    · rintro ⟨-, hal⟩
      exact ⟨hstep.mp hal.head, (always_iff_along hI hP (hI _ _ _ hIs h₁) hal.head h₂).mp hal⟩
    · rintro ⟨hQ, hal⟩
      have hP₁ := hstep.mpr hQ
      exact ⟨hPs, (always_iff_along hI hP (hI _ _ _ hIs h₁) hP₁ h₂).mpr hal⟩

/-! ### Runs with some of the labels -/

variable {g : β → α}

theorem run_map : ∀ {bs : List β} {s : σ}, run step s (bs.map g) = run (fun s b => step s (g b)) s bs
  | [], _ => rfl
  | b :: bs, s => by
    simp only [List.map_cons, run]
    cases step s (g b) with
    | none => rfl
    | some s₁ => exact run_map

theorem total_map : ∀ {bs : List β} {s : σ},
    total step f s (bs.map g) = total (fun s b => step s (g b)) (fun s b => f s (g b)) s bs
  | [], _ => rfl
  | b :: bs, s => by
    simp only [List.map_cons, total]
    cases step s (g b) with
    | none => rfl
    | some s₁ =>
      simp only [Option.map_some, Option.getD_some]
      rw [total_map]

end Total

end Trans
