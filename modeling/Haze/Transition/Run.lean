import Mathlib

/-
  Runs of a labelled transition system.

  `Run step s as s'` is a run from `s` to `s'` with the actions `as`, the last one on the
  outside. An invariant of the steps holds at the end of every run (`Run.invariant`), and
  where the steps are deterministic a run has one end (`Run.end_unique`).
  `run_always_iff` is the rule for a property that only some steps keep: it holds along a
  whole run exactly when every step of the run is one of those (`Run.always_iff` where the
  action alone decides). `Run.simulated` carries a
  simulation of steps over to runs. `Standing` is what a trace of actions has brought in and
  not taken out again, `standing_concat` its rule for one more action.
-/

namespace Transition

variable {σ α : Type}

/-! ## Runs -/

/-- `s'` is reached from `s` by the actions, in order. -/
inductive Run (step : σ → α → σ → Prop) (s : σ) : List α → σ → Prop where
  | nil : Run step s [] s
  | snoc {as : List α} {a : α} {m s' : σ} :
      Run step s as m → step m a s' → Run step s (as ++ [a]) s'

variable {step : σ → α → σ → Prop}

theorem Run.append {s m s' : σ} {as bs : List α} (hrun : Run step s as m)
    (hrest : Run step m bs s') : Run step s (as ++ bs) s' := by
  induction hrest with
  | nil => rwa [List.append_nil]
  | snoc _ hstep ih =>
      rw [← List.append_assoc]
      exact .snoc ih hstep

theorem Run.cons {s m s' : σ} {a : α} {as : List α} (hstep : step s a m)
    (hrest : Run step m as s') : Run step s (a :: as) s' :=
  Run.append (.snoc .nil hstep) hrest

/-- A run stops on the way wherever its actions are cut. -/
theorem Run.split {s s' : σ} {cs : List α} (hrun : Run step s cs s') :
    ∀ {as bs : List α}, cs = as ++ bs → ∃ m, Run step s as m ∧ Run step m bs s' := by
  induction hrun with
  | nil =>
      intro as bs heq
      obtain ⟨rfl, rfl⟩ := List.append_eq_nil_iff.mp heq.symm
      exact ⟨s, .nil, .nil⟩
  | @snoc cs a m s' hrun hstep ih =>
      intro as bs heq
      rcases List.eq_nil_or_concat bs with rfl | ⟨bs, b, rfl⟩
      · rw [List.append_nil] at heq
        exact ⟨s', heq ▸ .snoc hrun hstep, .nil⟩
      · rw [List.concat_eq_append, ← List.append_assoc] at heq
        obtain ⟨rfl, hab⟩ := List.append_inj' heq rfl
        obtain rfl := List.singleton_inj.mp hab
        obtain ⟨m', hfront, hback⟩ := ih rfl
        exact ⟨m', hfront, by rw [List.concat_eq_append]; exact .snoc hback hstep⟩

theorem run_nil_iff {s s' : σ} : Run step s [] s' ↔ s' = s := by
  constructor
  · intro hrun
    generalize hnil : ([] : List α) = as at hrun
    cases hrun with
    | nil => rfl
    | snoc => exact absurd hnil.symm (List.append_ne_nil_of_right_ne_nil _ (List.cons_ne_nil _ _))
  · intro h
    rw [h]
    exact .nil

theorem run_cons_iff {s s' : σ} {a : α} {as : List α} :
    Run step s (a :: as) s' ↔ ∃ m, step s a m ∧ Run step m as s' := by
  constructor
  · intro hrun
    obtain ⟨m, hone, hrest⟩ := hrun.split (List.singleton_append (x := a)).symm
    generalize hones : [a] = ones at hone
    cases hone with
    | nil => cases hones
    | @snoc front b m' _ hfront hstep =>
        have hones : [] ++ [a] = front ++ [b] := hones
        obtain ⟨rfl, hab⟩ := List.append_inj' hones rfl
        obtain rfl := List.singleton_inj.mp hab
        obtain rfl := run_nil_iff.mp hfront
        exact ⟨m, hstep, hrest⟩
  · intro ⟨m, hstep, hrest⟩
    exact .cons hstep hrest

/-! ## Deterministic steps -/

/-- A state has at most one step. -/
def Deterministic (step : σ → α → σ → Prop) : Prop :=
  ∀ s a b t u, step s a t → step s b u → a = b ∧ t = u

/-- Of two runs from one state, one goes on where the other ends. -/
theorem Run.comparable (hdet : Deterministic step) {s t u : σ} {as bs : List α}
    (hrun : Run step s as t) (hrun' : Run step s bs u) :
    (∃ cs, bs = as ++ cs ∧ Run step t cs u) ∨ ∃ cs, as = bs ++ cs ∧ Run step u cs t := by
  induction hrun with
  | nil => exact .inl ⟨bs, rfl, hrun'⟩
  | @snoc as a m t hrun hstep ih =>
      obtain ⟨cs, rfl, hrest⟩ | ⟨cs, rfl, hrest⟩ := ih
      · cases cs with
        | nil =>
            obtain rfl := run_nil_iff.mp hrest
            exact .inr ⟨[a], by rw [List.append_nil], .snoc .nil hstep⟩
        | cons c cs =>
            obtain ⟨m', hstep', hrest⟩ := run_cons_iff.mp hrest
            obtain ⟨rfl, rfl⟩ := hdet _ _ _ _ _ hstep hstep'
            exact .inl ⟨cs, by rw [List.append_assoc]; rfl, hrest⟩
      · exact .inr ⟨cs ++ [a], by rw [List.append_assoc], .snoc hrest hstep⟩

/-- Behind an end, where no step is left, a run goes nowhere: every run is a part of the
one to the end. -/
theorem Run.to_end (hdet : Deterministic step) {s t u : σ} {as bs : List α}
    (hrun : Run step s as t) (hend : ∀ a m, ¬step t a m) (hrun' : Run step s bs u) :
    ∃ cs, as = bs ++ cs ∧ Run step u cs t := by
  obtain ⟨cs, rfl, hrest⟩ | hpart := hrun.comparable hdet hrun'
  · cases cs with
    | nil => exact ⟨[], by rw [List.append_nil, List.append_nil], run_nil_iff.mp hrest ▸ .nil⟩
    | cons c cs =>
        obtain ⟨m, hstep, -⟩ := run_cons_iff.mp hrest
        exact absurd hstep (hend c m)
  · exact hpart

theorem Run.end_unique (hdet : Deterministic step) {s t u : σ} {as bs : List α}
    (hrun : Run step s as t) (hend : ∀ a m, ¬step t a m) (hrun' : Run step s bs u)
    (hend' : ∀ a m, ¬step u a m) : as = bs ∧ t = u := by
  obtain ⟨cs, rfl, hrest⟩ := hrun.to_end hdet hend hrun'
  cases cs with
  | nil => exact ⟨by rw [List.append_nil], run_nil_iff.mp hrest⟩
  | cons c cs =>
      obtain ⟨m, hstep, -⟩ := run_cons_iff.mp hrest
      exact absurd hstep (hend' c m)

/-! ## Invariants -/

/-- What the start has with no action, and every step keeps with one more, is had by the
actions and the end of a run. -/
theorem Run.invariant_trace {P : List α → σ → Prop} {s s' : σ} {as : List α}
    (hrun : Run step s as s') (hstart : P [] s)
    (hkeep : ∀ as m a m', P as m → step m a m' → P (as ++ [a]) m') : P as s' := by
  induction hrun with
  | nil => exact hstart
  | snoc _ hstep ih => exact hkeep _ _ _ _ ih hstep

/-- What the start has and every step keeps is had at the end of a run. -/
theorem Run.invariant {P : σ → Prop} {s s' : σ} {as : List α} (hrun : Run step s as s')
    (hstart : P s) (hkeep : ∀ m a m', P m → step m a m' → P m') : P s' :=
  hrun.invariant_trace hstart fun _ m a m' hm hstep => hkeep m a m' hm hstep

/-- Where a step from a good state leads to a good state exactly when the step is
allowed, a run passes good states only exactly when all its steps are allowed. -/
theorem run_always_iff {P : σ → Prop} {allowed : σ → α → Prop} {s : σ} {as : List α}
    (hstart : P s) (hkeep : ∀ m a m', P m → step m a m' → (P m' ↔ allowed m a)) :
    (∀ front m, front <+: as → Run step s front m → P m) ↔
      ∀ front a m m', front ++ [a] <+: as → Run step s front m → step m a m' → allowed m a := by
  constructor
  · intro hgood front a m m' hfront hrun hstep
    have hm := hgood front m ((List.prefix_append front [a]).trans hfront) hrun
    have hm' := hgood _ m' hfront (.snoc hrun hstep)
    exact (hkeep m a m' hm hstep).mp hm'
  · intro hallowed front m hfront hrun
    induction hrun with
    | nil => exact hstart
    | @snoc front a m m' hrun hstep ih =>
        have hm := ih ((List.prefix_append front [a]).trans hfront)
        exact (hkeep m a m' hm hstep).mpr (hallowed front a m m' hfront hrun hstep)

/-- The same for a run all of whose states are known by their actions: no action of the run is
one that is not allowed. -/
theorem Run.always_iff {P : σ → Prop} {allowed : α → Prop} {s s' : σ} {as : List α}
    (hrun : Run step s as s') (hstart : P s)
    (hkeep : ∀ m a m', P m → step m a m' → (P m' ↔ allowed a)) :
    (∀ front m, front <+: as → Run step s front m → P m) ↔ ∀ a ∈ as, allowed a := by
  refine (run_always_iff hstart hkeep).trans ⟨fun hallowed a ha => ?_, fun hall => ?_⟩
  · obtain ⟨before, after, rfl⟩ := List.append_of_mem ha
    obtain ⟨m, hbefore, hafter⟩ := hrun.split rfl
    obtain ⟨m', hstep, -⟩ := run_cons_iff.mp hafter
    have hfront : before ++ [a] <+: before ++ a :: after :=
      ⟨after, by rw [List.append_assoc, List.singleton_append]⟩
    exact hallowed before a m m' hfront hbefore hstep
  · intro front a _ _ hfront _ _
    exact hall a (hfront.subset (List.mem_append_right _ (List.mem_singleton_self a)))

/-! ## Simulation -/

/-- Where every step is answered by one with a related action between related states, every
run is answered by a run. -/
theorem Run.simulated {τ β : Type} {step' : τ → β → τ → Prop} {R : σ → τ → Prop}
    {A : α → β → Prop} {s s' : σ} {t : τ} {as : List α} (hrun : Run step s as s')
    (hstart : R s t)
    (hstep : ∀ m a m' n, R m n → step m a m' → ∃ b n', step' n b n' ∧ A a b ∧ R m' n') :
    ∃ bs t', Run step' t bs t' ∧ List.Forall₂ A as bs ∧ R s' t' := by
  induction hrun with
  | nil => exact ⟨[], t, .nil, .nil, hstart⟩
  | snoc _ hlast ih =>
      obtain ⟨bs, n, hrun', hactions, hmiddle⟩ := ih
      obtain ⟨b, n', hlast', haction, hend⟩ := hstep _ _ _ _ hmiddle hlast
      exact ⟨bs ++ [b], n', .snoc hrun' hlast', List.rel_append hactions (.cons haction .nil), hend⟩

/-! ## What a trace leaves -/

/-- Some action brings `x` in, and none behind it takes `x` out. -/
def Standing {β : Type} (brings takes : α → β → Prop) (as : List α) (x : β) : Prop :=
  ∃ before a after, as = before ++ a :: after ∧ brings a x ∧ ∀ b ∈ after, ¬takes b x

theorem standing_nil {β : Type} {brings takes : α → β → Prop} {x : β} :
    ¬Standing brings takes [] x := by
  intro hstanding
  obtain ⟨before, a, after, has, -⟩ := hstanding
  exact List.append_ne_nil_of_right_ne_nil before (List.cons_ne_nil a after) has.symm

theorem standing_concat {β : Type} {brings takes : α → β → Prop} {as : List α} {a : α} {x : β} :
    Standing brings takes (as ++ [a]) x ↔
      brings a x ∨ (Standing brings takes as x ∧ ¬takes a x) := by
  constructor
  · intro hstanding
    obtain ⟨before, b, after, has, hbrings, hkept⟩ := hstanding
    rcases List.eq_nil_or_concat after with rfl | ⟨after, c, rfl⟩
    · obtain ⟨-, hab⟩ := List.append_inj' has rfl
      obtain rfl := List.singleton_inj.mp hab
      exact .inl hbrings
    · rw [List.concat_eq_append] at has hkept
      rw [← List.cons_append, ← List.append_assoc] at has
      obtain ⟨rfl, hac⟩ := List.append_inj' has rfl
      obtain rfl := List.singleton_inj.mp hac
      refine .inr ⟨⟨before, b, after, rfl, hbrings, ?_⟩, hkept a (by simp)⟩
      exact fun d hd => hkept d (List.mem_append_left _ hd)
  · intro hnow
    obtain hbrings | ⟨⟨before, b, after, rfl, hbrings, hkept⟩, hnot⟩ := hnow
    · exact ⟨as, a, [], rfl, hbrings, by simp⟩
    · refine ⟨before, b, after ++ [a], by simp, hbrings, ?_⟩
      intro c hc
      rcases List.mem_append.mp hc with hc | hc
      · exact hkept c hc
      · rw [List.mem_singleton.mp hc]
        exact hnot

end Transition
