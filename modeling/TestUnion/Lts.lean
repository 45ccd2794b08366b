import Mathlib.Data.List.Basic
import Mathlib.Tactic.Common

/-!
# Labelled transition systems: runs, invariants, inevitable states

A system is a relation `step : σ → α → σ → Prop`.  Nothing here names a particular program.

* `Run step s tr t`    `tr` lists the steps of a run from `s` to `t`, oldest first, each with the
                       state before it, its label and the state after it;
* `Reach step s t`     some run leads from `s` to `t`;
* `Run.restrict`       a run whose steps all meet a condition;
* `Run.reach_map`      a run of a finer system is a run of a coarser one;
* `Run.crosses`        a run from a state without `P` to one with `P` has a step between two such;
* `Run.inv`            an invariant of every step holds at the end of every run;
* `Run.steps_inv`      it also holds before and after every step of the run;
* `Run.forall_iff`     a property of states that each step keeps exactly when a condition holds
                       before the step: it holds along a run iff all steps meet the condition;
* `seen`, `Run.follows`   what a part of the system sees of a run, and the rule for a partial
                         function that the part follows: it accepts all that is seen;
* `Inev step P s`      every continuation of `s` comes to a state with `P`;
* `Inev.of_measure`, `Run.exists_of_measure`   the two rules for measures that decrease;
* `Guarded enabled next`   the system of a guard and an update, and `Run.of_labels`, which follows
                           a list of labels.
-/

namespace Lts

variable {σ α : Type*} {step : σ → α → σ → Prop}

inductive Run (step : σ → α → σ → Prop) (s : σ) : List (σ × α × σ) → σ → Prop
  | nil : Run step s [] s
  | snoc {tr t a u} : Run step s tr t → step t a u → Run step s (tr ++ [(t, a, u)]) u

def Reach (step : σ → α → σ → Prop) (s t : σ) : Prop := ∃ tr, Run step s tr t

theorem Reach.refl (s : σ) : Reach step s s := ⟨[], .nil⟩

theorem Reach.tail {s t u : σ} {a : α} (h : Reach step s t) (hs : step t a u) : Reach step s u := by
  obtain ⟨tr, hr⟩ := h
  exact ⟨_, hr.snoc hs⟩

theorem Run.single {s t : σ} {a : α} (h : step s a t) : Run step s [(s, a, t)] t :=
  Run.snoc .nil h

theorem Run.trans {s t u : σ} {tr tr' : List (σ × α × σ)} (h : Run step s tr t)
    (h' : Run step t tr' u) : Run step s (tr ++ tr') u := by
  induction h' with
  | nil => rw [List.append_nil]; exact h
  | snoc _ hs ih => rw [← List.append_assoc]; exact ih.snoc hs

theorem Run.mono {step' : σ → α → σ → Prop} (hsub : ∀ s a t, step s a t → step' s a t) {s t : σ}
    {tr : List (σ × α × σ)} (h : Run step s tr t) : Run step' s tr t := by
  induction h with
  | nil => exact .nil
  | snoc _ hst ih => exact ih.snoc (hsub _ _ _ hst)

/-- A run whose steps all meet a condition is a run of the steps that meet it. -/
theorem Run.restrict {C : σ → α → σ → Prop} {s t : σ} {tr : List (σ × α × σ)} (h : Run step s tr t)
    (hC : ∀ x ∈ tr, C x.1 x.2.1 x.2.2) : Run (fun s a t => step s a t ∧ C s a t) s tr t := by
  induction h with
  | nil => exact .nil
  | snoc _ hst ih =>
    rw [List.forall_mem_append, List.forall_mem_singleton] at hC
    exact (ih hC.1).snoc ⟨hst, hC.2⟩

/-- A map under which every step is a step of another system, or no change, takes runs to runs. -/
theorem Run.reach_map {τ β : Type*} {step' : τ → β → τ → Prop} (f : σ → τ)
    (hsim : ∀ s a t, step s a t → f t = f s ∨ ∃ b, step' (f s) b (f t)) {s t : σ}
    {tr : List (σ × α × σ)} (h : Run step s tr t) : Reach step' (f s) (f t) := by
  induction h with
  | nil => exact .refl _
  | snoc _ hst ih =>
    rcases hsim _ _ _ hst with heq | ⟨b, hb⟩
    · rw [heq]
      exact ih
    · exact ih.tail hb

/-- A run into the states with `P` has a step that comes from outside of them. -/
theorem Run.crosses {P : σ → Prop} {s t : σ} {tr : List (σ × α × σ)} (h : Run step s tr t)
    (hs : ¬ P s) (ht : P t) : ∃ tr₁ u a v tr₂, tr = tr₁ ++ (u, a, v) :: tr₂ ∧ Run step s tr₁ u ∧
      ¬ P u ∧ step u a v ∧ P v ∧ Run step v tr₂ t := by
  induction h with
  | nil => exact absurd ht hs
  | @snoc tr t' a v hr hst ih =>
    by_cases hp : P t'
    · obtain ⟨tr₁, u, b, w, tr₂, rfl, hr₁, hu, hstep, hw, hr₂⟩ := ih hp
      refine ⟨tr₁, u, b, w, tr₂ ++ [(t', a, v)], ?_, hr₁, hu, hstep, hw, hr₂.snoc hst⟩
      rw [List.append_assoc, List.cons_append]
    · exact ⟨tr, t', a, v, [], rfl, hr, hp, hst, ht, .nil⟩

/-! ## invariants -/

theorem Run.inv {I : σ → Prop} (hstep : ∀ s a t, I s → step s a t → I t) {s t : σ}
    {tr : List (σ × α × σ)} (h : Run step s tr t) (hs : I s) : I t := by
  induction h with
  | nil => exact hs
  | snoc _ hst ih => exact hstep _ _ _ ih hst

theorem Reach.inv {I : σ → Prop} (hstep : ∀ s a t, I s → step s a t → I t) {s t : σ}
    (h : Reach step s t) (hs : I s) : I t := by
  obtain ⟨tr, hr⟩ := h
  exact hr.inv hstep hs

theorem Run.steps_inv {I : σ → Prop} (hstep : ∀ s a t, I s → step s a t → I t) {s t : σ}
    {tr : List (σ × α × σ)} (h : Run step s tr t) (hs : I s) :
    ∀ x ∈ tr, I x.1 ∧ step x.1 x.2.1 x.2.2 ∧ I x.2.2 := by
  induction h with
  | nil => simp
  | snoc hr hst ih =>
    intro x hx
    rcases List.mem_append.mp hx with hx | hx
    · exact ih x hx
    · rw [List.mem_singleton.mp hx]
      have hi := hr.inv hstep hs
      exact ⟨hi, hst, hstep _ _ _ hi hst⟩

/-- If, under the invariant `I`, a step from a state with `P` ends in a state with `P` exactly
when the step meets `C`, then `P` holds after every step of a run iff every step meets `C`. -/
theorem Run.forall_iff {I P : σ → Prop} {C : σ → α → σ → Prop}
    (hstep : ∀ s a t, I s → step s a t → I t)
    (hiff : ∀ s a t, I s → P s → step s a t → (P t ↔ C s a t)) {s t : σ}
    {tr : List (σ × α × σ)} (h : Run step s tr t) (hs : I s) (hp : P s) :
    (∀ x ∈ tr, P x.2.2) ↔ ∀ x ∈ tr, C x.1 x.2.1 x.2.2 := by
  have key : (∀ x ∈ tr, P x.2.2) → P t := by
    intro hall
    cases h with
    | nil => exact hp
    | snoc _ _ => exact hall _ (List.mem_append_right _ (List.mem_singleton_self _))
  induction h with
  | nil => simp
  | @snoc tr' u a v hr hst ih =>
    have hu : (∀ x ∈ tr', P x.2.2) → P u := by
      intro hall
      cases hr with
      | nil => exact hp
      | snoc _ _ => exact hall _ (List.mem_append_right _ (List.mem_singleton_self _))
    have ih' := ih hu
    simp only [List.forall_mem_append, List.forall_mem_singleton]
    refine ⟨?_, ?_⟩
    · intro hex
      obtain ⟨h1, h2⟩ := hex
      exact ⟨ih'.mp h1, (hiff _ _ _ (hr.inv hstep hs) (hu h1) hst).mp h2⟩
    · intro hboth
      obtain ⟨h1, h2⟩ := hboth
      have h3 := ih'.mpr h1
      exact ⟨h3, (hiff _ _ _ (hr.inv hstep hs) (hu h3) hst).mpr h2⟩

/-! ## the events of a part -/

section
variable {τ ε : Type*}

/-- the events of a run, for a part of the system that sees some of the steps -/
def seen (event : σ → α → Option ε) (tr : List (σ × α × σ)) : List ε :=
  tr.filterMap fun x => event x.1 x.2.1

@[simp]
theorem seen_concat (event : σ → α → Option ε) (tr : List (σ × α × σ)) (s : σ) (a : α) (t : σ) :
    seen event (tr ++ [(s, a, t)]) = seen event tr ++ (event s a).toList := by
  unfold seen
  rw [List.filterMap_append]
  cases h : event s a <;> simp [h]

/-- If the events of a step take every view of the state before it to a view of the state after
it, then so do the events of a run. -/
theorem Run.follows {I : σ → Prop} {View : σ → τ → Prop} {event : σ → α → Option ε}
    {next : τ → ε → Option τ} (hstep : ∀ s a t, I s → step s a t → I t)
    (hview : ∀ s a t v, I s → step s a t → View s v →
      ∃ w, (event s a).toList.foldlM next v = some w ∧ View t w) {s t : σ}
    {tr : List (σ × α × σ)} (h : Run step s tr t) (hs : I s) {v : τ} (hv : View s v) :
    ∃ w, (seen event tr).foldlM next v = some w ∧ View t w := by
  induction h with
  | nil => exact ⟨v, rfl, hv⟩
  | snoc hr hst ih =>
    obtain ⟨u, hu, hvu⟩ := ih
    obtain ⟨w, hw, hvw⟩ := hview _ _ _ u (hr.inv hstep hs) hst hvu
    refine ⟨w, ?_, hvw⟩
    rw [seen_concat, List.foldlM_append, hu]
    exact hw

end

/-! ## progress -/

/-- every continuation of the state comes to a state with `P` -/
inductive Inev (step : σ → α → σ → Prop) (P : σ → Prop) : σ → Prop
  | now {s} : P s → Inev step P s
  | later {s} : (∃ a t, step s a t) → (∀ a t, step s a t → Inev step P t) → Inev step P s

theorem Inev.of_measure {I P : σ → Prop} (m : σ → ℕ)
    (h : ∀ s, I s → ¬ P s → (∃ a t, step s a t) ∧ ∀ a t, step s a t → I t ∧ m t < m s) :
    ∀ s, I s → Inev step P s := by
  have key : ∀ n s, m s < n → I s → Inev step P s := by
    intro n
    induction n with
    | zero => intro s hm _; omega
    | succ n ih =>
      intro s hm hi
      by_cases hp : P s
      · exact .now hp
      · obtain ⟨hex, hall⟩ := h s hi hp
        refine .later hex fun a t hst => ?_
        obtain ⟨ht, hlt⟩ := hall a t hst
        exact ih t (by omega) ht
  exact fun s hi => key _ s (Nat.lt_succ_self _) hi

/-- If every state with `I` and without `P` has a step with a `good` label that makes the measure
smaller, then a run of good steps leads to `P`. -/
theorem Run.exists_of_measure {I P : σ → Prop} {good : α → Prop} (m : σ → ℕ)
    (hstep : ∀ s a t, I s → step s a t → I t)
    (h : ∀ s, I s → ¬ P s → ∃ a t, good a ∧ step s a t ∧ m t < m s) :
    ∀ s, I s → ∃ tr t, Run step s tr t ∧ P t ∧ ∀ x ∈ tr, good x.2.1 := by
  have key : ∀ n s, m s < n → I s → ∃ tr t, Run step s tr t ∧ P t ∧ ∀ x ∈ tr, good x.2.1 := by
    intro n
    induction n with
    | zero => intro s hm _; omega
    | succ n ih =>
      intro s hm hi
      by_cases hp : P s
      · exact ⟨[], s, .nil, hp, by simp⟩
      · obtain ⟨a, t, hg, hst, hlt⟩ := h s hi hp
        obtain ⟨tr, u, hr, hu, hgood⟩ := ih t (by omega) (hstep _ _ _ hi hst)
        refine ⟨[(s, a, t)] ++ tr, u, (Run.single hst).trans hr, hu, ?_⟩
        intro x hx
        rcases List.mem_append.mp hx with hx | hx
        · rw [List.mem_singleton.mp hx]; exact hg
        · exact hgood x hx
  exact fun s hi => key _ s (Nat.lt_succ_self _) hi

/-! ## guarded updates -/

def Guarded (enabled : σ → α → Prop) (next : σ → α → σ) (s : σ) (a : α) (t : σ) : Prop :=
  enabled s a ∧ t = next s a

/-- the labels can be followed one after the other -/
def AllEnabled (enabled : σ → α → Prop) (next : σ → α → σ) : σ → List α → Prop
  | _, [] => True
  | s, a :: as => enabled s a ∧ AllEnabled enabled next (next s a) as

instance (enabled : σ → α → Prop) (next : σ → α → σ) [∀ s a, Decidable (enabled s a)] (s : σ)
    (as : List α) : Decidable (AllEnabled enabled next s as) := by
  induction as generalizing s with
  | nil => exact instDecidableTrue
  | cons a as ih => exact instDecidableAnd

theorem Run.of_labels {enabled : σ → α → Prop} {next : σ → α → σ} {s : σ} (as : List α)
    (h : AllEnabled enabled next s as) : ∃ tr, Run (Guarded enabled next) s tr (as.foldl next s) ∧
      tr.map (fun x => x.2.1) = as := by
  suffices H : ∀ tr t, Run (Guarded enabled next) s tr t → AllEnabled enabled next t as →
      ∃ tr', Run (Guarded enabled next) s (tr ++ tr') (as.foldl next t) ∧
        tr'.map (fun x => x.2.1) = as from H [] s .nil h
  clear h
  induction as with
  | nil =>
    intro tr t hr _
    rw [← List.append_nil tr] at hr
    exact ⟨[], hr, rfl⟩
  | cons a as ih =>
    intro tr t hr ha
    obtain ⟨tr', hr', hlabels⟩ := ih _ _ (hr.snoc ⟨ha.1, rfl⟩) ha.2
    rw [List.append_assoc] at hr'
    exact ⟨_, hr', congrArg (List.cons a) hlabels⟩

theorem Reach.of_labels {enabled : σ → α → Prop} {next : σ → α → σ} {s : σ} (as : List α)
    (h : AllEnabled enabled next s as) :
    Reach (Guarded enabled next) s (as.foldl next s) := by
  obtain ⟨tr, hr, _⟩ := Run.of_labels as h
  exact ⟨tr, hr⟩

end Lts
