import Mathlib.Data.List.Basic
import Mathlib.Tactic.Common

/-!
# Loops that may raise an exception

* `bind_eq_ok`    a sequence of two steps ends well iff both do;
* `bind_eq_error`, `foldlM_error`   the step of a sequence, or of a loop, that raised the exception;
* `foldlM_inv`    the invariant rule of a loop over a list that ended well;
* `foldlM_total`  the rule that also shows that the loop ends well;
* `foldlM_congr`, `foldlM_flatMap`   loops with equal bodies, and a loop inside a loop;
* `whileLoop`     a loop with a condition, for a number of rounds at most;
* `whileLoop_inv`, `whileLoop_total`   its invariant rule, and the rule with a variant.

The invariant `I pre s` is about the members `pre` that are done and the state `s`.
-/

namespace ExceptLoop

universe u

variable {ε α : Type*} {σ τ : Type u}

@[simp] theorem bind_eq_ok {x : Except ε σ} {f : σ → Except ε τ} {b : τ} :
    x >>= f = .ok b ↔ ∃ a, x = .ok a ∧ f a = .ok b := by
  cases x with
  | error e =>
    refine ⟨?_, ?_⟩
    · intro h
      cases h
    · intro hex
      obtain ⟨a, h, _⟩ := hex
      cases h
  | ok a =>
    refine ⟨?_, ?_⟩
    · intro h
      exact ⟨a, rfl, h⟩
    · intro hall
      obtain ⟨a', h, h'⟩ := hall
      cases h
      exact h'

@[simp] theorem bind_eq_error {x : Except ε σ} {f : σ → Except ε τ} {e : ε} :
    x >>= f = .error e ↔ x = .error e ∨ ∃ a, x = .ok a ∧ f a = .error e := by
  cases x with
  | error e' =>
    refine ⟨?_, ?_⟩
    · intro h
      cases h
      exact .inl rfl
    · rintro (h | ⟨a, h, _⟩)
      · cases h
        rfl
      · cases h
  | ok a =>
    refine ⟨?_, ?_⟩
    · intro h
      exact .inr ⟨a, rfl, h⟩
    · rintro (h | ⟨a', h, h'⟩)
      · cases h
      · cases h
        exact h'

variable {f : σ → α → Except ε σ} {I : List α → σ → Prop} {l : List α} {s s' : σ}

theorem foldlM_inv (h0 : I [] s)
    (hstep : ∀ pre a post s s', l = pre ++ a :: post → I pre s → f s a = .ok s' →
      I (pre ++ [a]) s')
    (h : l.foldlM f s = .ok s') : I l s' := by
  have key : ∀ rest pre s, l = pre ++ rest → I pre s → rest.foldlM f s = .ok s' → I l s' := by
    intro rest
    induction rest with
    | nil =>
      intro pre s hl hi hr
      rw [List.append_nil] at hl
      cases hr
      rw [hl]
      exact hi
    | cons a rest ih =>
      intro pre s hl hi hr
      rw [List.foldlM_cons, bind_eq_ok] at hr
      obtain ⟨u, hu, hr⟩ := hr
      apply ih (pre ++ [a]) u
      · rw [hl, List.append_assoc]
        rfl
      · exact hstep pre a rest s u hl hi hu
      · exact hr
  exact key l [] s rfl h0 h

theorem foldlM_total (h0 : I [] s)
    (hstep : ∀ pre a post s, l = pre ++ a :: post → I pre s →
      ∃ s', f s a = .ok s' ∧ I (pre ++ [a]) s') :
    ∃ s', l.foldlM f s = .ok s' ∧ I l s' := by
  have key : ∀ rest pre s, l = pre ++ rest → I pre s →
      ∃ s', rest.foldlM f s = .ok s' ∧ I l s' := by
    intro rest
    induction rest with
    | nil =>
      intro pre s hl hi
      rw [List.append_nil] at hl
      rw [hl]
      exact ⟨s, rfl, hi⟩
    | cons a rest ih =>
      intro pre s hl hi
      obtain ⟨u, hu, hiu⟩ := hstep pre a rest s hl hi
      obtain ⟨s', hs', hi'⟩ := ih (pre ++ [a]) u (by rw [hl, List.append_assoc]; rfl) hiu
      refine ⟨s', ?_, hi'⟩
      rw [List.foldlM_cons, hu]
      exact hs'
  exact key l [] s rfl h0

theorem foldlM_error {e : ε} (h : l.foldlM f s = .error e) :
    ∃ pre a post u, l = pre ++ a :: post ∧ pre.foldlM f s = .ok u ∧ f u a = .error e := by
  induction l generalizing s with
  | nil => cases h
  | cons a l ih =>
    rw [List.foldlM_cons, bind_eq_error] at h
    rcases h with h | ⟨u, hu, h⟩
    · exact ⟨[], a, l, s, rfl, rfl, h⟩
    · obtain ⟨pre, b, post, v, rfl, hv, hb⟩ := ih h
      refine ⟨a :: pre, b, post, v, rfl, ?_, hb⟩
      rw [List.foldlM_cons, hu]
      exact hv

theorem foldlM_congr {g : σ → α → Except ε σ} (h : ∀ a ∈ l, ∀ s, f s a = g s a) (s : σ) :
    l.foldlM f s = l.foldlM g s := by
  induction l generalizing s with
  | nil => rfl
  | cons a l ih =>
    rw [List.foldlM_cons, List.foldlM_cons, h a (List.mem_cons_self ..)]
    congr 1
    funext u
    exact ih (fun b hb => h b (List.mem_cons_of_mem _ hb)) u

/-- a loop inside a loop -/
theorem foldlM_flatMap {β : Type*} (g : β → List α) (m : List β) (s : σ) :
    (m.flatMap g).foldlM f s = m.foldlM (fun s b => (g b).foldlM f s) s := by
  induction m generalizing s with
  | nil => rfl
  | cons b m ih =>
    rw [List.flatMap_cons, List.foldlM_append, List.foldlM_cons]
    congr 1
    funext u
    exact ih u

/-! ## while -/

/-- `endless` is raised when the condition still holds after `fuel` rounds. -/
def whileLoop (endless : ε) (cond : σ → Prop) [DecidablePred cond] (body : σ → Except ε σ) :
    ℕ → σ → Except ε σ
  | 0, s => if cond s then .error endless else .ok s
  | fuel + 1, s => if cond s then body s >>= whileLoop endless cond body fuel else .ok s

section
variable {endless : ε} {cond : σ → Prop} [DecidablePred cond] {body : σ → Except ε σ}
  {I : σ → Prop} {s s' : σ}

theorem whileLoop_done (h : ¬ cond s) (fuel : ℕ) : whileLoop endless cond body fuel s = .ok s := by
  cases fuel with
  | zero => exact if_neg h
  | succ fuel => exact if_neg h

theorem whileLoop_inv {fuel : ℕ} (h0 : I s)
    (hstep : ∀ s s', I s → cond s → body s = .ok s' → I s')
    (h : whileLoop endless cond body fuel s = .ok s') : I s' ∧ ¬ cond s' := by
  induction fuel generalizing s with
  | zero =>
    rw [whileLoop] at h
    split at h
    · cases h
    · next hc =>
      cases h
      exact ⟨h0, hc⟩
  | succ fuel ih =>
    rw [whileLoop] at h
    split at h
    · next hc =>
      obtain ⟨u, hu, hr⟩ := bind_eq_ok.mp h
      exact ih (hstep s u h0 hc hu) hr
    · next hc =>
      cases h
      exact ⟨h0, hc⟩

/-- The variant `v` bounds the number of rounds. -/
theorem whileLoop_total {v : σ → ℕ}
    (hstep : ∀ s, I s → cond s → ∃ s', body s = .ok s' ∧ I s' ∧ v s' < v s) {n : ℕ} (h0 : I s)
    (hv : v s ≤ n) : ∃ s', ∀ fuel, n ≤ fuel → whileLoop endless cond body fuel s = .ok s' := by
  induction n generalizing s with
  | zero =>
    have hc : ¬ cond s := by
      intro hc
      obtain ⟨u, _, _, hlt⟩ := hstep s h0 hc
      omega
    exact ⟨s, fun fuel _ => whileLoop_done hc fuel⟩
  | succ n ih =>
    by_cases hc : cond s
    · obtain ⟨u, hu, hi, hlt⟩ := hstep s h0 hc
      obtain ⟨s', hs'⟩ := ih hi (by omega)
      refine ⟨s', ?_⟩
      intro fuel hn
      cases fuel with
      | zero => omega
      | succ fuel =>
        rw [whileLoop, if_pos hc]
        exact bind_eq_ok.mpr ⟨u, hu, hs' fuel (by omega)⟩
    · exact ⟨s, fun fuel _ => whileLoop_done hc fuel⟩

end

end ExceptLoop
