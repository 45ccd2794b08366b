import TestUnion.Lts

/-!
# Processes that fork and wait

A program is what a process in each of its states does next.  Nothing here names a particular one.

* `Effect`, `Proc`  the calls that matter, and a process with its parent;
* `Step prog`       one process makes its next step; a forked process is added at the end of the list;
* `countP_set_add`  how many processes have a property after one of them is changed;
* `Step.root_cases`, `Step.kid_cases`   a step of the first process, and one of another process that
                    neither forks nor waits.
-/

namespace ForkPool

inductive Effect (σ : Type*) where
  | step (next : σ)
  | fork (parent child : σ)
  | wait (next : σ)
  | exit

inductive Life where
  | running
  | zombie
  | reaped
  deriving DecidableEq, Repr

/-- The parent is given by its place in the list. -/
structure Proc (σ : Type*) where
  parent : Option ℕ
  state : σ
  life : Life

section
variable {σ : Type*} (prog : σ → Effect σ)

/-- A `wait` reaps a child that has ended; it fails when there is none left. -/
inductive Step : List (Proc σ) → ℕ → List (Proc σ) → Prop
  | step {pool k p s} (get : pool[k]? = some p) (run : p.life = .running)
    (eff : prog p.state = .step s) : Step pool k (pool.set k ⟨p.parent, s, .running⟩)
  | fork {pool k p s c} (get : pool[k]? = some p) (run : p.life = .running)
    (eff : prog p.state = .fork s c) :
    Step pool k (pool.set k ⟨p.parent, s, .running⟩ ++ [⟨some k, c, .running⟩])
  | wait {pool k p s j q} (get : pool[k]? = some p) (run : p.life = .running)
    (eff : prog p.state = .wait s) (child : pool[j]? = some q) (parent : q.parent = some k)
    (ended : q.life = .zombie) :
    Step pool k ((pool.set j ⟨q.parent, q.state, .reaped⟩).set k ⟨p.parent, s, .running⟩)
  | echild {pool k p s} (get : pool[k]? = some p) (run : p.life = .running)
    (eff : prog p.state = .wait s) (none : ∀ q ∈ pool, q.parent = some k → q.life = .reaped) :
    Step pool k (pool.set k ⟨p.parent, s, .running⟩)
  | exit {pool k p} (get : pool[k]? = some p) (run : p.life = .running)
    (eff : prog p.state = .exit) : Step pool k (pool.set k ⟨p.parent, p.state, .zombie⟩)

end

/-! ## counting -/

section
variable {α : Type*} {l : List α} {k : ℕ} {a b : α} (q : α → Bool)

theorem countP_set_add (h : l[k]? = some a) :
    (l.set k b).countP q + (if q a = true then 1 else 0) =
      l.countP q + if q b = true then 1 else 0 := by
  obtain ⟨hk, rfl⟩ := List.getElem?_eq_some_iff.mp h
  rw [List.countP_set hk]
  by_cases hq : q l[k] = true
  · have hpos : 0 < l.countP q := List.countP_pos_iff.mpr ⟨_, List.getElem_mem hk, hq⟩
    rw [if_pos hq]
    omega
  · rw [if_neg hq]
    omega

theorem countP_set_eq (h : l[k]? = some a) (hq : q b = q a) :
    (l.set k b).countP q = l.countP q := by
  have hadd := countP_set_add q (b := b) h
  rw [hq] at hadd
  omega

end

/-! ## the first process and the others -/

section
variable {σ : Type*} {prog : σ → Effect σ} {root : Proc σ} {kids pool : List (Proc σ)}

theorem Step.root_cases (h : Step prog (root :: kids) 0 pool) :
    root.life = .running ∧
      ((∃ s, prog root.state = .step s ∧ pool = ⟨root.parent, s, .running⟩ :: kids) ∨
        (∃ s c, prog root.state = .fork s c ∧
          pool = ⟨root.parent, s, .running⟩ :: (kids ++ [⟨some 0, c, .running⟩])) ∨
        (∃ s, prog root.state = .wait s ∧
          ((∃ j q, (root :: kids)[j]? = some q ∧ q.parent = some 0 ∧ q.life = .zombie ∧
              pool = ((root :: kids).set j ⟨q.parent, q.state, .reaped⟩).set 0
                ⟨root.parent, s, .running⟩) ∨
            ((∀ q ∈ kids, q.parent = some 0 → q.life = .reaped) ∧
              pool = ⟨root.parent, s, .running⟩ :: kids))) ∨
        (prog root.state = .exit ∧ pool = ⟨root.parent, root.state, .zombie⟩ :: kids)) := by
  cases h with
  | step get run eff =>
    cases get
    exact ⟨run, .inl ⟨_, eff, rfl⟩⟩
  | fork get run eff =>
    cases get
    exact ⟨run, .inr (.inl ⟨_, _, eff, rfl⟩)⟩
  | wait get run eff child parent ended =>
    cases get
    exact ⟨run, .inr (.inr (.inl ⟨_, eff, .inl ⟨_, _, child, parent, ended, rfl⟩⟩))⟩
  | echild get run eff none =>
    cases get
    exact ⟨run, .inr (.inr (.inl ⟨_, eff, .inr
      ⟨fun q hq => none q (List.mem_cons_of_mem _ hq), rfl⟩⟩))⟩
  | exit get run eff =>
    cases get
    exact ⟨run, .inr (.inr (.inr ⟨eff, rfl⟩))⟩

theorem Step.kid_cases {k : ℕ} (h : Step prog (root :: kids) (k + 1) pool)
    (hquiet : ∀ q ∈ kids, (∃ s, prog q.state = .step s) ∨ prog q.state = .exit) :
    ∃ q, kids[k]? = some q ∧ q.life = .running ∧
      ((∃ s, prog q.state = .step s ∧ pool = root :: kids.set k ⟨q.parent, s, .running⟩) ∨
        (prog q.state = .exit ∧ pool = root :: kids.set k ⟨q.parent, q.state, .zombie⟩)) := by
  have hno {q : Proc σ} (hq : kids[k]? = some q) : (∃ s, prog q.state = .step s) ∨
      prog q.state = .exit := hquiet q (List.mem_of_getElem? hq)
  cases h with
  | step get run eff => exact ⟨_, get, run, .inl ⟨_, eff, rfl⟩⟩
  | fork get run eff =>
    rcases hno get with ⟨s, hs⟩ | hs <;> cases eff.symm.trans hs
  | wait get run eff child parent ended =>
    rcases hno get with ⟨s, hs⟩ | hs <;> cases eff.symm.trans hs
  | echild get run eff none =>
    rcases hno get with ⟨s, hs⟩ | hs <;> cases eff.symm.trans hs
  | exit get run eff => exact ⟨_, get, run, .inr ⟨eff, rfl⟩⟩

end

end ForkPool
