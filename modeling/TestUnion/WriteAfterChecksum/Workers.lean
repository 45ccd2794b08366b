import TestUnion.ForkPool
import Mathlib.Algebra.Order.Group.Nat

/-!
# write-after-checksum: the workers that `main` starts

* `Job`, `Pc`, `mainNext`   `main` from the test of `nthreads` on, for every process that runs it;
* `AllStarted`      every process has come to its job, or waits for its children;
* `Starts`          what is asked for with `-n` and `-m`;
* `Books`, `Inv`    the children that the initial process has at each point of its code;
* `rank`, `inv_step`   every step keeps this and makes a measure smaller, so that the fork loops end;
* `starts_iff`      the workers are those that were asked for, unless `nthreads` is 1 and there are
                    `mmap` writers too, or `mthreads + nthreads` wraps.
-/

namespace WriteAfterChecksum

open ForkPool

inductive Job where
  | writeJunk
  | mmapJunk
  deriving DecidableEq, Repr

/-- `forked` is the test of `pid` after a `fork`; `child` says that it is 0. -/
inductive Pc where
  | start
  | forkLoop (job : Job) (i : UInt64)
  | forked (job : Job) (i : UInt64) (child : Bool)
  | waitLoop (i : UInt64)
  | returned
  | work (job : Job)
  deriving DecidableEq

section
variable (nthreads mthreads : UInt64)

/-- A worker writes until it returns, or for ever. -/
def mainNext : Pc → Effect Pc
  | .start => .step (if nthreads = 1 then .work .writeJunk else .forkLoop .writeJunk 0)
  | .forkLoop .writeJunk i =>
    if i < nthreads then .fork (.forked .writeJunk i false) (.forked .writeJunk i true)
    else .step (.forkLoop .mmapJunk 0)
  | .forkLoop .mmapJunk i =>
    if i < mthreads then .fork (.forked .mmapJunk i false) (.forked .mmapJunk i true)
    else .step (.waitLoop 0)
  | .forked job i child => .step (if child = true then .work job else .forkLoop job (i + 1))
  | .waitLoop i => if i < mthreads + nthreads then .wait (.waitLoop (i + 1)) else .step .returned
  | .returned => .exit
  | .work _ => .exit

def MainStep : List (Proc Pc) → ℕ → List (Proc Pc) → Prop := Step (mainNext nthreads mthreads)

end

def initial : List (Proc Pc) := [⟨none, .start, .running⟩]

def Reached (nthreads mthreads : UInt64) (pool : List (Proc Pc)) : Prop :=
  Lts.Reach (MainStep nthreads mthreads) initial pool

def AllStarted (pool : List (Proc Pc)) : Prop :=
  ∀ p ∈ pool, (∃ job, p.state = .work job) ∨ (∃ i, p.state = .waitLoop i) ∨ p.state = .returned

/-- The process executes the job, or has executed it. -/
def executes (job : Job) (p : Proc Pc) : Bool := p.state = .work job

def isReaped (p : Proc Pc) : Bool := p.life = .reaped

/-- In every run the fork loops end, and then there are as many workers of each kind as asked for; all
processes are children of the initial one; when this one returns it has reaped them all. -/
structure Starts (nthreads mthreads : UInt64) : Prop where
  started : Lts.Inev (MainStep nthreads mthreads) AllStarted initial
  jobs : ∀ pool, Reached nthreads mthreads pool → AllStarted pool →
    pool.countP (executes .writeJunk) = nthreads.toNat ∧
      pool.countP (executes .mmapJunk) = mthreads.toNat
  parents : ∀ pool, Reached nthreads mthreads pool → ∀ p ∈ pool, p.parent = none ∨ p.parent = some 0
  reaped : ∀ pool, Reached nthreads mthreads pool → ∀ p, pool[0]? = some p → p.state = .returned →
    pool.countP isReaped = nthreads.toNat + mthreads.toNat

/-! ## the children -/

/-- the job that a child is started for -/
def Pc.job : Pc → Option Job
  | .forked job _ true => some job
  | .work job => some job
  | _ => none

def hasJob (job : Job) (p : Proc Pc) : Bool := p.state.job = some job

/-- A child is on its way to its job, or has come to it. -/
structure Kid (p : Proc Pc) : Prop where
  parent : p.parent = some 0
  state : (∃ job i, p.state = .forked job i true ∧ p.life = .running) ∨ ∃ job, p.state = .work job

structure Counts (kids : List (Proc Pc)) (writers mmappers reaped : ℕ) : Prop where
  writers : kids.countP (hasJob .writeJunk) = writers
  mmappers : kids.countP (hasJob .mmapJunk) = mmappers
  reaped : kids.countP isReaped = reaped

/-- the bound of the loop that forks the workers of a job -/
def loopBound (n m : UInt64) : Job → UInt64
  | .writeJunk => n
  | .mmapJunk => m

def afterLoop : Job → Pc
  | .writeJunk => .forkLoop .mmapJunk 0
  | .mmapJunk => .waitLoop 0

/-- `k` children are forked in the loop of the job. -/
def LoopCounts (n : UInt64) (kids : List (Proc Pc)) : Job → ℕ → Prop
  | .writeJunk, k => Counts kids k 0 0
  | .mmapJunk, k => Counts kids n.toNat k 0

def Books (n m : UInt64) (kids : List (Proc Pc)) : Pc → Prop
  | .start => kids = []
  | .forkLoop job i =>
    n ≠ 1 ∧ i.toNat ≤ (loopBound n m job).toNat ∧ LoopCounts n kids job i.toNat
  | .forked job i child =>
    child = false ∧ n ≠ 1 ∧ i.toNat < (loopBound n m job).toNat ∧
      LoopCounts n kids job (i.toNat + 1)
  | .waitLoop i => n ≠ 1 ∧ i.toNat ≤ (m + n).toNat ∧ Counts kids n.toNat m.toNat i.toNat
  | .returned => n ≠ 1 ∧ Counts kids n.toNat m.toNat (m + n).toNat
  | .work job => job = .writeJunk ∧ n = 1 ∧ kids = []

structure Inv (n m : UInt64) (root : Proc Pc) (kids : List (Proc Pc)) : Prop where
  parent : root.parent = none
  live : root.life = .running ∨
    root.life = .zombie ∧ (root.state = .returned ∨ ∃ job, root.state = .work job)
  kid : ∀ p ∈ kids, Kid p
  books : Books n m kids root.state

section
variable {n m : UInt64} {root p q : Proc Pc} {kids pool : List (Proc Pc)} {w w' r k : ℕ}

theorem Kid.job_ne (h : Kid p) : p.state.job = some .writeJunk ∨ p.state.job = some .mmapJunk := by
  have hjob (job : Job) : some job = some Job.writeJunk ∨ some job = some Job.mmapJunk := by
    cases job
    · exact .inl rfl
    · exact .inr rfl
  rcases h.state with ⟨job, i, hs, _⟩ | ⟨job, hs⟩
  · rw [hs]
    exact hjob job
  · rw [hs]
    exact hjob job

/-- Every child has one of the two jobs. -/
theorem Counts.length (h : Counts kids w w' r) (hkids : ∀ p ∈ kids, Kid p) :
    kids.length = w + w' := by
  rw [← h.writers, ← h.mmappers, List.length_eq_countP_add_countP (hasJob .writeJunk)]
  congr 1
  apply List.countP_congr
  intro p hp
  unfold hasJob
  rcases (hkids p hp).job_ne with hj | hj <;> rw [hj] <;> decide

/-- A child that is changed keeps its job, and is reaped at most in a `wait`. -/
theorem Counts.set (h : Counts kids w w' r) (hp : kids[k]? = some p)
    (hjob : q.state.job = p.state.job) (hlife : p.life ≠ .reaped) :
    Counts (kids.set k q) w w' (r + if isReaped q = true then 1 else 0) := by
  have hr := countP_set_add isReaped (b := q) hp
  have hnot : ¬ isReaped p = true := by
    unfold isReaped
    rw [decide_eq_true_eq]
    exact hlife
  rw [if_neg hnot, h.reaped] at hr
  refine ⟨?_, ?_, hr⟩
  · rw [countP_set_eq _ hp (by unfold hasJob; rw [hjob])]
    exact h.writers
  · rw [countP_set_eq _ hp (by unfold hasJob; rw [hjob])]
    exact h.mmappers

theorem Counts.append (h : Counts kids w w' r) (job : Job) (i : UInt64) :
    Counts (kids ++ [⟨some 0, .forked job i true, .running⟩])
      (w + if job = .writeJunk then 1 else 0) (w' + if job = .mmapJunk then 1 else 0) r := by
  refine ⟨?_, ?_, ?_⟩
  · rw [List.countP_append, h.writers]
    cases job <;> rfl
  · rw [List.countP_append, h.mmappers]
    cases job <;> rfl
  · rw [List.countP_append, h.reaped]
    rfl

theorem Counts.nil : Counts [] 0 0 0 := ⟨rfl, rfl, rfl⟩

theorem LoopCounts.append {job : Job} (h : LoopCounts n kids job k) (i : UInt64) :
    LoopCounts n (kids ++ [⟨some 0, .forked job i true, .running⟩]) job (k + 1) := by
  cases job with
  | writeJunk => exact Counts.append h .writeJunk i
  | mmapJunk => exact Counts.append h .mmapJunk i

theorem mainNext_forkLoop (job : Job) (i : UInt64) : mainNext n m (.forkLoop job i) =
    if i < loopBound n m job then .fork (.forked job i false) (.forked job i true)
    else .step (afterLoop job) := by
  cases job <;> rfl

theorem toNat_add_one {i l : UInt64} (h : i < l) : (i + 1).toNat = i.toNat + 1 := by
  have hlt := UInt64.lt_iff_toNat_lt.mp h
  have hl := l.toNat_lt
  rw [UInt64.toNat_add, UInt64.toNat_one, Nat.mod_eq_of_lt (by omega)]

theorem toNat_add_le : (m + n).toNat ≤ n.toNat + m.toNat := by
  rw [UInt64.toNat_add, Nat.add_comm n.toNat]
  exact Nat.mod_le _ _

theorem not_lt_toNat {i l : UInt64} (h : ¬ i < l) (hle : i.toNat ≤ l.toNat) : i.toNat = l.toNat := by
  rw [UInt64.lt_iff_toNat_lt] at h
  omega

/-! ## every step keeps the books -/

theorem kid_forked (job : Job) (i : UInt64) : Kid ⟨some 0, .forked job i true, .running⟩ :=
  ⟨rfl, .inl ⟨job, i, rfl, rfl⟩⟩

theorem forall_append (h : ∀ p ∈ kids, Kid p) (hq : Kid q) : ∀ p ∈ kids ++ [q], Kid p := by
  rw [List.forall_mem_append, List.forall_mem_singleton]
  exact ⟨h, hq⟩

theorem forall_set (h : ∀ p ∈ kids, Kid p) (hq : Kid q) : ∀ p ∈ kids.set k q, Kid p := by
  intro p hp
  rcases List.mem_or_eq_of_mem_set hp with hmem | heq
  · exact h p hmem
  · rw [heq]
    exact hq

theorem Kid.quiet (h : Kid p) : (∃ s, mainNext n m p.state = .step s) ∨
    mainNext n m p.state = .exit := by
  rcases h.state with ⟨job, i, hs, _⟩ | ⟨job, hs⟩
  · rw [hs]
    exact .inl ⟨_, rfl⟩
  · rw [hs]
    exact .inr rfl

/-- A child goes to its job, and ends after it. -/
theorem kid_cases (hi : Inv n m root kids) (hstep : MainStep n m (root :: kids) (k + 1) pool) :
    ∃ q q', kids[k]? = some q ∧ q.life = .running ∧ pool = root :: kids.set k q' ∧ Kid q' ∧
      q'.state.job = q.state.job ∧ q'.life ≠ .reaped ∧
      ((∃ job i, q.state = .forked job i true ∧ q'.state = .work job ∧ q'.life = .running) ∨
        ∃ job, q.state = .work job ∧ q'.state = .work job ∧ q'.life = .zombie) := by
  obtain ⟨q, hget, hrun, hcases⟩ := Step.kid_cases hstep fun q hq => (hi.kid q hq).quiet
  have hq := hi.kid q (List.mem_of_getElem? hget)
  rcases hq.state with ⟨job, i, hs, _⟩ | ⟨job, hs⟩
  · rw [hs] at hcases
    rcases hcases with ⟨s, heff, rfl⟩ | ⟨heff, _⟩
    · cases heff
      refine ⟨q, _, hget, hrun, rfl, ⟨hq.parent, .inr ⟨job, rfl⟩⟩, ?_, (nofun), .inl
        ⟨job, i, hs, rfl, rfl⟩⟩
      rw [hs]
      rfl
    · cases heff
  · rw [hs] at hcases
    rcases hcases with ⟨s, heff, _⟩ | ⟨_, rfl⟩
    · cases heff
    · exact ⟨q, _, hget, hrun, rfl, ⟨hq.parent, .inr ⟨job, rfl⟩⟩, by rw [hs], (nofun), .inr
        ⟨job, hs, rfl, rfl⟩⟩

/-! ## and the measure gets smaller -/

def awaitsJob (p : Proc Pc) : Bool := !(executes .writeJunk p || executes .mmapJunk p)

def isRunning (p : Proc Pc) : Bool := p.life = .running

/-- what comes after the loop of the job -/
def afterRank (m : UInt64) : Job → ℕ
  | .writeJunk => 5 * m.toNat + 8
  | .mmapJunk => 3

/-- what the initial process still has to do -/
def rootRank (n m : UInt64) : Pc → ℕ
  | .start => 5 * n.toNat + 5 * m.toNat + 20
  | .forkLoop job i => 5 * ((loopBound n m job).toNat - i.toNat) + afterRank m job + 4
  | .forked job i _ => 5 * ((loopBound n m job).toNat - i.toNat) + afterRank m job
  | .waitLoop _ => 1
  | .returned => 0
  | .work _ => 0

def kidsRank (kids : List (Proc Pc)) : ℕ :=
  kids.countP awaitsJob + kids.countP isRunning + kids.countP fun p => !isReaped p

def rank (n m : UInt64) : List (Proc Pc) → ℕ
  | [] => 0
  | root :: kids => rootRank n m root.state + (if isRunning root = true then 1 else 0) + kidsRank kids

/-- The next list keeps the books, and the measure is smaller. -/
def Goes (n m : UInt64) (pool pool' : List (Proc Pc)) : Prop :=
  ∃ root kids, pool' = root :: kids ∧ Inv n m root kids ∧ rank n m (root :: kids) < rank n m pool

theorem kidsRank_append (job : Job) (i : UInt64) :
    kidsRank (kids ++ [⟨some 0, .forked job i true, .running⟩]) = kidsRank kids + 3 := by
  unfold kidsRank
  rw [List.countP_append, List.countP_append, List.countP_append,
    show [(⟨some 0, .forked job i true, .running⟩ : Proc Pc)].countP awaitsJob = 1 from rfl,
    show [(⟨some 0, .forked job i true, .running⟩ : Proc Pc)].countP isRunning = 1 from rfl,
    show [(⟨some 0, .forked job i true, .running⟩ : Proc Pc)].countP (fun p => !isReaped p) = 1
      from rfl]
  omega

theorem kidsRank_set (hp : kids[k]? = some p) :
    kidsRank (kids.set k q) + ((if awaitsJob p = true then 1 else 0) +
        (if isRunning p = true then 1 else 0) + if (!isReaped p) = true then 1 else 0) =
      kidsRank kids + ((if awaitsJob q = true then 1 else 0) +
        (if isRunning q = true then 1 else 0) + if (!isReaped q) = true then 1 else 0) := by
  have h1 := countP_set_add awaitsJob (b := q) hp
  have h2 := countP_set_add isRunning (b := q) hp
  have h3 := countP_set_add (fun p => !isReaped p) (b := q) hp
  unfold kidsRank
  omega

theorem Books.mono {kids' : List (Proc Pc)} {pc : Pc}
    (hcounts : ∀ w w' r, Counts kids w w' r → Counts kids' w w' r) (hnil : kids = [] → kids' = [])
    (h : Books n m kids pc) : Books n m kids' pc := by
  have hloop (job : Job) (k : ℕ) (h : LoopCounts n kids job k) : LoopCounts n kids' job k := by
    cases job with
    | writeJunk => exact hcounts _ _ _ h
    | mmapJunk => exact hcounts _ _ _ h
  cases pc with
  | start => exact hnil h
  | forkLoop job i => exact ⟨h.1, h.2.1, hloop job _ h.2.2⟩
  | forked job i child => exact ⟨h.1, h.2.1, h.2.2.1, hloop job _ h.2.2.2⟩
  | waitLoop i => exact ⟨h.1, h.2.1, hcounts _ _ _ h.2.2⟩
  | returned => exact ⟨h.1, hcounts _ _ _ h.2⟩
  | work job => exact ⟨h.1, h.2.1, hnil h.2.2⟩

theorem kid_step (hi : Inv n m root kids) (hstep : MainStep n m (root :: kids) (k + 1) pool) :
    Goes n m (root :: kids) pool := by
  obtain ⟨p, q, hget, hrun, rfl, hq, hjob, hlife, hcases⟩ := kid_cases hi hstep
  have hp : p.life ≠ .reaped := by
    rw [hrun]
    nofun
  refine ⟨root, _, rfl, ⟨hi.parent, hi.live, forall_set hi.kid hq, hi.books.mono ?_ ?_⟩, ?_⟩
  · intro w w' r h
    have hset := h.set hget hjob hp
    have hnot : ¬ isReaped q = true := by
      unfold isReaped
      rw [decide_eq_true_eq]
      exact hlife
    rw [if_neg hnot] at hset
    exact hset
  · intro hnil
    rw [hnil]
    rfl
  · have hset := kidsRank_set (q := q) hget
    show _ + kidsRank _ < _ + kidsRank _
    rcases hcases with ⟨job, i, hs, hs', hl⟩ | ⟨job, hs, hs', hl⟩
    · have hp1 : awaitsJob p = true := by simp [awaitsJob, executes, hs]
      have hq1 : awaitsJob q = false := by cases job <;> simp [awaitsJob, executes, hs']
      simp [hp1, hq1, isRunning, isReaped, hrun, hl] at hset
      omega
    · have hp1 : awaitsJob p = false := by cases job <;> simp [awaitsJob, executes, hs]
      have hq1 : awaitsJob q = false := by cases job <;> simp [awaitsJob, executes, hs']
      simp [hp1, hq1, isRunning, isReaped, hrun, hl] at hset
      omega

/-- the initial process goes on, with the children that it has -/
theorem root_on {s : Pc} (hi : Inv n m root kids) (hbooks : Books n m kids s)
    (hrank : rootRank n m s < rootRank n m root.state) (hrun : root.life = .running) :
    Inv n m ⟨root.parent, s, .running⟩ kids ∧
      rank n m (⟨root.parent, s, .running⟩ :: kids) < rank n m (root :: kids) := by
  refine ⟨⟨hi.parent, .inl rfl, hi.kid, hbooks⟩, ?_⟩
  simp [rank, isRunning, hrun, hrank]

theorem root_fork {s : Pc} {job : Job} {i : UInt64} (hi : Inv n m root kids)
    (hbooks : Books n m (kids ++ [⟨some 0, .forked job i true, .running⟩]) s)
    (hrank : rootRank n m s + 3 < rootRank n m root.state) (hrun : root.life = .running) :
    Inv n m ⟨root.parent, s, .running⟩ (kids ++ [⟨some 0, .forked job i true, .running⟩]) ∧
      rank n m (⟨root.parent, s, .running⟩ :: (kids ++ [⟨some 0, .forked job i true, .running⟩])) <
        rank n m (root :: kids) := by
  refine ⟨⟨hi.parent, .inl rfl, forall_append hi.kid (kid_forked job i), hbooks⟩, ?_⟩
  simp only [rank, isRunning, hrun, kidsRank_append]
  omega

/-- A child that has ended is at its job, and a `wait` counts it. -/
theorem root_reap {i : UInt64} {j : ℕ} (hi : Inv n m root kids) (hstate : root.state = .waitLoop i)
    (hrun : root.life = .running) (hlt : i < m + n) (hget : kids[j]? = some p)
    (hp : p.life = .zombie) :
    Inv n m ⟨root.parent, .waitLoop (i + 1), .running⟩ (kids.set j ⟨p.parent, p.state, .reaped⟩) ∧
      rank n m (⟨root.parent, .waitLoop (i + 1), .running⟩ ::
        kids.set j ⟨p.parent, p.state, .reaped⟩) < rank n m (root :: kids) := by
  have hkid := hi.kid p (List.mem_of_getElem? hget)
  have hb := hi.books
  rw [hstate] at hb
  obtain ⟨hn, _, hcounts⟩ := hb
  have hset := hcounts.set (q := ⟨p.parent, p.state, .reaped⟩) hget rfl (by rw [hp]; nofun)
  have hwork : ∃ job, p.state = .work job := by
    rcases hkid.state with ⟨_, _, _, hlife⟩ | hwork
    · cases hp.symm.trans hlife
    · exact hwork
  refine ⟨⟨hi.parent, .inl rfl, forall_set hi.kid ⟨hkid.parent, .inr hwork⟩, hn, ?_, ?_⟩, ?_⟩
  · rw [toNat_add_one hlt]
    exact UInt64.lt_iff_toNat_lt.mp hlt
  · rw [toNat_add_one hlt]
    exact hset
  · have hrank := kidsRank_set (q := ⟨p.parent, p.state, .reaped⟩) hget
    rw [show awaitsJob ⟨p.parent, p.state, .reaped⟩ = awaitsJob p from rfl] at hrank
    simp [isRunning, isReaped, hp] at hrank
    simp only [rank, isRunning, hrun, hstate, rootRank]
    omega

/-- While the initial process waits for another child, one of them is not reaped yet. -/
theorem unreaped {i : UInt64} (hcounts : Counts kids n.toNat m.toNat i.toNat)
    (hkids : ∀ p ∈ kids, Kid p) (hlt : i < m + n) : ¬ ∀ q ∈ kids, q.life = .reaped := by
  intro hall
  have hlen := hcounts.length hkids
  have hreaped : kids.countP isReaped = kids.length := by
    rw [List.countP_eq_length]
    intro p hp
    unfold isReaped
    rw [hall p hp]
    rfl
  rw [hcounts.reaped] at hreaped
  have h1 := UInt64.lt_iff_toNat_lt.mp hlt
  have h2 := toNat_add_le (m := m) (n := n)
  omega

theorem root_start (hi : Inv n m root kids) (hstate : root.state = .start)
    (hstep : MainStep n m (root :: kids) 0 pool) : Goes n m (root :: kids) pool := by
  obtain ⟨hrun, hcases⟩ := Step.root_cases hstep
  have hb := hi.books
  rw [hstate] at hb hcases
  have hnil : kids = [] := hb
  by_cases hn : n = 1
  · obtain rfl : pool = ⟨root.parent, .work .writeJunk, .running⟩ :: kids := by
      simpa [mainNext, hn] using hcases
    exact ⟨_, _, rfl, root_on hi ⟨rfl, hn, hnil⟩ (by rw [hstate]; simp [rootRank]) hrun⟩
  · obtain rfl : pool = ⟨root.parent, .forkLoop .writeJunk 0, .running⟩ :: kids := by
      simpa [mainNext, hn] using hcases
    refine ⟨_, _, rfl, root_on hi ⟨hn, Nat.zero_le _, ?_⟩ ?_ hrun⟩
    · rw [hnil]
      exact Counts.nil
    · rw [hstate]
      simp [rootRank, loopBound, afterRank]
      omega

theorem root_forkLoop {job : Job} {i : UInt64} (hi : Inv n m root kids)
    (hstate : root.state = .forkLoop job i) (hstep : MainStep n m (root :: kids) 0 pool) :
    Goes n m (root :: kids) pool := by
  obtain ⟨hrun, hcases⟩ := Step.root_cases hstep
  have hb := hi.books
  rw [hstate, mainNext_forkLoop] at hcases
  rw [hstate] at hb
  obtain ⟨hn, hle, hcounts⟩ := hb
  by_cases hlt : i < loopBound n m job
  · obtain rfl : pool = ⟨root.parent, .forked job i false, .running⟩ ::
        (kids ++ [⟨some 0, .forked job i true, .running⟩]) := by
      simpa [hlt] using hcases
    exact ⟨_, _, rfl, root_fork hi
      ⟨rfl, hn, UInt64.lt_iff_toNat_lt.mp hlt, hcounts.append i⟩
      (by rw [hstate]; simp only [rootRank]; omega) hrun⟩
  · obtain rfl : pool = ⟨root.parent, afterLoop job, .running⟩ :: kids := by
      simpa [hlt] using hcases
    rw [not_lt_toNat hlt hle] at hcounts
    refine ⟨_, _, rfl, root_on hi ?_ ?_ hrun⟩
    · cases job with
      | writeJunk => exact ⟨hn, Nat.zero_le _, hcounts⟩
      | mmapJunk => exact ⟨hn, Nat.zero_le _, hcounts⟩
    · rw [hstate]
      cases job with
      | writeJunk =>
        simp [rootRank, afterLoop, afterRank, loopBound]
        omega
      | mmapJunk => simp [rootRank, afterLoop, afterRank]

theorem root_forked {job : Job} {i : UInt64} {child : Bool} (hi : Inv n m root kids)
    (hstate : root.state = .forked job i child) (hstep : MainStep n m (root :: kids) 0 pool) :
    Goes n m (root :: kids) pool := by
  obtain ⟨hrun, hcases⟩ := Step.root_cases hstep
  have hb := hi.books
  rw [hstate] at hb hcases
  obtain ⟨rfl, hn, hlt, hcounts⟩ := hb
  have hnext := toNat_add_one (UInt64.lt_iff_toNat_lt.mpr hlt)
  obtain rfl : pool = ⟨root.parent, .forkLoop job (i + 1), .running⟩ :: kids := by
    simpa [mainNext] using hcases
  refine ⟨_, _, rfl, root_on hi ⟨hn, ?_, ?_⟩ (by rw [hstate]; simp only [rootRank]; omega) hrun⟩
  · rw [hnext]
    exact hlt
  · rw [hnext]
    exact hcounts

theorem root_waitLoop {i : UInt64} (hi : Inv n m root kids) (hstate : root.state = .waitLoop i)
    (hstep : MainStep n m (root :: kids) 0 pool) : Goes n m (root :: kids) pool := by
  obtain ⟨hrun, hcases⟩ := Step.root_cases hstep
  have hb := hi.books
  rw [hstate] at hb hcases
  obtain ⟨hn, hle, hcounts⟩ := hb
  by_cases hlt : i < m + n
  · have hwait : (∃ j q, (root :: kids)[j]? = some q ∧ q.parent = some 0 ∧ q.life = .zombie ∧
          pool = ((root :: kids).set j ⟨q.parent, q.state, .reaped⟩).set 0
            ⟨root.parent, .waitLoop (i + 1), .running⟩) ∨
        ((∀ q ∈ kids, q.parent = some 0 → q.life = .reaped) ∧
          pool = ⟨root.parent, .waitLoop (i + 1), .running⟩ :: kids) := by
      simpa [mainNext, hlt] using hcases
    rcases hwait with ⟨j, q, hget, hparent, hzombie, rfl⟩ | ⟨hall, _⟩
    · -- the initial process has no parent, so it is one of the children that is reaped
      cases j with
      | zero =>
        obtain rfl : root = q := by simpa using hget
        cases hi.parent.symm.trans hparent
      | succ j => exact ⟨_, _, rfl, root_reap hi hstate hrun hlt hget hzombie⟩
    · exact absurd (fun q hq => hall q hq (hi.kid q hq).parent) (unreaped hcounts hi.kid hlt)
  · obtain rfl : pool = ⟨root.parent, .returned, .running⟩ :: kids := by
      simpa [mainNext, hlt] using hcases
    rw [not_lt_toNat hlt hle] at hcounts
    exact ⟨_, _, rfl, root_on hi ⟨hn, hcounts⟩ (by rw [hstate]; simp [rootRank]) hrun⟩

/-- The initial process ends. -/
theorem root_exit (hi : Inv n m root kids)
    (hdone : root.state = .returned ∨ ∃ job, root.state = .work job)
    (hstep : MainStep n m (root :: kids) 0 pool) : Goes n m (root :: kids) pool := by
  obtain ⟨hrun, hcases⟩ := Step.root_cases hstep
  have hexit : mainNext n m root.state = .exit := by
    rcases hdone with hstate | ⟨job, hstate⟩ <;> rw [hstate] <;> rfl
  obtain rfl : pool = ⟨root.parent, root.state, .zombie⟩ :: kids := by
    simpa [hexit] using hcases
  refine ⟨_, _, rfl, ⟨hi.parent, .inr ⟨rfl, hdone⟩, hi.kid, hi.books⟩, ?_⟩
  simp [rank, isRunning, hrun]

theorem root_step (hi : Inv n m root kids) (hstep : MainStep n m (root :: kids) 0 pool) :
    Goes n m (root :: kids) pool := by
  cases hstate : root.state with
  | start => exact root_start hi hstate hstep
  | forkLoop job i => exact root_forkLoop hi hstate hstep
  | forked job i child => exact root_forked hi hstate hstep
  | waitLoop i => exact root_waitLoop hi hstate hstep
  | returned => exact root_exit hi (.inl hstate) hstep
  | work job => exact root_exit hi (.inr ⟨job, hstate⟩) hstep

theorem inv_step (hi : Inv n m root kids) (hstep : MainStep n m (root :: kids) k pool) :
    Goes n m (root :: kids) pool := by
  cases k with
  | zero => exact root_step hi hstep
  | succ k => exact kid_step hi hstep

end

/-- the same of a list of processes -/
def Running (n m : UInt64) (pool : List (Proc Pc)) : Prop :=
  ∃ root kids, pool = root :: kids ∧ Inv n m root kids

section
variable {n m : UInt64} {root p : Proc Pc} {kids pool pool' : List (Proc Pc)} {k : ℕ}

theorem Running.step (hi : Running n m pool) (hstep : MainStep n m pool k pool') :
    Running n m pool' ∧ rank n m pool' < rank n m pool := by
  obtain ⟨root, kids, rfl, hi⟩ := hi
  obtain ⟨root', kids', rfl, hi', hrank⟩ := inv_step hi hstep
  exact ⟨⟨root', kids', rfl, hi'⟩, hrank⟩

theorem initial_running : Running n m initial :=
  ⟨_, _, rfl, rfl, .inl rfl, (fun _ hp => nomatch hp), rfl⟩

theorem Reached.running (h : Reached n m pool) : Running n m pool :=
  Lts.Reach.inv (fun _ _ _ hi hstep => (hi.step hstep).1) h initial_running

/-! ## a step can be taken -/

theorem kid_enabled (hget : kids[k]? = some p) (hp : Kid p) (hlife : p.life = .running) :
    ∃ a pool', MainStep n m (root :: kids) a pool' := by
  have hget' : (root :: kids)[k + 1]? = some p := hget
  rcases hp.quiet (n := n) (m := m) with ⟨s, heff⟩ | heff
  · exact ⟨_, _, .step hget' hlife heff⟩
  · exact ⟨_, _, .exit hget' hlife heff⟩

/-- An initial process that has neither started a job nor returned goes on, if need be after a
child. -/
theorem root_enabled (hi : Inv n m root kids) (hreturned : root.state ≠ .returned)
    (hwork : ∀ job, root.state ≠ .work job) : ∃ a pool', MainStep n m (root :: kids) a pool' := by
  have hrun : root.life = .running := by
    rcases hi.live with hrun | ⟨_, hstate | ⟨job, hstate⟩⟩
    · exact hrun
    · exact absurd hstate hreturned
    · exact absurd hstate (hwork job)
  have hget : (root :: kids)[0]? = some root := rfl
  cases hstate : root.state with
  | start => exact ⟨_, _, .step hget hrun (by rw [hstate]; rfl)⟩
  | forkLoop job i =>
    by_cases hlt : i < loopBound n m job
    · exact ⟨_, _, .fork hget hrun (by rw [hstate, mainNext_forkLoop, if_pos hlt])⟩
    · exact ⟨_, _, .step hget hrun (by rw [hstate, mainNext_forkLoop, if_neg hlt])⟩
  | forked job i child => exact ⟨_, _, .step hget hrun (by rw [hstate]; rfl)⟩
  | waitLoop i =>
    by_cases hlt : i < m + n
    · have hb := hi.books
      rw [hstate] at hb
      have hleft := unreaped hb.2.2 hi.kid hlt
      push Not at hleft
      obtain ⟨q, hq, hlife⟩ := hleft
      obtain ⟨j, hj⟩ := List.mem_iff_getElem?.mp hq
      have hkid := hi.kid q hq
      cases hl : q.life with
      | running => exact kid_enabled hj hkid hl
      | zombie =>
        have hj' : (root :: kids)[j + 1]? = some q := hj
        exact ⟨_, _, .wait hget hrun (by rw [hstate]; exact if_pos hlt) hj' hkid.parent hl⟩
      | reaped => exact absurd hl hlife
    · exact ⟨_, _, .step hget hrun (by rw [hstate]; exact if_neg hlt)⟩
  | returned => exact absurd hstate hreturned
  | work job => exact absurd hstate (hwork job)

theorem started_enabled (hi : Running n m pool) (h : ¬ AllStarted pool) :
    ∃ a pool', MainStep n m pool a pool' := by
  obtain ⟨root, kids, rfl, hi⟩ := hi
  unfold AllStarted at h
  push Not at h
  obtain ⟨p, hp, hwork, _, hreturned⟩ := h
  rcases List.mem_cons.mp hp with rfl | hp
  · exact root_enabled hi hreturned hwork
  · have hkid := hi.kid p hp
    obtain ⟨k, hk⟩ := List.mem_iff_getElem?.mp hp
    rcases hkid.state with ⟨_, _, _, hlife⟩ | ⟨job, hstate⟩
    · exact kid_enabled hk hkid hlife
    · exact absurd hstate (hwork job)

/-- In every run the fork loops end. -/
theorem inev_started : Lts.Inev (MainStep n m) AllStarted initial :=
  Lts.Inev.of_measure (rank n m)
    (fun _ hi hnot => ⟨started_enabled hi hnot, fun _ _ hstep => hi.step hstep⟩) initial
    initial_running

def Returned (n m : UInt64) (pool : List (Proc Pc)) : Prop :=
  ∃ root kids, pool = root :: kids ∧ Inv n m root kids ∧ root.state = .returned

theorem returned_enabled (hn : n ≠ 1) (hi : Running n m pool) (h : ¬ Returned n m pool) :
    ∃ a pool', True ∧ MainStep n m pool a pool' ∧ rank n m pool' < rank n m pool := by
  have hi' := hi
  obtain ⟨root, kids, rfl, hinv⟩ := hi'
  have hb := hinv.books
  have hreturned : root.state ≠ .returned := fun hstate => h ⟨root, kids, rfl, hinv, hstate⟩
  have hwork (job : Job) : root.state ≠ .work job := by
    intro hstate
    rw [hstate] at hb
    exact hn hb.2.1
  obtain ⟨a, pool', hstep⟩ := root_enabled hinv hreturned hwork
  exact ⟨a, pool', trivial, hstep, (hi.step hstep).2⟩

/-- Unless `nthreads` is 1, the initial process can return. -/
theorem exists_returned (hn : n ≠ 1) : ∃ pool, Reached n m pool ∧ Returned n m pool := by
  obtain ⟨tr, pool, hrun, hreturned, _⟩ :=
    @Lts.Run.exists_of_measure _ _ (MainStep n m) (Running n m) (Returned n m) (fun _ => True)
      (rank n m) (fun _ _ _ hi hstep => (hi.step hstep).1)
      (fun _ hi hnot => returned_enabled hn hi hnot) initial initial_running
  exact ⟨pool, ⟨tr, hrun⟩, hreturned⟩

/-! ## what a run has started -/

theorem executes_eq_hasJob (job : Job) (hi : Inv n m root kids) (h : AllStarted (root :: kids))
    (hp : p ∈ kids) : executes job p = hasJob job p := by
  have hstate : ∃ job', p.state = .work job' := by
    rcases (hi.kid p hp).state with ⟨job', i, hs, _⟩ | hwork
    · rcases h p (List.mem_cons_of_mem _ hp) with ⟨_, hs'⟩ | ⟨_, hs'⟩ | hs'
      · cases hs.symm.trans hs'
      · cases hs.symm.trans hs'
      · cases hs.symm.trans hs'
    · exact hwork
  obtain ⟨job', hs⟩ := hstate
  unfold executes hasJob
  rw [hs]
  simp [Pc.job]

theorem countP_executes (job : Job) (hi : Inv n m root kids) (h : AllStarted (root :: kids)) :
    (root :: kids).countP (executes job) =
      kids.countP (hasJob job) + if root.state = .work job then 1 else 0 := by
  have hkids : kids.countP (executes job) = kids.countP (hasJob job) := by
    apply List.countP_congr
    intro p hp
    rw [executes_eq_hasJob job hi h hp]
  rw [List.countP_cons, hkids]
  simp [executes]

/-- With more than one writer, or none, all are children; a single one is the initial process. -/
theorem started_jobs (hi : Inv n m root kids) (h : AllStarted (root :: kids)) :
    (root :: kids).countP (executes .writeJunk) = n.toNat ∧
      (root :: kids).countP (executes .mmapJunk) = if n = 1 then 0 else m.toNat := by
  rw [countP_executes .writeJunk hi h, countP_executes .mmapJunk hi h]
  have hb := hi.books
  rcases h root List.mem_cons_self with ⟨job, hs⟩ | ⟨i, hs⟩ | hs
  · rw [hs] at hb
    obtain ⟨rfl, rfl, rfl⟩ := hb
    rw [hs]
    exact ⟨rfl, rfl⟩
  · rw [hs] at hb
    rw [hs, if_neg hb.1, hb.2.2.writers, hb.2.2.mmappers]
    exact ⟨rfl, rfl⟩
  · rw [hs] at hb
    rw [hs, if_neg hb.1, hb.2.writers, hb.2.mmappers]
    exact ⟨rfl, rfl⟩

theorem Inv.parents (hi : Inv n m root kids) :
    ∀ p ∈ root :: kids, p.parent = none ∨ p.parent = some 0 := by
  intro p hp
  rcases List.mem_cons.mp hp with rfl | hp
  · exact .inl hi.parent
  · exact .inr (hi.kid p hp).parent

/-- The last loop waits for `mthreads + nthreads` children, in the arithmetic of `size_t`. -/
theorem returned_reaped (hi : Inv n m root kids) (hs : root.state = .returned) :
    (root :: kids).countP isReaped = (m + n).toNat := by
  have hb := hi.books
  rw [hs] at hb
  have hroot : ¬ isReaped root = true := by
    unfold isReaped
    rw [decide_eq_true_eq]
    rcases hi.live with hlife | ⟨hlife, _⟩
    · rw [hlife]
      nofun
    · rw [hlife]
      nofun
  rw [List.countP_cons_of_neg hroot]
  exact hb.2.reaped

end

/-! ## the workers that were asked for -/

section
variable {n m : UInt64}

theorem starts_of (hone : n = 1 → m = 0) (hroom : n.toNat + m.toNat < 2 ^ 64) : Starts n m := by
  refine ⟨inev_started, ?_, ?_, ?_⟩
  · intro pool hreached hall
    obtain ⟨root, kids, rfl, hi⟩ := hreached.running
    obtain ⟨hwriters, hmmappers⟩ := started_jobs hi hall
    refine ⟨hwriters, ?_⟩
    rw [hmmappers]
    split
    · rw [hone ‹_›]
      rfl
    · rfl
  · intro pool hreached
    obtain ⟨root, kids, rfl, hi⟩ := hreached.running
    exact hi.parents
  · intro pool hreached p hp hs
    obtain ⟨root, kids, rfl, hi⟩ := hreached.running
    cases hp
    rw [returned_reaped hi hs, UInt64.toNat_add, Nat.add_comm m.toNat, Nat.mod_eq_of_lt hroom]

/-- A single writer is the initial process, which does not come to the loop for the others. -/
theorem Starts.mmap_zero (h : Starts 1 m) : m = 0 := by
  have hstep : MainStep 1 m initial 0 [⟨none, .work .writeJunk, .running⟩] :=
    .step (p := ⟨none, .start, .running⟩) rfl rfl rfl
  have hjobs := h.jobs _ ((Lts.Reach.refl _).tail hstep) (by
    intro p hp
    rw [List.mem_singleton.mp hp]
    exact .inl ⟨_, rfl⟩)
  exact UInt64.toNat_inj.mp hjobs.2.symm

theorem Starts.roomy (h : Starts n m) : n.toNat + m.toNat < 2 ^ 64 := by
  by_cases hn : n = 1
  · subst hn
    rw [h.mmap_zero]
    decide
  · obtain ⟨pool, hreached, root, kids, rfl, hi, hs⟩ := exists_returned (m := m) hn
    have hreaped := h.reaped _ hreached root rfl hs
    rw [returned_reaped hi hs] at hreaped
    rw [← hreaped]
    exact (m + n).toNat_lt

end

/-- The program starts what it is asked for, unless it is asked for one writer and for `mmap`
writers too. -/
theorem starts_iff (n m : UInt64) : Starts n m ↔ (n = 1 → m = 0) ∧ n.toNat + m.toNat < 2 ^ 64 := by
  constructor
  · intro h
    refine ⟨?_, h.roomy⟩
    rintro rfl
    exact h.mmap_zero
  · intro h
    exact starts_of h.1 h.2

/-- `-m 4`, with the one writer that is the default -/
theorem not_starts : ¬ Starts 1 4 := by
  intro h
  exact absurd h.mmap_zero (by decide)

end WriteAfterChecksum
