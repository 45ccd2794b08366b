import TestUnion.Snapstorm.Sound

/-!
# snapstorm: no reachable state is deadlocked

`rank` is lexicographic: first the steps the workers still have to make, then the steps of `main`
until it needs a worker.  In every living reachable state some thread has a step of its own code
that makes the rank smaller (`helpful`), so every such state can be run to its end by proper steps
alone (`can_finish`).  `barrier_holds` puts the results together.
-/

namespace Snapstorm

open Threads

variable {n : ℕ}

/-! ## the rank -/

/-- steps left for a worker; before `can_start` is set a worker goes to sleep, afterwards it leaves
its wait loop -/
def WorkerPc.rank (go : Bool) : WorkerPc → ℕ
  | .unborn => 20
  | .lockStart => 19
  | .incReady => 18
  | .testStart => if go then 9 else 16
  | .asleep => 15
  | .woken => if go then 10 else 17
  | .unlockStart => 8
  | .snprintf => 7
  | .doSnap => 6
  | .lockEnd => 5
  | .incFinished => 4
  | .unlockEnd => 3
  | .returned => 0

/-- steps left for `main`; a test that fails sends it back to the lock -/
def mainRank (s : St n) : ℕ :=
  match s.main with
  | .create i => n - i + 30
  | .lockReady => 21
  | .testReady => if s.nrReady < n then 23 else 20
  | .unlockPoll => 22
  | .unlockReady => 19
  | .lockGo => 18
  | .setStart => 17
  | .broadcast => 16
  | .unlockGo => 15
  | .lockEnd => 11
  | .testFinished => if s.nrFinished < n then 13 else 10
  | .unlockEnd => 12
  | .returned => 0

def rank (s : St n) : ℕ := total (WorkerPc.rank s.canStart) s.worker * (n + 31) + mainRank s

theorem mainRank_lt (s : St n) : mainRank s < n + 31 := by
  unfold mainRank
  split <;> first | omega | (split <;> omega)

theorem rank_lt_of_worker {s t : St n}
    (h : total (WorkerPc.rank t.canStart) t.worker < total (WorkerPc.rank s.canStart) s.worker) :
    rank t < rank s := by
  have hm := mainRank_lt t
  have := Nat.mul_le_mul_right (n + 31) (Nat.succ_le_of_lt h)
  rw [Nat.succ_mul] at this
  unfold rank
  omega

theorem rank_lt_of_main {s t : St n}
    (h : total (WorkerPc.rank t.canStart) t.worker ≤ total (WorkerPc.rank s.canStart) s.worker)
    (hm : mainRank t < mainRank s) : rank t < rank s := by
  have := Nat.mul_le_mul_right (n + 31) h
  unfold rank
  omega

theorem rank_setStart (pc : WorkerPc) : pc.rank true ≤ pc.rank false := by cases pc <;> decide

theorem rank_wake (go : Bool) (pc : WorkerPc) (h : go = true) :
    (wake pc).rank go ≤ pc.rank go := by
  subst h
  cases pc <;> decide

/-! ## every step of a thread's own code that gets it further -/

/-- A worker's own step makes the rank smaller. -/
theorem rank_nextWorker {s : St n} (i : Fin n) (he : workerEnabled s i) :
    rank (nextWorker s i) < rank s := by
  unfold workerEnabled at he
  have key (pc : WorkerPc) (t : St n) (hw : t.worker = Function.update s.worker i pc)
      (hc : t.canStart = s.canStart) (hlt : pc.rank s.canStart < (s.worker i).rank s.canStart) :
      rank t < rank s := by
    apply rank_lt_of_worker
    rw [hw, hc]
    exact total_update_lt hlt
  unfold nextWorker
  cases hi : s.worker i with
  | unborn => rw [hi] at he; exact he.elim
  | asleep => rw [hi] at he; exact he.elim
  | returned => rw [hi] at he; exact he.elim
  | testStart =>
    simp only
    split
    · next hc => exact key .unlockStart _ rfl rfl (by rw [hi, hc]; decide)
    · next hc =>
      have hc' : s.canStart = false := by simpa using hc
      exact key .asleep _ rfl rfl (by rw [hi, hc']; decide)
  | lockStart => exact key .incReady _ rfl rfl (by rw [hi]; cases s.canStart <;> decide)
  | incReady => exact key .testStart _ rfl rfl (by rw [hi]; cases s.canStart <;> decide)
  | woken => exact key .testStart _ rfl rfl (by rw [hi]; cases s.canStart <;> decide)
  | unlockStart => exact key .snprintf _ rfl rfl (by rw [hi]; cases s.canStart <;> decide)
  | snprintf => exact key .doSnap _ rfl rfl (by rw [hi]; cases s.canStart <;> decide)
  | doSnap => exact key .lockEnd _ rfl rfl (by rw [hi]; cases s.canStart <;> decide)
  | lockEnd => exact key .incFinished _ rfl rfl (by rw [hi]; cases s.canStart <;> decide)
  | incFinished => exact key .unlockEnd _ rfl rfl (by rw [hi]; cases s.canStart <;> decide)
  | unlockEnd => exact key .returned _ rfl rfl (by rw [hi]; cases s.canStart <;> decide)

/-- A step of `main` makes the rank smaller unless it takes a lock to run a test that fails. -/
theorem rank_nextMain {s : St n} (h : Inv s) (hr : s.main ≠ .returned)
    (hready : s.main = .lockReady → s.nrReady = n) (hend : s.main = .lockEnd → s.nrFinished = n) :
    rank (nextMain s) < rank s := by
  unfold nextMain
  cases hm : s.main with
  | create k =>
    simp only
    split
    · next hk =>
      apply rank_lt_of_worker
      apply total_update_lt
      rw [(h.born ⟨k, hk⟩).mpr ⟨k, Nat.le_refl k, hm⟩]
      show 19 < 20
      omega
    · exact rank_lt_of_main (Nat.le_refl _) (by simp only [mainRank, hm]; omega)
  | lockReady =>
    have hn := hready hm
    exact rank_lt_of_main (Nat.le_refl _) (by simp [mainRank, hm, hn])
  | testReady =>
    simp only
    split
    · next hlt => exact rank_lt_of_main (Nat.le_refl _) (by simp [mainRank, hm, hlt])
    · next hlt => exact rank_lt_of_main (Nat.le_refl _) (by simp [mainRank, hm, hlt])
  | setStart =>
    have hc : s.canStart = false := by rw [h.can, hm]; rfl
    apply rank_lt_of_main
    · rw [hc]
      exact total_le fun i => rank_setStart _
    · simp [mainRank, hm]
  | broadcast =>
    have hc : s.canStart = true := by rw [h.can, hm]; rfl
    apply rank_lt_of_main
    · exact total_le fun i => rank_wake _ _ hc
    · simp [mainRank, hm]
  | lockEnd =>
    have hn := hend hm
    exact rank_lt_of_main (Nat.le_refl _) (by simp [mainRank, hm, hn])
  | testFinished =>
    simp only
    split
    · next hlt => exact rank_lt_of_main (Nat.le_refl _) (by simp [mainRank, hm, hlt])
    · next hlt => exact rank_lt_of_main (Nat.le_refl _) (by simp [mainRank, hm, hlt])
  | returned => exact absurd hm hr
  | unlockPoll => exact rank_lt_of_main (Nat.le_refl _) (by simp [mainRank, hm])
  | unlockReady => exact rank_lt_of_main (Nat.le_refl _) (by simp [mainRank, hm])
  | lockGo => exact rank_lt_of_main (Nat.le_refl _) (by simp [mainRank, hm])
  | unlockGo => exact rank_lt_of_main (Nat.le_refl _) (by simp [mainRank, hm])
  | unlockEnd => exact rank_lt_of_main (Nat.le_refl _) (by simp [mainRank, hm])

/-! ## somebody can always move -/

/-- A worker that cannot move while both mutexes are free sleeps or has returned. -/
theorem worker_stuck {s : St n} {i : Fin n} (hs : s.mStart = none) (he : s.mEnd = none)
    (hb : s.worker i ≠ .unborn) (hno : ¬ workerEnabled s i) :
    s.worker i = .asleep ∨ s.worker i = .returned := by
  unfold workerEnabled at hno
  cases hi : s.worker i <;> rw [hi] at hno <;> simp_all

/-- The owner of a mutex is not at a lock. -/
theorem owner_enabled {s : St n} {i : Fin n}
    (h : (s.worker i).holdsStart = true ∨ (s.worker i).holdsEnd = true) : workerEnabled s i := by
  unfold workerEnabled
  cases hi : s.worker i <;> rw [hi] at h <;>
    simp_all [WorkerPc.holdsStart, WorkerPc.holdsEnd]

theorem Inv.returned_all {s : St n} (h : Inv s) (hm : s.main = .returned) (i : Fin n) :
    s.worker i = .returned := by
  have hc : (s.worker i).counted = true := by
    apply all_of_count_eq
    rw [← h.done, h.all hm, Fintype.card_fin]
  -- a worker at its last unlock would hold `m_end`, which `main` holds
  have hmain : holdsEnd s.main s.worker .main = true := by rw [hm]; rfl
  cases hi : s.worker i with
  | returned => rfl
  | unlockEnd =>
    have hw : holdsEnd s.main s.worker (.worker i) = true := by
      show (s.worker i).holdsEnd = true
      rw [hi]
      rfl
    cases h.fin.unique hmain hw
  | _ => rw [hi] at hc; cases hc

/-- In every living state with the invariant some thread has a step of its own code that makes the
rank smaller. -/
theorem helpful {s : St n} (h : Inv s) (ha : alive s) :
    ∃ a t, a.proper ∧ Step s a t ∧ rank t < rank s := by
  by_cases hw : ∃ i, workerEnabled s i
  · obtain ⟨i, hi⟩ := hw
    exact ⟨.worker i, _, trivial, ⟨⟨ha, hi⟩, rfl⟩, rank_nextWorker i hi⟩
  -- no worker can move, so no worker owns a mutex
  have hnw : ∀ i, ¬ workerEnabled s i := fun i hi => hw ⟨i, hi⟩
  have hstart : s.main.holdsStart = false → s.mStart = none := by
    intro hm
    cases ho : s.mStart with
    | none => rfl
    | some t =>
      have ht := (h.start t).mp ho
      cases t with
      | main => rw [show s.main.holdsStart = true from ht] at hm; cases hm
      | worker i => exact absurd (owner_enabled (.inl ht)) (hnw i)
  have hend : s.main.holdsEnd = false → s.mEnd = none := by
    intro hm
    cases ho : s.mEnd with
    | none => rfl
    | some t =>
      have ht := (h.fin t).mp ho
      cases t with
      | main => rw [show s.main.holdsEnd = true from ht] at hm; cases hm
      | worker i => exact absurd (owner_enabled (.inr ht)) (hnw i)
  have hstuck : s.main.holdsStart = false → s.main.holdsEnd = false → (∀ k, s.main ≠ .create k) →
      ∀ i, s.worker i = .asleep ∨ s.worker i = .returned := fun h1 h2 h3 i =>
    worker_stuck (hstart h1) (hend h2) (h.all_born (fun k e => absurd e (h3 k)) i) (hnw i)
  have hen : mainEnabled s := by
    unfold mainEnabled
    split
    · next hm => exact hstart (by rw [hm]; rfl)
    · next hm => exact hstart (by rw [hm]; rfl)
    · next hm => exact hend (by rw [hm]; rfl)
    · trivial
  refine ⟨.main, _, trivial, ⟨⟨ha, hen⟩, rfl⟩, rank_nextMain h ha.2 ?_ ?_⟩
  · intro hm
    -- all workers sleep or have returned: all of them are counted in `nr_ready`
    have hall : ∀ i, (s.worker i).ready = true := by
      intro i
      rcases hstuck (by rw [hm]; rfl) (by rw [hm]; rfl) (by simp [hm]) i with e | e <;> rw [e] <;> rfl
    rw [h.ready, count_eq_of_all hall, Fintype.card_fin]
  · intro hm
    have hc : s.canStart = true := by rw [h.can, hm]; rfl
    have hall : ∀ i, (s.worker i).counted = true := by
      intro i
      rcases hstuck (by rw [hm]; rfl) (by rw [hm]; rfl) (by simp [hm]) i with e | e
      · have := h.awake i e hc
        rw [hm] at this
        cases this
      · rw [e]
        rfl
    rw [h.done, count_eq_of_all hall, Fintype.card_fin]

/-- a run that kills nobody goes on to its end -/
theorem alive_step {s t : St n} {a : Act n} (hk : s.killed = false) (hp : a.proper)
    (hst : Step s a t) : t.killed = false := by
  obtain ⟨_, rfl⟩ := hst
  cases a with
  | main =>
    show (nextMain s).killed = false
    unfold nextMain
    split <;> first | exact hk | (split <;> exact hk)
  | worker i =>
    show (nextWorker s i).killed = false
    unfold nextWorker
    split <;> first | exact hk | (split <;> exact hk)
  | spurious i => exact hp.elim
  | fault i => exact hp.elim

theorem Inv.can_finish {s : St n} (h : Inv s) (hk : s.killed = false) :
    ∃ tr t, Lts.Run Step s tr t ∧ finished t ∧ ∀ x ∈ tr, x.2.1.proper := by
  -- a proper step kills nobody, so the rule is applied to the proper steps alone
  have hrun := @Lts.Run.exists_of_measure _ _ (fun s a t => Step s a t ∧ a.proper)
    (fun s : St n => Inv s ∧ s.killed = false) finished Act.proper rank
    (fun s a t hs hst => ⟨inv_step s a t hs.1 hst.1, alive_step hs.2 hst.2 hst.1⟩)
    (fun s hs hf => by
      have hm : s.main ≠ .returned := fun hm => hf ⟨hm, hs.1.returned_all hm⟩
      obtain ⟨a, t, hp, hst, hlt⟩ := helpful hs.1 ⟨hs.2, hm⟩
      exact ⟨a, t, hp, ⟨hst, hp⟩, hlt⟩)
    s ⟨h, hk⟩
  obtain ⟨tr, t, hr, hf, hp⟩ := hrun
  exact ⟨tr, t, hr.mono fun _ _ _ hst => hst.1, hf, hp⟩

/-- **The start barrier and the finish count.**  In every reachable state: a worker that has called
`do_snap` proves that all `n` workers have incremented `nr_ready`; with `can_start` set a worker
sleeps only while the broadcast, which wakes it, is the next step of `main`; when `main` has
returned every worker has returned from `do_snap`; and unless the process was killed, threads that
have not returned can move and be run to their end, without a spurious wake-up. -/
theorem barrier_holds {s : St n} (h : Reachable s) :
    (∀ i, (s.worker i).calledSnap = true → s.nrReady = n ∧ ∀ j, (s.worker j).ready = true) ∧
    (s.canStart = true → ∀ i, s.worker i = .asleep →
      s.main = .broadcast ∧ (nextMain s).worker i = .woken) ∧
    (s.main = .returned → ∀ i, (s.worker i).snapDone = true) ∧
    (s.killed = false → ¬ finished s →
      (∃ a t, a.proper ∧ Step s a t) ∧
        ∃ tr t, Lts.Run Step s tr t ∧ finished t ∧ ∀ x ∈ tr, x.2.1.proper) := by
  have hi := h.inv
  refine ⟨fun i hsnap => ?_, fun hc i hs => ?_, fun hm i => ?_, fun hk hf => ⟨?_, ?_⟩⟩
  · have hs : (s.worker i).started = true := by
      cases hw : s.worker i <;> rw [hw] at hsnap <;> first | rfl | cases hsnap
    have hg := hi.go i hs
    rw [hi.can] at hg
    have hp : s.main.passedReady = true := by
      cases hm : s.main <;> rw [hm] at hg <;> first | rfl | cases hg
    have hn := hi.barrier hp
    refine ⟨hn, fun j => ?_⟩
    apply all_of_count_eq
    rw [← hi.ready, hn, Fintype.card_fin]
  · have hm := hi.awake i hs hc
    refine ⟨hm, ?_⟩
    unfold nextMain
    rw [hm]
    show wake (s.worker i) = .woken
    rw [hs]
    rfl
  · rw [hi.returned_all hm i]
    rfl
  · have hm : s.main ≠ .returned := fun hm => hf ⟨hm, hi.returned_all hm⟩
    obtain ⟨a, t, hp, hst, _⟩ := helpful hi ⟨hk, hm⟩
    exact ⟨a, t, hp, hst⟩
  · exact hi.can_finish hk

/-- the worker `i` sleeps when `main` sets `can_start`, the worker `j` waits for the mutex -/
def secondLate (i j : Fin n) : List (Act n) :=
  [.main, .main, .main, .worker j, .worker j, .worker j, .worker i, .worker i, .worker i,
    .spurious j, .main, .main, .main, .main, .main]

/-- a run with two workers -/
theorem barrier_holds_secondLate :
    ((secondLate 0 1).foldl next (init 2)).worker 0 = .asleep ∧
      (nextMain ((secondLate 0 1).foldl next (init 2))).worker 0 = .woken ∧
      ∃ tr t, Lts.Run Step ((secondLate 0 1).foldl next (init 2)) tr t ∧ finished t ∧
        ∀ x ∈ tr, x.2.1.proper := by
  have h := barrier_holds (s := (secondLate 0 1).foldl next (init 2))
    (Lts.Reach.of_labels (secondLate 0 1) (by decide))
  exact ⟨by decide, (h.2.1 (by decide) 0 (by decide)).2,
    (h.2.2.2 (by decide) (fun hf => absurd hf.1 (by decide))).2⟩

end Snapstorm
