import TestUnion.Snapstorm.Barrier
import TestUnion.Threads

/-!
# snapstorm: the barrier, the wake-ups and the final count hold in every state

`Inv` says who holds the two mutexes, what the two counters count and what `can_start` means:

* `start`, `fin`     the owners of `m_start` and `m_end`, read off the program counters;
* `ready`, `done`    `nr_ready` and `nr_finished` count the workers past their increments;
* `barrier`          `main` is past its first loop only when `nr_ready` is `n`;
* `can`, `go`        `can_start` is set from the broadcast on, and a worker past its wait has seen it;
* `awake`            with `can_start` set a worker sleeps only until the pending broadcast.

`Inv.worker_move` and `Inv.main_move` are the two frame lemmas, `inv_step` goes through the steps.
-/

namespace Snapstorm

open Threads

variable {n : ℕ}

/-! ## what the program counters say -/

def WorkerPc.holdsStart : WorkerPc → Bool
  | .incReady | .testStart | .unlockStart => true
  | _ => false

def WorkerPc.holdsEnd : WorkerPc → Bool
  | .incFinished | .unlockEnd => true
  | _ => false

/-- the worker has incremented `nr_ready` -/
def WorkerPc.ready : WorkerPc → Bool
  | .unborn | .lockStart | .incReady => false
  | _ => true

/-- the worker has left the wait loop -/
def WorkerPc.started : WorkerPc → Bool
  | .unborn | .lockStart | .incReady | .testStart | .asleep | .woken => false
  | _ => true

/-- the worker has called `do_snap` -/
def WorkerPc.calledSnap : WorkerPc → Bool
  | .doSnap | .lockEnd | .incFinished | .unlockEnd | .returned => true
  | _ => false

/-- the worker has returned from `do_snap` -/
def WorkerPc.snapDone : WorkerPc → Bool
  | .lockEnd | .incFinished | .unlockEnd | .returned => true
  | _ => false

/-- the worker has incremented `nr_finished` -/
def WorkerPc.counted : WorkerPc → Bool
  | .unlockEnd | .returned => true
  | _ => false

def MainPc.holdsStart : MainPc → Bool
  | .testReady | .unlockPoll | .unlockReady | .setStart | .broadcast | .unlockGo => true
  | _ => false

def MainPc.holdsEnd : MainPc → Bool
  | .testFinished | .unlockEnd | .returned => true
  | _ => false

/-- `main` has left the loop on `nr_ready` -/
def MainPc.passedReady : MainPc → Bool
  | .create _ | .lockReady | .testReady | .unlockPoll => false
  | _ => true

/-- `main` has set `can_start` -/
def MainPc.goSet : MainPc → Bool
  | .create _ | .lockReady | .testReady | .unlockPoll | .unlockReady | .lockGo | .setStart => false
  | _ => true

def holdsStart (m : MainPc) (w : Fin n → WorkerPc) : Tid n → Bool
  | .main => m.holdsStart
  | .worker i => (w i).holdsStart

def holdsEnd (m : MainPc) (w : Fin n → WorkerPc) : Tid n → Bool
  | .main => m.holdsEnd
  | .worker i => (w i).holdsEnd

structure Inv (s : St n) : Prop where
  start : Owns s.mStart (holdsStart s.main s.worker)
  fin : Owns s.mEnd (holdsEnd s.main s.worker)
  born : ∀ i, s.worker i = .unborn ↔ ∃ k ≤ (i : ℕ), s.main = .create k
  ready : s.nrReady = count WorkerPc.ready s.worker
  done : s.nrFinished = count WorkerPc.counted s.worker
  barrier : s.main.passedReady = true → s.nrReady = n
  can : s.canStart = s.main.goSet
  go : ∀ i, (s.worker i).started = true → s.canStart = true
  awake : ∀ i, s.worker i = .asleep → s.canStart = true → s.main = .broadcast
  all : s.main = .returned → s.nrFinished = n

theorem inv_init (n : ℕ) : Inv (init n) where
  start t := by cases t <;> simp [init, holdsStart, MainPc.holdsStart, WorkerPc.holdsStart]
  fin t := by cases t <;> simp [init, holdsEnd, MainPc.holdsEnd, WorkerPc.holdsEnd]
  born i := by simp [init]
  ready := by simp [init, count, WorkerPc.ready]
  done := by simp [init, count, WorkerPc.counted]
  barrier h := by cases h
  can := rfl
  go i h := by cases h
  awake i h := by cases h
  all h := by cases h

theorem count_le_n (f : WorkerPc → Bool) (w : Fin n → WorkerPc) : count f w ≤ n := by
  simpa using count_le f w

/-! ## owners after a move -/

theorem holdsStart_update (m : MainPc) (w : Fin n → WorkerPc) (i : Fin n) (pc : WorkerPc) :
    ∀ u, u ≠ Tid.worker i → holdsStart m (Function.update w i pc) u = holdsStart m w u := by
  intro u hu
  cases u with
  | main => rfl
  | worker j =>
    have hj : j ≠ i := fun e => hu (by rw [e])
    show (Function.update w i pc j).holdsStart = _
    rw [Function.update_of_ne hj]
    rfl

theorem holdsEnd_update (m : MainPc) (w : Fin n → WorkerPc) (i : Fin n) (pc : WorkerPc) :
    ∀ u, u ≠ Tid.worker i → holdsEnd m (Function.update w i pc) u = holdsEnd m w u := by
  intro u hu
  cases u with
  | main => rfl
  | worker j =>
    have hj : j ≠ i := fun e => hu (by rw [e])
    show (Function.update w i pc j).holdsEnd = _
    rw [Function.update_of_ne hj]
    rfl

theorem holdsStart_main (m m' : MainPc) (w : Fin n → WorkerPc) :
    ∀ u, u ≠ Tid.main → holdsStart m' w u = holdsStart m w u := by
  intro u hu
  cases u with
  | main => exact absurd rfl hu
  | worker j => rfl

theorem holdsEnd_main (m m' : MainPc) (w : Fin n → WorkerPc) :
    ∀ u, u ≠ Tid.main → holdsEnd m' w u = holdsEnd m w u := by
  intro u hu
  cases u with
  | main => exact absurd rfl hu
  | worker j => rfl

/-- How a mutex moves when the flag of the thread `t` goes from `b` to `b'`. -/
inductive MutexMove (t : Tid n) (o : Option (Tid n)) : Bool → Bool → Option (Tid n) → Prop
  | stay (b : Bool) : MutexMove t o b b o
  | lock : o = none → MutexMove t o false true (some t)
  | unlock : MutexMove t o true false none

theorem MutexMove.owns {t : Tid n} {o o' : Option (Tid n)} {holds holds' : Tid n → Bool}
    (h : Owns o holds) (hne : ∀ u, u ≠ t → holds' u = holds u)
    (hm : MutexMove t o (holds t) (holds' t) o') : Owns o' holds' := by
  generalize hb : holds t = b at hm
  generalize hb' : holds' t = b' at hm
  cases hm with
  | stay =>
    apply h.stay
    intro u
    by_cases e : u = t
    · rw [e, hb, hb']
    · exact hne u e
  | lock ho => exact h.lock ho t hb' hne
  | unlock => exact h.unlock hb hb' hne

/-! ## the frame lemmas -/

/-- How a counter moves when the flag of a thread goes from `b` to `b'`. -/
inductive CountMove (k : ℕ) : Bool → Bool → ℕ → Prop
  | stay (b : Bool) : CountMove k b b k
  | inc : CountMove k false true (k + 1)

theorem CountMove.count {k k' : ℕ} {f : WorkerPc → Bool} {w : Fin n → WorkerPc} {i : Fin n}
    {pc : WorkerPc} (h : CountMove k (f (w i)) (f pc) k') (hk : k = count f w) :
    k' = count f (Function.update w i pc) := by
  generalize hb : f (w i) = b at h
  generalize hb' : f pc = b' at h
  cases h with
  | stay => rw [hk, count_update_of_eq (by rw [hb, hb'])]
  | inc => rw [hk, count_update_succ hb hb']

theorem CountMove.le {k k' : ℕ} {b b' : Bool} (h : CountMove k b b' k') : k ≤ k' := by
  cases h with
  | stay => exact Nat.le_refl k
  | inc => exact Nat.le_succ k

/-- A worker moves from `pc` to `pc'`. -/
theorem Inv.worker_move {s : St n} (h : Inv s) {i : Fin n} {pc : WorkerPc} (pc' : WorkerPc)
    {ms me : Option (Tid n)} {nr nf : ℕ} (hi : s.worker i = pc) (hb : pc ≠ .unborn)
    (hb' : pc' ≠ .unborn) (hms : MutexMove (.worker i) s.mStart pc.holdsStart pc'.holdsStart ms)
    (hme : MutexMove (.worker i) s.mEnd pc.holdsEnd pc'.holdsEnd me)
    (hnr : CountMove s.nrReady pc.ready pc'.ready nr)
    (hnf : CountMove s.nrFinished pc.counted pc'.counted nf)
    (hgo : pc'.started = true → s.canStart = true ∨ pc.started = true)
    (haw : pc' = .asleep → s.canStart = false) :
    Inv { s with
      worker := Function.update s.worker i pc'
      mStart := ms
      mEnd := me
      nrReady := nr
      nrFinished := nf } := by
  subst hi
  have hready : nr = count WorkerPc.ready (Function.update s.worker i pc') := hnr.count h.ready
  have hdone : nf = count WorkerPc.counted (Function.update s.worker i pc') := hnf.count h.done
  refine ⟨?_, ?_, ?_, hready, hdone, ?_, h.can, ?_, ?_, ?_⟩
  · apply MutexMove.owns h.start (holdsStart_update s.main s.worker i pc')
    show MutexMove _ _ _ (Function.update s.worker i pc' i).holdsStart _
    rw [Function.update_self]
    exact hms
  · apply MutexMove.owns h.fin (holdsEnd_update s.main s.worker i pc')
    show MutexMove _ _ _ (Function.update s.worker i pc' i).holdsEnd _
    rw [Function.update_self]
    exact hme
  · intro j
    by_cases hj : j = i
    · subst hj
      have hno : ¬ ∃ k ≤ (j : ℕ), s.main = .create k := fun hk => hb ((h.born j).mpr hk)
      simp [hb', hno]
    · simpa [Function.update_of_ne hj] using h.born j
  · -- `nr_ready` was `n` and cannot grow past the number of workers
    intro hp
    have h1 := h.barrier hp
    have h2 := count_le_n WorkerPc.ready (Function.update s.worker i pc')
    have h3 := hnr.le
    show nr = n
    omega
  · intro j hj
    by_cases e : j = i
    · subst e
      rcases hgo (by simpa using hj) with hc | hs
      · exact hc
      · exact h.go j hs
    · exact h.go j (by simpa [Function.update_of_ne e] using hj)
  · intro j hj hc
    by_cases e : j = i
    · subst e
      have hf := haw (by simpa using hj)
      have hc' : s.canStart = true := hc
      rw [hf] at hc'
      cases hc'
    · exact h.awake j (by simpa [Function.update_of_ne e] using hj) hc
  · intro hp
    have h1 := h.all hp
    have h2 := count_le_n WorkerPc.counted (Function.update s.worker i pc')
    have h3 := hnf.le
    show nf = n
    omega

theorem Inv.all_born {s : St n} (h : Inv s) (hm : ∀ k, s.main = .create k → n ≤ k) (i : Fin n) :
    s.worker i ≠ .unborn := by
  intro hi
  obtain ⟨k, hle, hk⟩ := (h.born i).mp hi
  have := hm k hk
  have := i.isLt
  omega

/-- `main` moves from `m` to `m'` when all workers are born. -/
theorem Inv.main_move {s : St n} (h : Inv s) {m : MainPc} (m' : MainPc) {ms me : Option (Tid n)}
    {cs : Bool} (hm : s.main = m) (hborn : ∀ k, m = .create k → n ≤ k) (hm' : ∀ k, m' ≠ .create k)
    (hms : MutexMove .main s.mStart m.holdsStart m'.holdsStart ms)
    (hme : MutexMove .main s.mEnd m.holdsEnd m'.holdsEnd me)
    (hbar : m'.passedReady = true → m.passedReady = true ∨ s.nrReady = n) (hcan : cs = m'.goSet)
    (hcs : m.goSet = true → m'.goSet = true)
    (haw : m'.goSet = true → m' ≠ .broadcast → m.goSet = true ∧ m ≠ .broadcast)
    (hall : m' = .returned → s.nrFinished = n) :
    Inv { s with main := m', mStart := ms, mEnd := me, canStart := cs } := by
  subst hm
  have hborn' := h.all_born hborn
  refine ⟨MutexMove.owns h.start (holdsStart_main s.main m' s.worker) hms,
    MutexMove.owns h.fin (holdsEnd_main s.main m' s.worker) hme, ?_, h.ready, h.done, ?_, hcan, ?_, ?_, hall⟩
  · intro i
    refine ⟨?_, ?_⟩
    · exact fun hi => absurd hi (hborn' i)
    · intro hex
      obtain ⟨k, _, hk⟩ := hex
      exact absurd hk (hm' k)
  · intro hp
    rcases hbar hp with e | e
    · exact h.barrier e
    · exact e
  · intro i hi
    have hc := h.go i hi
    rw [h.can] at hc
    exact hcan.trans (hcs hc)
  · intro i hi hc
    by_contra hne
    obtain ⟨h1, h2⟩ := haw (hcan.symm.trans hc) hne
    exact h2 (h.awake i hi (h.can.trans h1))

/-! ## the steps -/

theorem Inv.create {s : St n} (h : Inv s) {k : ℕ} (hm : s.main = .create k) (hk : k < n) :
    Inv { s.setWorker ⟨k, hk⟩ .lockStart with main := .create (k + 1) } := by
  have hunborn : s.worker ⟨k, hk⟩ = .unborn := (h.born _).mpr ⟨k, Nat.le_refl k, hm⟩
  have hcan : s.canStart = false := by rw [h.can, hm]; rfl
  have hf (f : WorkerPc → Bool) (hu : f .unborn = f .lockStart) :
      count f (Function.update s.worker ⟨k, hk⟩ .lockStart) = count f s.worker :=
    count_update_of_eq (by rw [hunborn, hu])
  refine ⟨?_, ?_, ?_, ?_, ?_, nofun, ?_, ?_, ?_, nofun⟩
  · apply h.start.stay
    intro u
    cases u with
    | main => show false = s.main.holdsStart; rw [hm]; rfl
    | worker j =>
      show (Function.update s.worker ⟨k, hk⟩ .lockStart j).holdsStart = (s.worker j).holdsStart
      by_cases hj : j = ⟨k, hk⟩
      · rw [hj, Function.update_self, hunborn]; rfl
      · rw [Function.update_of_ne hj]
  · apply h.fin.stay
    intro u
    cases u with
    | main => show false = s.main.holdsEnd; rw [hm]; rfl
    | worker j =>
      show (Function.update s.worker ⟨k, hk⟩ .lockStart j).holdsEnd = (s.worker j).holdsEnd
      by_cases hj : j = ⟨k, hk⟩
      · rw [hj, Function.update_self, hunborn]; rfl
      · rw [Function.update_of_ne hj]
  · intro j
    show Function.update s.worker ⟨k, hk⟩ .lockStart j = .unborn ↔
      ∃ k' ≤ (j : ℕ), MainPc.create (k + 1) = .create k'
    by_cases hj : j = ⟨k, hk⟩
    · rw [hj, Function.update_self]
      refine ⟨?_, ?_⟩
      · exact nofun
      · intro hex
        obtain ⟨k', hle, e⟩ := hex
        cases e
        exact absurd hle (Nat.not_succ_le_self k)
    · have hne : (j : ℕ) ≠ k := fun e => hj (Fin.ext e)
      rw [Function.update_of_ne hj, h.born j, hm]
      refine ⟨?_, ?_⟩
      · intro hall
        obtain ⟨k', hle, e⟩ := hall
        cases e
        exact ⟨k + 1, by omega, rfl⟩
      · intro hboth
        obtain ⟨k', hle, e⟩ := hboth
        cases e
        exact ⟨k, by omega, rfl⟩
  · show s.nrReady = _
    rw [h.ready]
    exact (hf _ rfl).symm
  · show s.nrFinished = _
    rw [h.done]
    exact (hf _ rfl).symm
  · show s.canStart = false
    exact hcan
  · intro j hj
    by_cases e : j = ⟨k, hk⟩
    · rw [e] at hj
      simp [St.setWorker, WorkerPc.started] at hj
    · exact h.go j (by simpa [St.setWorker, Function.update_of_ne e] using hj)
  · intro j _ hc
    have hc' : s.canStart = true := hc
    rw [hcan] at hc'
    cases hc'

theorem Inv.broadcast {s : St n} (h : Inv s) (hm : s.main = .broadcast) :
    Inv { s with worker := fun i => wake (s.worker i), main := .unlockGo } := by
  have hw (f : WorkerPc → Bool) (hf : f .asleep = f .woken) (i : Fin n) :
      f (wake (s.worker i)) = f (s.worker i) := by
    cases hi : s.worker i <;> first | rfl | exact hf.symm
  refine ⟨?_, ?_, ?_, ?_, ?_, fun _ => h.barrier (by rw [hm]; rfl), ?_, ?_, ?_, nofun⟩
  · apply h.start.stay
    intro u
    cases u with
    | main => show true = s.main.holdsStart; rw [hm]; rfl
    | worker j => exact hw WorkerPc.holdsStart rfl j
  · apply h.fin.stay
    intro u
    cases u with
    | main => show false = s.main.holdsEnd; rw [hm]; rfl
    | worker j => exact hw WorkerPc.holdsEnd rfl j
  · intro j
    refine ⟨?_, ?_⟩
    · intro hj
      have hj' : wake (s.worker j) = .unborn := hj
      have : s.worker j = .unborn := by
        cases hc : s.worker j <;> rw [hc] at hj' <;> first | rfl | cases hj'
      exact absurd this (h.all_born (fun k e => by rw [hm] at e; cases e) j)
    · intro hex
      obtain ⟨k, _, e⟩ := hex
      cases e
  · show s.nrReady = _
    rw [h.ready]
    exact (count_congr (hw _ rfl)).symm
  · show s.nrFinished = _
    rw [h.done]
    exact (count_congr (hw _ rfl)).symm
  · show s.canStart = true
    rw [h.can, hm]
    rfl
  · intro j hj
    exact h.go j (by rw [← hw WorkerPc.started rfl j]; exact hj)
  · intro j hj
    have hj' : wake (s.worker j) = .asleep := hj
    cases hc : s.worker j <;> rw [hc] at hj' <;> cases hj'

theorem Inv.nextMain {s : St n} (h : Inv s) (he : mainEnabled s) : Inv (nextMain s) := by
  unfold mainEnabled at he
  unfold Snapstorm.nextMain
  cases hm : s.main with
  | create k =>
    simp only
    split
    · next hk => exact h.create hm hk
    · next hk =>
      exact h.main_move .lockReady hm (fun k' e => by cases e; omega) nofun (.stay _) (.stay _) nofun
        (by rw [h.can, hm]; rfl) id nofun nofun
  | lockReady =>
    rw [hm] at he
    exact h.main_move .testReady hm nofun nofun (.lock he) (.stay _) nofun (by rw [h.can, hm]; rfl)
      id nofun nofun
  | testReady =>
    simp only
    split
    · exact h.main_move .unlockPoll hm nofun nofun (.stay _) (.stay _) nofun
        (by rw [h.can, hm]; rfl) id nofun nofun
    · next hlt =>
      have hn : s.nrReady = n := by
        have := count_le_n WorkerPc.ready s.worker
        rw [← h.ready] at this
        omega
      exact h.main_move .unlockReady hm nofun nofun (.stay _) (.stay _) (fun _ => .inr hn)
        (by rw [h.can, hm]; rfl) id nofun nofun
  | unlockPoll =>
    exact h.main_move .lockReady hm nofun nofun .unlock (.stay _) nofun (by rw [h.can, hm]; rfl) id
      nofun nofun
  | unlockReady =>
    exact h.main_move .lockGo hm nofun nofun .unlock (.stay _) .inl (by rw [h.can, hm]; rfl) id
      nofun nofun
  | lockGo =>
    rw [hm] at he
    exact h.main_move .setStart hm nofun nofun (.lock he) (.stay _) .inl (by rw [h.can, hm]; rfl) id
      nofun nofun
  | setStart =>
    exact h.main_move .broadcast hm nofun nofun (.stay _) (.stay _) .inl rfl (fun _ => rfl)
      (fun _ hne => absurd rfl hne) nofun
  | broadcast => exact h.broadcast hm
  | unlockGo =>
    exact h.main_move .lockEnd hm nofun nofun .unlock (.stay _) .inl (by rw [h.can, hm]; rfl) id
      (fun _ _ => ⟨rfl, nofun⟩) nofun
  | lockEnd =>
    rw [hm] at he
    exact h.main_move .testFinished hm nofun nofun (.stay _) (.lock he) .inl
      (by rw [h.can, hm]; rfl) id (fun _ _ => ⟨rfl, nofun⟩) nofun
  | testFinished =>
    simp only
    split
    · exact h.main_move .unlockEnd hm nofun nofun (.stay _) (.stay _) .inl (by rw [h.can, hm]; rfl)
        id (fun _ _ => ⟨rfl, nofun⟩) nofun
    · next hlt =>
      have hn : s.nrFinished = n := by
        have := count_le_n WorkerPc.counted s.worker
        rw [← h.done] at this
        omega
      exact h.main_move .returned hm nofun nofun (.stay _) (.stay _) .inl (by rw [h.can, hm]; rfl)
        id (fun _ _ => ⟨rfl, nofun⟩) (fun _ => hn)
  | unlockEnd =>
    exact h.main_move .lockEnd hm nofun nofun (.stay _) .unlock .inl (by rw [h.can, hm]; rfl) id
      (fun _ _ => ⟨rfl, nofun⟩) nofun
  | returned => exact h

theorem Inv.nextWorker {s : St n} (h : Inv s) (i : Fin n) (he : workerEnabled s i) :
    Inv (nextWorker s i) := by
  unfold workerEnabled at he
  unfold Snapstorm.nextWorker
  cases hi : s.worker i with
  | unborn => exact h
  | lockStart =>
    rw [hi] at he
    exact h.worker_move .incReady hi nofun nofun (.lock he) (.stay _) (.stay _) (.stay _) nofun nofun
  | incReady =>
    exact h.worker_move .testStart hi nofun nofun (.stay _) (.stay _) .inc (.stay _) nofun nofun
  | testStart =>
    simp only
    split
    · next hc =>
      exact h.worker_move .unlockStart hi nofun nofun (.stay _) (.stay _) (.stay _) (.stay _)
        (fun _ => .inl hc) nofun
    · next hc =>
      exact h.worker_move .asleep hi nofun nofun .unlock (.stay _) (.stay _) (.stay _) nofun
        (fun _ => by simpa using hc)
  | asleep => exact h
  | woken =>
    rw [hi] at he
    exact h.worker_move .testStart hi nofun nofun (.lock he) (.stay _) (.stay _) (.stay _) nofun
      nofun
  | unlockStart =>
    exact h.worker_move .snprintf hi nofun nofun .unlock (.stay _) (.stay _) (.stay _) .inr nofun
  | snprintf =>
    exact h.worker_move .doSnap hi nofun nofun (.stay _) (.stay _) (.stay _) (.stay _) .inr nofun
  | doSnap =>
    exact h.worker_move .lockEnd hi nofun nofun (.stay _) (.stay _) (.stay _) (.stay _) .inr nofun
  | lockEnd =>
    rw [hi] at he
    exact h.worker_move .incFinished hi nofun nofun (.stay _) (.lock he) (.stay _) (.stay _) .inr
      nofun
  | incFinished =>
    exact h.worker_move .unlockEnd hi nofun nofun (.stay _) (.stay _) (.stay _) .inc .inr nofun
  | unlockEnd =>
    exact h.worker_move .returned hi nofun nofun (.stay _) .unlock (.stay _) (.stay _) .inr nofun
  | returned => exact h

theorem inv_step (s : St n) (a : Act n) (t : St n) (h : Inv s) (hst : Step s a t) : Inv t := by
  obtain ⟨he, rfl⟩ := hst
  cases a with
  | main => exact h.nextMain he.2
  | worker i => exact h.nextWorker i he.2
  | spurious i =>
    have hi : s.worker i = .asleep := he.2
    exact h.worker_move .woken hi nofun nofun (.stay _) (.stay _) (.stay _) (.stay _) nofun nofun
  | fault i =>
    exact ⟨h.start, h.fin, h.born, h.ready, h.done, h.barrier, h.can, h.go, h.awake, h.all⟩

theorem Reachable.inv {s : St n} (h : Reachable s) : Inv s :=
  Lts.Reach.inv inv_step h (inv_init n)

end Snapstorm
