import TestUnion.Compilebench.Books
import Mathlib.Algebra.Ring.Nat

/-!
# compilebench: the statistics

* `Charge`          the counter that an operation adds to, as the code chooses it;
* `Op.run_charge`   an operation that returns 1 adds its time to this one counter, and one that
                    returns 0 changes nothing;
* `State.compiled`  a directory is in one of the two compiled hashes;
* `visit_charged`   reads and stats are charged by what the directory is;
* `OnlyOne`, `delete_charged`   deletions are, except when the directory was the last one of an
                    uncompiled hash and a compiled hash is empty;
* `MainStep`, `report_adds_up`   the loop of `main`, and the sum of its counters.
-/

namespace Compilebench

open FileTree PosixPath PosixCalls ExceptLoop Lts

variable {env : Env} {N : ℕ} {s s' : State} {t : Disk}

/-! ## the counter of an operation -/

def Op.clock : Op → Clock
  | .patch _ _ clock => clock
  | .compile _ clock => clock
  | .clean _ clock => clock
  | .delete _ clock => clock
  | .create _ clock => clock
  | .read _ clock => clock
  | .stat _ clock => clock

/-- The counter that the operation chooses.  `delete_one_dir` compares the hashes when the entry is
deleted already. -/
inductive Charge (s : State) : Op → Stat → Prop
  | patch {p draw clock} : Charge s (.patch p draw clock) .patch
  | compile {p clock} : Charge s (.compile p clock) .compile
  | clean {p clock} : Charge s (.clean p clock) .clean
  | create {draws clock} : Charge s (.create draws clock) .create
  | delete {p clock ch} (mem : p.dir ∈ s.dirs ch) :
    Charge s (.delete p clock)
      (if looksCompiled (s.del ch p.dir) ch then .deleteCompiled else .delete)
  | read {p clock ch} (mem : p.dir ∈ s.dirs ch) :
    Charge s (.read p clock) (if looksCompiled s ch then .readCompiled else .read)
  | stat {p clock ch} (mem : p.dir ∈ s.dirs ch) :
    Charge s (.stat p clock) (if looksCompiled s ch then .statCompiled else .stat)

/-- `ret` is 0 and nothing is changed, or it is 1 and the time is added to the counter. -/
def Charged (s s' : State) (o : Op) (ret : ℕ) : Prop :=
  (ret = 0 ∧ s' = s) ∨
    (ret = 1 ∧ ∃ counter, Charge s o counter ∧ s'.stats = (s.addTimes counter o.clock).stats)

theorem moveOneDir_charged {o : Op} {op : List Move} {work : Entries → Str → Disk → Except Exn Disk}
    {counter : Stat} {p : Pick} {ret : ℕ} (hc : Charge s o counter)
    (h : moveOneDir op work counter p o.clock s = .ok (ret, s')) : Charged s s' o ret := by
  rcases moveOneDir_cases h with ⟨rfl, rfl, _⟩ | ⟨rfl, rfl, _⟩ | ⟨ch, t, _, _, _, rfl, rfl⟩
  · exact .inl ⟨rfl, rfl⟩
  · exact .inl ⟨rfl, rfl⟩
  · exact .inr ⟨rfl, counter, hc, rfl⟩

theorem visitOneDir_charged {o : Op} {work : Str → Disk → Except Exn Unit} {plain compiled : Stat}
    {p : Pick} {ret : ℕ}
    (hc : ∀ ch, p.dir ∈ s.dirs ch → Charge s o (if looksCompiled s ch then compiled else plain))
    (h : visitOneDir work plain compiled p o.clock s = .ok (ret, s')) : Charged s s' o ret := by
  rcases visitOneDir_cases h with ⟨rfl, rfl, _⟩ | ⟨ch, hmem, _, rfl, rfl⟩
  · exact .inl ⟨rfl, rfl⟩
  · exact .inr ⟨rfl, _, hc ch hmem, rfl⟩

theorem deleteOneDir_charged {p : Pick} {clock : Clock} {ret : ℕ}
    (h : deleteOneDir env p clock s = .ok (ret, s')) : Charged s s' (.delete p clock) ret := by
  rcases deleteOneDir_cases h with ⟨rfl, rfl, _⟩ | ⟨ch, t, hmem, _, rfl, rfl⟩
  · exact .inl ⟨rfl, rfl⟩
  · exact .inr ⟨rfl, _, .delete hmem, rfl⟩

theorem createOneDir_charged {draws : List ℕ} {clock : Clock} {ret : ℕ}
    (h : createOneDir env draws clock s = .ok (ret, s')) : Charged s s' (.create draws clock) ret := by
  unfold createOneDir at h
  simp only [bind_eq_ok] at h
  obtain ⟨name, _, u, _, h⟩ := h
  cases h
  exact .inr ⟨rfl, _, .create, rfl⟩

theorem Op.run_charge {o : Op} {ret : ℕ} (h : o.run env s = .ok (ret, s')) : Charged s s' o ret := by
  cases o with
  | patch p draw clock =>
    have h' : patchOneDir env p draw clock s = .ok (ret, s') := h
    exact moveOneDir_charged (o := .patch p draw clock) .patch h'
  | compile p clock =>
    have h' : compileOneDir env p clock s = .ok (ret, s') := h
    exact moveOneDir_charged (o := .compile p clock) .compile h'
  | clean p clock =>
    have h' : cleanOneDir env p clock s = .ok (ret, s') := h
    rw [cleanOneDir_eq] at h'
    exact moveOneDir_charged (o := .clean p clock) .clean h'
  | delete p clock => exact deleteOneDir_charged h
  | create draws clock => exact createOneDir_charged h
  | read p clock =>
    have h' : readOneDir env p clock s = .ok (ret, s') := h
    exact visitOneDir_charged (o := .read p clock) (fun _ hmem => .read hmem) h'
  | stat p clock =>
    have h' : statOneDir env p clock s = .ok (ret, s') := h
    exact visitOneDir_charged (o := .stat p clock) (fun _ hmem => .stat hmem) h'

/-! ## what a directory is -/

def State.compiled (s : State) (dir : Str) : Prop :=
  dir ∈ s.dirs .unpatchedCompiled ∨ dir ∈ s.dirs .patchedCompiled

instance (s : State) (dir : Str) : Decidable (s.compiled dir) := by
  unfold State.compiled
  infer_instance

section
variable (hb : Books env N s) {dir : Str} {ch : Hash}
include hb

theorem Books.compiled_iff (hmem : dir ∈ s.dirs ch) :
    s.compiled dir ↔ ch = .unpatchedCompiled ∨ ch = .patchedCompiled := by
  unfold State.compiled
  refine ⟨?_, ?_⟩
  · rintro (h | h)
    · exact .inl (hb.unique _ _ _ hmem h)
    · exact .inr (hb.unique _ _ _ hmem h)
  · rintro (rfl | rfl)
    · exact .inl hmem
    · exact .inr hmem

/-- A hash that is not empty is equal to no other one. -/
theorem Books.eq_of_dirs_eq (hmem : dir ∈ s.dirs ch) {hash : Hash} (h : s.dirs ch = s.dirs hash) :
    ch = hash := by
  rw [h] at hmem
  have hmem' : dir ∈ s.dirs ch := by
    rw [h]
    exact hmem
  exact hb.unique _ _ _ hmem' hmem

theorem Books.looksCompiled_iff (hmem : dir ∈ s.dirs ch) : looksCompiled s ch ↔ s.compiled dir := by
  rw [hb.compiled_iff hmem]
  unfold looksCompiled
  refine ⟨?_, ?_⟩
  · rintro (h | h)
    · exact .inl (hb.eq_of_dirs_eq hmem h)
    · exact .inr (hb.eq_of_dirs_eq hmem h)
  · rintro (rfl | rfl)
    · exact .inl rfl
    · exact .inr rfl

end

/-! ## reads and stats -/

/-- The time is added to the compiled counter iff the directory is compiled, and to the plain one
otherwise. -/
def ChargedBy (s s' : State) (plain compiled : Stat) (dir : Str) (clock : Clock) : Prop :=
  (s'.stats compiled = s.stats compiled ++ [clock] ↔ s.compiled dir) ∧
    s'.stats = (s.addTimes (if s.compiled dir then compiled else plain) clock).stats

theorem addTimes_self (counter : Stat) (clock : Clock) :
    (s.addTimes counter clock).stats counter = s.stats counter ++ [clock] :=
  Function.update_self ..

theorem addTimes_of_ne {counter counter' : Stat} (h : counter' ≠ counter) (clock : Clock) :
    (s.addTimes counter clock).stats counter' = s.stats counter' :=
  Function.update_of_ne h ..

/-- A counter has got the time iff it is the one that was charged. -/
theorem got_iff {counter counter' : Stat} {clock : Clock}
    (h : s'.stats = (s.addTimes counter clock).stats) :
    s'.stats counter' = s.stats counter' ++ [clock] ↔ counter' = counter := by
  rw [h]
  by_cases hc : counter' = counter
  · subst hc
    exact ⟨fun _ => rfl, fun _ => addTimes_self _ _⟩
  · rw [addTimes_of_ne hc]
    refine ⟨?_, fun h => absurd h hc⟩
    intro hl
    have := congrArg List.length hl
    simp at this

/-- Charging by a test of the code is right iff the test agrees with what the directory is. -/
theorem chargedBy_iff {plain compiled : Stat} (hne : plain ≠ compiled) {dir : Str} {clock : Clock}
    {test : Prop} [Decidable test]
    (h : s'.stats = (s.addTimes (if test then compiled else plain) clock).stats) :
    ChargedBy s s' plain compiled dir clock ↔ (test ↔ s.compiled dir) := by
  have hgot : s'.stats compiled = s.stats compiled ++ [clock] ↔ test := by
    rw [got_iff h]
    by_cases ht : test
    · simp [ht]
    · simp [ht, hne.symm]
  unfold ChargedBy
  rw [hgot]
  refine ⟨fun hc => hc.1, ?_⟩
  intro hiff
  refine ⟨hiff, ?_⟩
  rw [h, if_congr hiff rfl rfl]

/-! ## deletions -/

/-- `dir` is the only name in one of the two uncompiled hashes. -/
def OnlyOne (s : State) (dir : Str) : Prop := s.dirs .patched = {dir} ∨ s.dirs .unpatched = {dir}

def EmptyCompiled (s : State) : Prop := s.dirs .unpatchedCompiled = ∅ ∨ s.dirs .patchedCompiled = ∅

theorem dirs_del_self (hash : Hash) (dir : Str) :
    (s.del hash dir).dirs hash = (s.dirs hash).erase dir :=
  Function.update_self ..

theorem dirs_del_of_ne {hash hash' : Hash} (h : hash' ≠ hash) (dir : Str) :
    (s.del hash dir).dirs hash' = s.dirs hash' :=
  Function.update_of_ne h ..

section
variable (hb : Books env N s) {dir : Str} {ch : Hash}
include hb

theorem Books.eq_singleton_iff (hmem : dir ∈ s.dirs ch) {hash : Hash} :
    s.dirs hash = {dir} ↔ hash = ch ∧ (s.dirs ch).erase dir = ∅ := by
  refine ⟨?_, ?_⟩
  · intro h
    have hash_eq : hash = ch := hb.unique dir _ _ (by rw [h]; exact Finset.mem_singleton_self dir) hmem
    refine ⟨hash_eq, ?_⟩
    rw [← hash_eq, h]
    exact Finset.erase_singleton dir
  · rintro ⟨rfl, h⟩
    rw [← Finset.insert_erase hmem, h]
    rfl

/-- What is left of a hash is equal to another hash iff both are empty. -/
theorem Books.erase_eq_iff {hash : Hash} (hne : hash ≠ ch) :
    (s.dirs ch).erase dir = s.dirs hash ↔ (s.dirs ch).erase dir = ∅ ∧ s.dirs hash = ∅ := by
  refine ⟨?_, ?_⟩
  · intro h
    have hempty : s.dirs hash = ∅ := by
      rw [Finset.eq_empty_iff_forall_notMem]
      intro x hx
      have hx' : x ∈ s.dirs ch := by
        rw [← h] at hx
        exact Finset.mem_of_mem_erase hx
      exact hne (hb.unique x _ _ hx hx')
    exact ⟨h.trans hempty, hempty⟩
  · intro h
    exact h.1.trans h.2.symm

/-- The comparison after the deletion goes wrong for the last name of an uncompiled hash when a
compiled hash is empty. -/
theorem Books.looksCompiled_del_iff (hmem : dir ∈ s.dirs ch) :
    (looksCompiled (s.del ch dir) ch ↔ s.compiled dir) ↔ ¬ (OnlyOne s dir ∧ EmptyCompiled s) := by
  rw [hb.compiled_iff hmem]
  unfold looksCompiled OnlyOne EmptyCompiled
  rw [hb.eq_singleton_iff hmem, hb.eq_singleton_iff hmem]
  by_cases hu : ch = .unpatchedCompiled
  · subst hu
    simp
  by_cases hp : ch = .patchedCompiled
  · subst hp
    simp
  have hch : Hash.patched = ch ∨ Hash.unpatched = ch := by
    cases ch with
    | patched => exact .inl rfl
    | unpatched => exact .inr rfl
    | unpatchedCompiled => exact absurd rfl hu
    | patchedCompiled => exact absurd rfl hp
  rw [dirs_del_self, dirs_del_of_ne (Ne.symm hu), dirs_del_of_ne (Ne.symm hp),
    hb.erase_eq_iff (Ne.symm hu), hb.erase_eq_iff (Ne.symm hp)]
  tauto

end

/-! ## the steps of a run -/

theorem visit_idle {o : Op} (ho : (∃ p clock, o = .read p clock) ∨ ∃ p clock, o = .stat p clock)
    (h : o.run env s = .ok (0, s')) : s' = s ∧ ∀ hash, s.dirs hash = ∅ := by
  rcases ho with ⟨p, clock, rfl⟩ | ⟨p, clock, rfl⟩
  · have hread : readOneDir env p clock s = .ok (0, s') := h
    rcases visitOneDir_cases hread with ⟨_, hidle⟩ | ⟨_, _, _, hret, _⟩
    · exact hidle
    · exact absurd hret Nat.zero_ne_one
  · have hstat : statOneDir env p clock s = .ok (0, s') := h
    rcases visitOneDir_cases hstat with ⟨_, hidle⟩ | ⟨_, _, _, hret, _⟩
    · exact hidle
    · exact absurd hret Nat.zero_ne_one

section
variable {q : Quadruple} {s₀ : State} {tr : List (State × Act × State)}
  (hb : t.get env.base = some .dir) (hs : Start env q t s₀) (hr : Run (Step env N) s₀ tr s)
include hb hs hr

/-- the books before a step of a run, and the counter that the step chose -/
theorem step_charged {u u' : State} {o : Op} {ret : ℕ} (he : (u, .op o ret, u') ∈ tr) :
    Books env N u ∧ Charged u u' o ret := by
  obtain ⟨hbooks, hstep, _⟩ := hr.steps_inv (I := Books env N)
    (fun u a u' hu hst => hu.step hst) (hs.books hb) _ he
  cases hstep with
  | op all run => exact ⟨hbooks, Op.run_charge run⟩

/-- Reads and stats are charged by what the directory is.  One that returns 0 has found no directory,
and adds nothing. -/
theorem visit_charged :
    (∀ u p clock u', (u, .op (.read p clock) 1, u') ∈ tr →
      ChargedBy u u' .read .readCompiled p.dir clock) ∧
    (∀ u p clock u', (u, .op (.stat p clock) 1, u') ∈ tr →
      ChargedBy u u' .stat .statCompiled p.dir clock) ∧
    ∀ u p clock u', (u, .op (.read p clock) 0, u') ∈ tr ∨ (u, .op (.stat p clock) 0, u') ∈ tr →
      u' = u ∧ ∀ hash, u.dirs hash = ∅ := by
  refine ⟨?_, ?_, ?_⟩
  · intro u p clock u' he
    obtain ⟨hbooks, hc⟩ := step_charged hb hs hr he
    obtain ⟨h, _⟩ | ⟨_, counter, hcounter, hstats⟩ := hc
    · cases h
    cases hcounter with
    | read mem => exact (chargedBy_iff (by decide) hstats).mpr (hbooks.looksCompiled_iff mem)
  · intro u p clock u' he
    obtain ⟨hbooks, hc⟩ := step_charged hb hs hr he
    obtain ⟨h, _⟩ | ⟨_, counter, hcounter, hstats⟩ := hc
    · cases h
    cases hcounter with
    | stat mem => exact (chargedBy_iff (by decide) hstats).mpr (hbooks.looksCompiled_iff mem)
  · intro u p clock u' he
    have hsteps := hr.steps_inv (I := Books env N) (fun u a u' hu hst => hu.step hst) (hs.books hb)
    rcases he with he | he
    · cases (hsteps _ he).2.1 with
      | op all run => exact visit_idle (.inl ⟨p, clock, rfl⟩) run
    · cases (hsteps _ he).2.1 with
      | op all run => exact visit_idle (.inr ⟨p, clock, rfl⟩) run

/-- Deletions are charged by what the directory was, except that the last directory of an uncompiled
hash passes for a compiled one when a compiled hash is empty. -/
theorem delete_charged :
    ∀ u p clock u', (u, .op (.delete p clock) 1, u') ∈ tr →
      (ChargedBy u u' .delete .deleteCompiled p.dir clock ↔
        ¬ (OnlyOne u p.dir ∧ EmptyCompiled u)) := by
  intro u p clock u' he
  obtain ⟨hbooks, hc⟩ := step_charged hb hs hr he
  obtain ⟨h, _⟩ | ⟨_, counter, hcounter, hstats⟩ := hc
  · cases h
  cases hcounter with
  | delete mem =>
    exact (chargedBy_iff (by decide) hstats).trans (hbooks.looksCompiled_del_iff mem)

end

/-! ## the report -/

/-- `main` with `total_runs`, after `dataset.__init__` -/
structure Main where
  state : State
  totalRuns : ℕ

/-- `while total_runs < options.runs` -/
inductive MainStep (env : Env) (initialDirs runs : ℕ) : Main → Act → Main → Prop
  | initial {m s' clock} (run : Step env initialDirs m.state (.initial clock) s') :
    MainStep env initialDirs runs m (.initial clock) ⟨s', m.totalRuns⟩
  | op {m s' o ret} (lt : m.totalRuns < runs) (run : Step env initialDirs m.state (.op o ret) s') :
    MainStep env initialDirs runs m (.op o ret) ⟨s', m.totalRuns + ret⟩

/-- the initial loop and the main loop are over -/
def Main.Ended (initialDirs runs : ℕ) (m : Main) : Prop :=
  m.state.initial = initialDirs ∧ ¬ m.totalRuns < runs

/-- the counters of `print_all_stats` without the one of the initial loop -/
def reported : List Stat :=
  [.create, .patch, .compile, .clean, .read, .readCompiled, .delete, .deleteCompiled, .stat,
    .statCompiled]

def State.counted (s : State) : ℕ := (reported.map fun counter => (s.stats counter).length).sum

theorem Charge.reported {o : Op} {counter : Stat} (h : Charge s o counter) :
    counter ∈ reported := by
  cases h with
  | patch => decide
  | compile => decide
  | clean => decide
  | create => decide
  | delete mem => split <;> decide
  | read mem => split <;> decide
  | stat mem => split <;> decide

theorem sum_update {α : Type} [DecidableEq α] {l : List α} (hl : l.Nodup) {a : α} (ha : a ∈ l)
    {f g : α → ℕ} (hself : g a = f a + 1) (hother : ∀ b, b ≠ a → g b = f b) :
    (l.map g).sum = (l.map f).sum + 1 := by
  induction l with
  | nil => cases ha
  | cons b l ih =>
    obtain ⟨hb, hl⟩ := List.nodup_cons.mp hl
    rw [List.map_cons, List.map_cons, List.sum_cons, List.sum_cons]
    by_cases hab : b = a
    · subst hab
      have hsame : l.map g = l.map f := List.map_congr_left fun c hc => hother c fun h => hb (h ▸ hc)
      rw [hself, hsame]
      omega
    · rw [hother b hab, ih hl ((List.mem_cons.mp ha).resolve_left (Ne.symm hab))]
      omega

/-- One of the ten counters has got one run more, and the others none. -/
def OneMore (s s' : State) : Prop :=
  ∃ counter ∈ reported, (s'.stats counter).length = (s.stats counter).length + 1 ∧
    ∀ counter', counter' ≠ counter → s'.stats counter' = s.stats counter'

theorem OneMore.counted (h : OneMore s s') : s'.counted = s.counted + 1 := by
  obtain ⟨counter, hmem, hself, hother⟩ := h
  exact sum_update (by decide) hmem hself fun b hb => congrArg List.length (hother b hb)

theorem Charged.oneMore {o : Op} {ret : ℕ} (h : Charged s s' o ret) :
    (ret = 0 ∧ s' = s) ∨ (ret = 1 ∧ OneMore s s') := by
  refine h.imp id ?_
  rintro ⟨hret, counter, hcounter, hstats⟩
  refine ⟨hret, counter, hcounter.reported, ?_, ?_⟩
  · rw [hstats, addTimes_self, List.length_append]
    rfl
  · intro counter' hne
    rw [hstats, addTimes_of_ne hne]

theorem Charged.counted {o : Op} {ret : ℕ} (h : Charged s s' o ret) :
    s'.counted = s.counted + ret := by
  obtain ⟨hret, hsame⟩ | ⟨hret, hone⟩ := h.oneMore
  · rw [hret, hsame]
    rfl
  · rw [hret, hone.counted]

/-- a round of the initial loop has a counter of its own -/
theorem createInitial_counted {clock : Clock} (h : createInitial env clock s = .ok s') :
    s'.counted = s.counted := by
  unfold createInitial at h
  simp only [bind_eq_ok] at h
  obtain ⟨u, _, h⟩ := h
  cases h
  rfl

/-- What the loop keeps: no run is missing in the counters, and none too many was made. -/
structure Tally (initialDirs runs : ℕ) (m : Main) : Prop where
  counted : m.state.counted = m.totalRuns
  le : m.totalRuns ≤ runs

theorem Tally.step {runs : ℕ} {m m' : Main} {a : Act} (hm : Tally N runs m)
    (h : MainStep env N runs m a m') : Tally N runs m' := by
  cases h with
  | initial run =>
    cases run with
    | initial lt run =>
      refine ⟨?_, hm.le⟩
      show State.counted _ = _
      rw [createInitial_counted run, hm.counted]
  | op lt run =>
    cases run with
    | op all run =>
      have hc := Op.run_charge run
      refine ⟨?_, ?_⟩
      · show State.counted _ = _
        rw [hc.counted, hm.counted]
      · show m.totalRuns + _ ≤ runs
        obtain ⟨hret, _⟩ | ⟨hret, _⟩ := hc <;> omega

theorem Start.tally {q : Quadruple} {s₀ : State} (hs : Start env q t s₀) (runs : ℕ) :
    Tally N runs ⟨s₀, 0⟩ := by
  refine ⟨?_, Nat.zero_le _⟩
  show State.counted s₀ = 0
  simp [State.counted, reported, hs.stats]

/-- The report adds up. -/
theorem report_adds_up {q : Quadruple} {s₀ : State} (hs : Start env q t s₀) {runs : ℕ} {m : Main}
    {tr : List (Main × Act × Main)} (hr : Run (MainStep env N runs) ⟨s₀, 0⟩ tr m)
    (hend : m.Ended N runs) :
    m.totalRuns = runs ∧ m.state.counted = runs ∧
      ∀ u o ret u', (u, .op o ret, u') ∈ tr →
        (ret = 0 ∧ u'.state = u.state) ∨ (ret = 1 ∧ OneMore u.state u'.state) := by
  have hm := hr.inv (fun _ _ _ hu hst => hu.step hst) (hs.tally (N := N) runs)
  have htotal : m.totalRuns = runs := Nat.le_antisymm hm.le (Nat.le_of_not_lt hend.2)
  refine ⟨htotal, hm.counted.trans htotal, ?_⟩
  intro u o ret u' he
  obtain ⟨_, hstep, _⟩ := hr.steps_inv (fun _ _ _ hu hst => hu.step hst)
    (hs.tally (N := N) runs) _ he
  have hstep' : MainStep env N runs u (.op o ret) u' := hstep
  cases hstep' with
  | op lt run =>
    cases run with
    | op all run => exact (Op.run_charge run).oneMore

/-- A run that is no longer than `--runs` is one of `main`. -/
theorem run_main {s₀ : State} {tr : List (State × Act × State)} (hr : Run (Step env N) s₀ tr s)
    (runs : ℕ) (hlen : tr.length ≤ runs) :
    ∃ tr' n, Run (MainStep env N runs) ⟨s₀, 0⟩ tr' ⟨s, n⟩ ∧ n ≤ tr.length := by
  induction hr with
  | nil => exact ⟨[], 0, .nil, Nat.zero_le _⟩
  | @snoc tr u a v hr hst ih =>
    rw [List.length_append, List.length_singleton] at hlen ⊢
    obtain ⟨tr', n, hr', hn⟩ := ih (by omega)
    cases hst with
    | initial lt run => exact ⟨_, n, hr'.snoc (.initial (.initial lt run)), by omega⟩
    | @op _ o ret all run =>
      have hret : ret ≤ 1 := by
        obtain ⟨h, _⟩ | ⟨h, _⟩ := Op.run_charge run <;> omega
      have hlt : (⟨u, n⟩ : Main).totalRuns < runs := by
        show n < runs
        omega
      exact ⟨_, n + ret, hr'.snoc (.op hlt (.op all run)), by omega⟩

/-! ## samples -/

section Examples

def tick : Clock := ⟨0, 0, 1⟩

/-- a compiled tree that is read, one that is not compiled whose files are visited by `stat`, and no
tree to visit -/
theorem visit_charged_compiled :
    (∃ s₀ tr u u', Start sampleEnv sampleData sampleDisk s₀ ∧
      Run (Step sampleEnv 1) s₀ (tr ++ [(u, .op (.read ⟨0, kernelName 0⟩ tick) 1, u')]) u' ∧
      u.compiled (kernelName 0) ∧ ChargedBy u u' .read .readCompiled (kernelName 0) tick) ∧
    (∃ s₀ tr u u', Start sampleEnv sampleData sampleDisk s₀ ∧
      Run (Step sampleEnv 1) s₀ (tr ++ [(u, .op (.stat ⟨0, kernelName 0⟩ tick) 1, u')]) u' ∧
      ¬ u.compiled (kernelName 0) ∧ ChargedBy u u' .stat .statCompiled (kernelName 0) tick) ∧
    ∃ s₀ tr u u', Start sampleEnv sampleData sampleDisk s₀ ∧
      Run (Step sampleEnv 1) s₀ (tr ++ [(u, .op (.stat ⟨0, kernelName 0⟩ tick) 0, u')]) u' ∧
      u' = u ∧ ∀ hash, u.dirs hash = ∅ := by
  refine ⟨?_, ?_, ?_⟩
  · obtain ⟨s₀, tr, u, u', hs, hr, _, hst, hc⟩ := sample_step 1
      [.initial tick, .op (.compile ⟨0, kernelName 0⟩ tick) 1]
      (.op (.read ⟨0, kernelName 0⟩ tick) 1) (fun u _ => decide (u.compiled (kernelName 0)))
      (by decide +kernel)
    exact ⟨s₀, tr, u, u', hs, hr.snoc hst, of_decide_eq_true hc,
      (visit_charged sample_empty.dir hs (hr.snoc hst)).1 u ⟨0, kernelName 0⟩ tick u' (by simp)⟩
  · obtain ⟨s₀, tr, u, u', hs, hr, _, hst, hc⟩ := sample_step 1 [.initial tick]
      (.op (.stat ⟨0, kernelName 0⟩ tick) 1) (fun u _ => decide (¬ u.compiled (kernelName 0)))
      (by decide +kernel)
    exact ⟨s₀, tr, u, u', hs, hr.snoc hst, of_decide_eq_true hc,
      (visit_charged sample_empty.dir hs (hr.snoc hst)).2.1 u ⟨0, kernelName 0⟩ tick u' (by simp)⟩
  · obtain ⟨s₀, tr, u, u', hs, hr, _, hst, _⟩ := sample_step 1
      [.initial tick, .op (.delete ⟨0, kernelName 0⟩ tick) 1]
      (.op (.stat ⟨0, kernelName 0⟩ tick) 0) (fun _ _ => true) (by decide +kernel)
    exact ⟨s₀, tr, u, u', hs, hr.snoc hst,
      (visit_charged sample_empty.dir hs (hr.snoc hst)).2.2 u ⟨0, kernelName 0⟩ tick u'
        (.inr (by simp))⟩

/-- The first deletion after the initial loop made one tree is charged as one of a compiled tree. -/
theorem not_delete_charged :
    ¬ ∀ s₀ tr s, Start sampleEnv sampleData sampleDisk s₀ → Run (Step sampleEnv 1) s₀ tr s →
      ∀ u p clock u', (u, .op (.delete p clock) 1, u') ∈ tr →
        ChargedBy u u' .delete .deleteCompiled p.dir clock := by
  intro hall
  obtain ⟨s₀, tr, u, u', hs, hr, _, hst, hc⟩ := sample_step 1 [.initial tick]
    (.op (.delete ⟨0, kernelName 0⟩ tick) 1)
    (fun u u' => decide (u'.stats .deleteCompiled = u.stats .deleteCompiled ++ [tick] ∧
      ¬ u.compiled (kernelName 0))) (by decide +kernel)
  obtain ⟨hgot, hplain⟩ := of_decide_eq_true hc
  exact hplain ((hall s₀ _ u' hs (hr.snoc hst) u ⟨0, kernelName 0⟩ tick u' (by simp)).1.mp hgot)

/-- with a second tree in the hash -/
theorem delete_charged_two :
    ∃ s₀ tr u u', Start sampleEnv sampleData sampleDisk s₀ ∧
      Run (Step sampleEnv 2) s₀ (tr ++ [(u, .op (.delete ⟨0, kernelName 0⟩ tick) 1, u')]) u' ∧
      (ChargedBy u u' .delete .deleteCompiled (kernelName 0) tick ↔
        ¬ (OnlyOne u (kernelName 0) ∧ EmptyCompiled u)) := by
  obtain ⟨s₀, tr, u, u', hs, hr, _, hst, _⟩ := sample_step 2 [.initial tick, .initial tick]
    (.op (.delete ⟨0, kernelName 0⟩ tick) 1) (fun _ _ => true) (by decide +kernel)
  exact ⟨s₀, tr, u, u', hs, hr.snoc hst,
    delete_charged sample_empty.dir hs (hr.snoc hst) u ⟨0, kernelName 0⟩ tick u' (by simp)⟩

/-- two runs of the main loop -/
theorem report_adds_up_two :
    ∃ s₀ tr m, Start sampleEnv sampleData sampleDisk s₀ ∧
      Run (MainStep sampleEnv 0 2) ⟨s₀, 0⟩ tr m ∧ m.totalRuns = 2 ∧ m.state.counted = 2 := by
  obtain ⟨s₀, tr, s, hs, hr, hacts, hc⟩ := sample_acts 0
    [.op (.create [100] tick) 1, .op (.stat ⟨0, kernelName 100⟩ tick) 1]
    (fun s => decide (s.initial = 0 ∧ s.counted = 2)) (by decide +kernel)
  obtain ⟨hinitial, hcounted⟩ := of_decide_eq_true hc
  have hlen := congrArg List.length hacts
  rw [List.length_map] at hlen
  obtain ⟨tr', n, hr', hn⟩ := run_main hr 2 (Nat.le_of_eq hlen)
  have htally := hr'.inv (I := Tally 0 2) (fun _ _ _ hu hst => hu.step hst) (hs.tally 2)
  have hn' : n = 2 := htally.counted.symm.trans hcounted
  have hend : Main.Ended 0 2 ⟨s, n⟩ := ⟨hinitial, by rw [hn']; exact Nat.lt_irrefl 2⟩
  have h := report_adds_up hs hr' hend
  exact ⟨s₀, tr', ⟨s, n⟩, hs, hr', h.1, h.2.1⟩

end Examples

end Compilebench
