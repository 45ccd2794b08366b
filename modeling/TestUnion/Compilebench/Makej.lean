import TestUnion.Compilebench.Charges
import TestUnion.Compilebench.Raises

/-!
# compilebench: the phases of `--makej`

* `Phase`, `Phase.next`   the loops after the initial one, and which loop the value of an operation
                    leads to;
* `Job`, `JobStep`  the process in these loops; an exception ends it;
* `State.trees`, `State.plain`   the directories, and those that are not compiled;
* `JobInv`, `Job.left`   the invariant of the phases and the measure that each step makes smaller;
* `compileLoop_run`, `deleteLoop_run`   how many operations the two loops make and what they leave;
* `makej_over`      every job comes to its end or to an exception.
-/

namespace Compilebench

open FileTree PosixPath PosixCalls ExceptLoop Lts

variable {env : Env} {N : ℕ} {s s' : State} {t : Disk}

/-- The compile loop comes with the initial loop before it; `read x` is a round of
`for x in xrange(3)`. -/
inductive Phase where
  | compile
  | read (x : ℕ)
  | delete
  | exited
  | raised
  deriving DecidableEq

def Phase.runs : Phase → Op → Prop
  | .compile, .compile _ _ => True
  | .read _, .read _ _ => True
  | .delete, .delete _ _ => True
  | _, _ => False

def Phase.next : Phase → ℕ → Phase
  | .compile, ret => if ret = 0 then .read 0 else .compile
  | .read x, _ => if x + 1 < 3 then .read (x + 1) else .delete
  | .delete, ret => if ret = 0 then .exited else .delete
  | phase, _ => phase

/-- what `total_runs` grows by -/
def Phase.counts : Phase → ℕ → ℕ
  | .read _, _ => 1
  | _, ret => if ret = 0 then 0 else 1

structure Job where
  state : State
  phase : Phase
  totalRuns : ℕ

/-- A call that returned, or one that raised `x`. -/
inductive JobAct where
  | act (a : Act)
  | raiseInitial (clock : Clock) (x : Exn)
  | raiseOp (o : Op) (x : Exn)

inductive JobStep (env : Env) (initialDirs : ℕ) : Job → JobAct → Job → Prop
  | initial {j s' clock} (phase : j.phase = .compile)
      (run : Step env initialDirs j.state (.initial clock) s') :
    JobStep env initialDirs j (.act (.initial clock)) { j with state := s' }
  | op {j s' o ret} (runs : j.phase.runs o) (run : Step env initialDirs j.state (.op o ret) s') :
    JobStep env initialDirs j (.act (.op o ret))
      ⟨s', j.phase.next ret, j.totalRuns + j.phase.counts ret⟩
  | raiseInitial {j clock x} (phase : j.phase = .compile) (lt : j.state.initial < initialDirs)
      (run : createInitial env clock j.state = .error x) :
    JobStep env initialDirs j (.raiseInitial clock x) { j with phase := .raised }
  | raiseOp {j o x} (runs : j.phase.runs o) (eq : j.state.initial = initialDirs)
      (drawn : x ≠ .noDraw) (run : o.run env j.state = .error x) :
    JobStep env initialDirs j (.raiseOp o x) { j with phase := .raised }

/-! ## the directories -/

def State.trees (s : State) : Finset Str :=
  s.dirs .patched ∪ s.dirs .unpatched ∪ (s.dirs .unpatchedCompiled ∪ s.dirs .patchedCompiled)

def State.plain (s : State) : Finset Str := s.dirs .unpatched ∪ s.dirs .patched

@[simp] theorem mem_trees {x : Str} : x ∈ s.trees ↔ ∃ hash, x ∈ s.dirs hash := by
  unfold State.trees
  simp only [Finset.mem_union]
  refine ⟨?_, ?_⟩
  · rintro ((h | h) | (h | h)) <;> exact ⟨_, h⟩
  · rintro ⟨hash, h⟩
    cases hash with
    | patched => exact .inl (.inl h)
    | unpatched => exact .inl (.inr h)
    | unpatchedCompiled => exact .inr (.inl h)
    | patchedCompiled => exact .inr (.inr h)

@[simp] theorem mem_plain {x : Str} : x ∈ s.plain ↔ x ∈ s.dirs .unpatched ∨ x ∈ s.dirs .patched :=
  Finset.mem_union

theorem trees_eq_empty : s.trees = ∅ ↔ ∀ hash, s.dirs hash = ∅ := by
  rw [Finset.eq_empty_iff_forall_notMem]
  refine ⟨?_, ?_⟩
  · intro h hash
    rw [Finset.eq_empty_iff_forall_notMem]
    exact fun x hx => h x (mem_trees.mpr ⟨hash, hx⟩)
  · intro h x hx
    obtain ⟨hash, hmem⟩ := mem_trees.mp hx
    rw [h hash] at hmem
    exact absurd hmem (Finset.notMem_empty x)

section
variable (hb : Books env N s)
include hb

theorem Books.card_plain : s.plain.card = (s.dirs .unpatched).card + (s.dirs .patched).card := by
  unfold State.plain
  apply Finset.card_union_of_disjoint
  rw [Finset.disjoint_left]
  intro x hx hx'
  have h := hb.unique _ _ _ hx hx'
  cases h

/-- A name is taken out of its hash only. -/
theorem Books.mem_deleted {hash hash' : Hash} {dir x : Str} (hmem : dir ∈ s.dirs hash) :
    x ∈ (s.del hash dir).dirs hash' ↔ x ∈ s.dirs hash' ∧ x ≠ dir := by
  rw [mem_del]
  refine and_congr_right ?_
  intro hx
  refine ⟨?_, fun h hn => h hn.2⟩
  intro h hxd
  rw [hxd] at hx
  exact h ⟨hb.unique _ _ _ hx hmem, hxd⟩

/-- A name leaves all hashes and comes into one. -/
theorem Books.mem_moved {source dest hash : Hash} {dir x : Str} (hmem : dir ∈ s.dirs source) :
    x ∈ ((s.del source dir).set dest dir).dirs hash ↔
      (hash = dest ∧ x = dir) ∨ (x ∈ s.dirs hash ∧ x ≠ dir) := by
  rw [mem_set, hb.mem_deleted hmem]

/-- A compile call takes one directory out of the uncompiled ones, or there is none left. -/
theorem Books.compile_step {p : Pick} {clock : Clock} {ret : ℕ}
    (h : Done env s s' (.compile p clock) ret) :
    (ret = 1 ∧ ∃ dir ∈ s.plain, s'.plain = s.plain.erase dir ∧ s'.trees = s.trees) ∨
      (ret = 0 ∧ s' = s ∧ s.plain = ∅) := by
  cases h with
  | @move _ p' ch pick chosen mem ran dirs =>
    have hch := chosen_mem chosen
    simp only [Op.moves, compileOp, List.mem_cons, List.not_mem_nil, or_false] at hch
    refine .inl ⟨rfl, p'.dir, ?_, ?_, ?_⟩
    · rw [mem_plain]
      rcases hch with rfl | rfl
      · exact .inl mem
      · exact .inr mem
    · ext x
      rcases hch with rfl | rfl
      · simp [dirs, hb.mem_moved mem]
        tauto
      · simp [dirs, hb.mem_moved mem]
        tauto
    · ext x
      rw [mem_trees, mem_trees, dirs]
      exact exists_mem_move mem
  | visit kind disk dirs => rcases kind with ⟨p, clock, h⟩ | ⟨p, clock, h⟩ <;> cases h
  | idle picks same why =>
    refine .inr ⟨rfl, same, ?_⟩
    obtain ⟨hash, hnil⟩ | hempty := why
    · exact absurd hnil (hb.ne_nil hash)
    · unfold State.plain
      rw [hempty .unpatched (by simp [Op.sources]), hempty .patched (by simp [Op.sources])]
      rfl

/-- A delete call takes one directory out of all, or there is none left. -/
theorem Books.delete_step {p : Pick} {clock : Clock} {ret : ℕ}
    (h : Done env s s' (.delete p clock) ret) :
    (ret = 1 ∧ ∃ dir ∈ s.trees, s'.trees = s.trees.erase dir) ∨
      (ret = 0 ∧ s' = s ∧ s.trees = ∅) := by
  cases h with
  | @move _ p' ch pick chosen mem ran dirs =>
    have hch := chosen_mem chosen
    cases hch
  | @delete _ _ hash mem ran dirs =>
    refine .inl ⟨rfl, p.dir, mem_trees.mpr ⟨hash, mem⟩, ?_⟩
    ext x
    rw [Finset.mem_erase, mem_trees, mem_trees, dirs]
    refine ⟨?_, ?_⟩
    · rintro ⟨hash', hx⟩
      have hx' := (hb.mem_deleted mem).mp hx
      exact ⟨hx'.2, hash', hx'.1⟩
    · rintro ⟨hne, hash', hx⟩
      exact ⟨hash', (hb.mem_deleted mem).mpr ⟨hx, hne⟩⟩
  | visit kind disk dirs => rcases kind with ⟨p, clock, h⟩ | ⟨p, clock, h⟩ <;> cases h
  | idle picks same why =>
    refine .inr ⟨rfl, same, trees_eq_empty.mpr ?_⟩
    obtain ⟨hash, hnil⟩ | hempty := why
    · exact absurd hnil (hb.ne_nil hash)
    · exact fun hash => hempty hash (mem_allHashes hash)

end

theorem trees_congr (h : s'.dirs = s.dirs) : s'.trees = s.trees := by
  unfold State.trees
  rw [h]

theorem read_step {p : Pick} {clock : Clock} {ret : ℕ} (h : Done env s s' (.read p clock) ret) :
    s'.dirs = s.dirs := by
  cases h with
  | @move _ p' ch pick chosen mem ran dirs =>
    have hch := chosen_mem chosen
    cases hch
  | visit kind disk dirs => exact dirs
  | idle picks same why => rw [same]

theorem initial_step {clock : Clock} (h : createInitial env clock s = .ok s') :
    s'.initial = s.initial + 1 ∧ s'.plain = insert (kernelName s.initial) s.plain ∧
      s'.trees = insert (kernelName s.initial) s.trees := by
  unfold createInitial at h
  simp only [bind_eq_ok] at h
  obtain ⟨u, _, h⟩ := h
  cases h
  refine ⟨rfl, ?_, ?_⟩
  · ext x
    show x ∈ (s.set .unpatched (kernelName s.initial)).plain ↔ _
    simp
    tauto
  · ext x
    show x ∈ (s.set .unpatched (kernelName s.initial)).trees ↔ _
    rw [Finset.mem_insert, mem_trees, mem_trees]
    exact exists_mem_set

/-! ## there is always a draw -/

theorem exists_pick {α : Type} {good : List α} {dirs : α → Finset Str} (hgood : good ≠ [])
    (hpos : ∀ ch ∈ good, 0 < (dirs ch).card) : ∃ p r, pick good dirs p = .ok r := by
  obtain ⟨ch, rest, rfl⟩ := List.exists_cons_of_ne_nil hgood
  obtain ⟨dir, hdir⟩ := Finset.card_pos.mp (hpos ch (List.mem_cons_self ..))
  exact ⟨⟨0, dir⟩, (ch, dir), pick_ok.mpr ⟨rfl, hdir, rfl⟩⟩

theorem Exn.OfFiles.ne_noDraw {x : Exn} (h : x.OfFiles) : x ≠ .noDraw := by
  rintro rfl
  exact h

theorem runDirectory_drawn {dataset : Entries} {dirname : Str} {unlinkFirst readfirst : Bool}
    {clock : Clock} {x : Exn}
    (h : runDirectory env dataset dirname unlinkFirst readfirst clock t = .error x) :
    x ≠ .noDraw := by
  rcases runDirectory_error h with h | ⟨rfl, _⟩
  · exact h.ne_noDraw
  · exact Exn.noConfusion

/-- There is a pick for which only the rest of the operation can raise. -/
theorem pick_drawn {α β : Type} {good : List α} {dirs : α → Finset Str} {idle : β}
    {rest : α × Str → Except Exn β} (hpos : ∀ ch ∈ good, 0 < (dirs ch).card)
    (hrest : ∀ r x, rest r = .error x → x ≠ .noDraw) :
    ∃ p, ∀ x, (if good.length = 0 then .ok idle else pick good dirs p >>= rest) = .error x →
      x ≠ .noDraw := by
  by_cases hgood : good = []
  · refine ⟨⟨0, []⟩, ?_⟩
    intro x h
    rw [if_pos (by rw [hgood]; rfl)] at h
    cases h
  · obtain ⟨p, r, hp⟩ := exists_pick hgood hpos
    refine ⟨p, ?_⟩
    intro x h
    rw [if_neg (List.length_eq_zero_iff.not.mpr hgood), hp] at h
    exact hrest r x h

theorem goodMoves_card {op : List Move} : ∀ ch ∈ goodMoves s op, 0 < (s.dirs ch.source).card := by
  intro ch hch
  simpa using List.of_mem_filter hch

theorem goodHashes_card : ∀ ch ∈ goodHashes s, 0 < (s.dirs ch).card := by
  intro ch hch
  simpa using List.of_mem_filter hch

theorem compile_drawn (env : Env) (s : State) (clock : Clock) :
    ∃ p, ∀ x, compileOneDir env p clock s = .error x → x ≠ .noDraw := by
  refine pick_drawn goodMoves_card ?_
  intro r x h
  change (if r.2 = [] then _ else _) = _ at h
  split at h
  · cases h
  · rw [bind_eq_error] at h
    rcases h with h | ⟨u, _, h⟩
    · exact runDirectory_drawn h
    · cases h

theorem read_drawn (env : Env) (s : State) (clock : Clock) :
    ∃ p, ∀ x, readOneDir env p clock s = .error x → x ≠ .noDraw := by
  refine pick_drawn goodHashes_card ?_
  intro r x h
  change (readDirtree env r.2 clock s.disk >>= fun _ => Except.ok ()) >>= _ = _ at h
  rw [bind_eq_error] at h
  rcases h with h | ⟨u, _, h⟩
  · rw [bind_eq_error] at h
    rcases h with h | ⟨n, _, h⟩
    · rcases readDirtree_error h with h | ⟨rfl, _⟩
      · exact h.ne_noDraw
      · exact Exn.noConfusion
    · cases h
  · cases h

theorem delete_drawn (env : Env) (s : State) (clock : Clock) :
    ∃ p, ∀ x, deleteOneDir env p clock s = .error x → x ≠ .noDraw := by
  refine pick_drawn goodHashes_card ?_
  intro r x h
  change (rmrf env r.2 s.disk >>= fun t => _) = _ at h
  rw [bind_eq_error] at h
  rcases h with h | ⟨u, _, h⟩
  · exact (rmrf_error h).ne_noDraw
  · cases h

/-- An operation of the phase can be drawn. -/
theorem op_drawn (env : Env) {phase : Phase} (hn : phase ≠ .exited ∧ phase ≠ .raised) (s : State) :
    ∃ o, phase.runs o ∧ ∀ x, o.run env s = .error x → x ≠ .noDraw := by
  cases phase with
  | compile =>
    obtain ⟨p, hp⟩ := compile_drawn env s ⟨0, 0, 0⟩
    exact ⟨.compile p ⟨0, 0, 0⟩, trivial, hp⟩
  | read x =>
    obtain ⟨p, hp⟩ := read_drawn env s ⟨0, 0, 0⟩
    exact ⟨.read p ⟨0, 0, 0⟩, trivial, hp⟩
  | delete =>
    obtain ⟨p, hp⟩ := delete_drawn env s ⟨0, 0, 0⟩
    exact ⟨.delete p ⟨0, 0, 0⟩, trivial, hp⟩
  | exited => exact absurd rfl hn.1
  | raised => exact absurd rfl hn.2

/-! ## the phases end -/

structure JobInv (env : Env) (N : ℕ) (j : Job) : Prop where
  books : Books env N j.state
  le : j.state.initial ≤ N
  started : j.phase ≠ .compile → j.phase ≠ .raised → j.state.initial = N
  reads : ∀ x, j.phase = .read x → x < 3

def Job.Over (j : Job) : Prop := j.phase = .exited ∨ j.phase = .raised

/-- A bound on the steps that are left. -/
def Job.left (N : ℕ) (j : Job) : ℕ :=
  match j.phase with
  | .compile => j.state.plain.card + j.state.trees.card + 5 + 3 * (N - j.state.initial)
  | .read x => j.state.trees.card + 4 - x
  | .delete => j.state.trees.card + 1
  | _ => 0

variable {j j' : Job} {a : JobAct}

theorem JobInv.step (hj : JobInv env N j) (h : JobStep env N j a j') : JobInv env N j' := by
  cases h with
  | @initial s' clock phase run =>
    refine ⟨hj.books.step run, ?_, fun h => absurd phase h, fun x h => ?_⟩
    · cases run with
      | initial lt run =>
        show s'.initial ≤ N
        rw [(initial_step run).1]
        exact lt
    · rw [show j.phase = _ from phase] at h
      cases h
  | @op s' o ret runs run =>
    have heq : s'.initial = N := by
      cases run with
      | op all run => exact (Op.run_done run).2.2.trans all
    refine ⟨hj.books.step run, Nat.le_of_eq heq, fun _ _ => heq, ?_⟩
    intro x hx
    have hx' : j.phase.next ret = .read x := hx
    cases hp : j.phase with
    | compile =>
      rw [hp, Phase.next] at hx'
      split at hx'
      · cases hx'
        decide
      · cases hx'
    | read y =>
      rw [hp, Phase.next] at hx'
      split at hx'
      · next hlt =>
        cases hx'
        exact hlt
      · cases hx'
    | delete =>
      rw [hp, Phase.next] at hx'
      split at hx' <;> cases hx'
    | exited =>
      rw [hp] at hx'
      cases hx'
    | raised =>
      rw [hp] at hx'
      cases hx'
  | raiseInitial phase lt run =>
    exact ⟨hj.books, hj.le, fun _ h => absurd rfl h, fun x h => by cases h⟩
  | raiseOp runs eq drawn run =>
    exact ⟨hj.books, hj.le, fun _ h => absurd rfl h, fun x h => by cases h⟩

/-- Every phase has a next step. -/
theorem JobInv.exists_step (hj : JobInv env N j) (hn : ¬ j.Over) :
    ∃ a j', JobStep env N j a j' := by
  have hphase : j.phase ≠ .exited ∧ j.phase ≠ .raised := not_or.mp hn
  by_cases hlt : j.phase = .compile ∧ j.state.initial < N
  · cases hrun : createInitial env ⟨0, 0, 0⟩ j.state with
    | ok s' => exact ⟨_, _, .initial hlt.1 (.initial hlt.2 hrun)⟩
    | error x => exact ⟨_, _, .raiseInitial hlt.1 hlt.2 hrun⟩
  · have heq : j.state.initial = N := by
      by_cases hc : j.phase = .compile
      · have := hj.le
        have : ¬ j.state.initial < N := fun h => hlt ⟨hc, h⟩
        omega
      · exact hj.started hc hphase.2
    obtain ⟨o, hruns, hdrawn⟩ := op_drawn env hphase j.state
    cases hrun : o.run env j.state with
    | ok r =>
      obtain ⟨ret, s'⟩ := r
      exact ⟨_, _, .op hruns (.op heq hrun)⟩
    | error x => exact ⟨_, _, .raiseOp hruns heq (hdrawn x hrun) hrun⟩

/-- The operations of the phases, by what they do to the directories. -/
theorem JobInv.op_cases (hj : JobInv env N j) {o : Op} {ret : ℕ} (runs : j.phase.runs o)
    (run : Step env N j.state (.op o ret) s') :
    (j.phase = .compile ∧ ret = 1 ∧ ∃ dir ∈ j.state.plain,
        s'.plain = j.state.plain.erase dir ∧ s'.trees = j.state.trees) ∨
      (j.phase = .compile ∧ ret = 0 ∧ s' = j.state ∧ j.state.plain = ∅) ∨
      (∃ x, j.phase = .read x ∧ s'.dirs = j.state.dirs) ∨
      (j.phase = .delete ∧ ret = 1 ∧ ∃ dir ∈ j.state.trees, s'.trees = j.state.trees.erase dir) ∨
      (j.phase = .delete ∧ ret = 0 ∧ s' = j.state ∧ j.state.trees = ∅) := by
  have hdone : Done env j.state s' o ret := by
    cases run with
    | op all run => exact (Op.run_done run).1
  cases hp : j.phase with
  | compile =>
    rw [hp] at runs
    cases o with
    | compile p clock =>
      rcases hj.books.compile_step hdone with ⟨h1, h2⟩ | ⟨h1, h2⟩
      · exact .inl ⟨rfl, h1, h2⟩
      · exact .inr (.inl ⟨rfl, h1, h2⟩)
    | _ => cases runs
  | read x =>
    rw [hp] at runs
    cases o with
    | read p clock => exact .inr (.inr (.inl ⟨x, rfl, read_step hdone⟩))
    | _ => cases runs
  | delete =>
    rw [hp] at runs
    cases o with
    | delete p clock =>
      rcases hj.books.delete_step hdone with ⟨h1, h2⟩ | ⟨h1, h2⟩
      · exact .inr (.inr (.inr (.inl ⟨rfl, h1, h2⟩)))
      · exact .inr (.inr (.inr (.inr ⟨rfl, h1, h2⟩)))
    | _ => cases runs
  | exited =>
    rw [hp] at runs
    cases o <;> cases runs
  | raised =>
    rw [hp] at runs
    cases o <;> cases runs

theorem JobInv.left_lt (hj : JobInv env N j) (hn : ¬ j.Over) (h : JobStep env N j a j') :
    j'.left N < j.left N := by
  have hpos : 0 < j.left N := by
    unfold Job.left
    cases hp : j.phase with
    | compile =>
      simp only
      omega
    | read x =>
      have := hj.reads x hp
      simp only
      omega
    | delete => exact Nat.succ_pos _
    | exited => exact absurd (.inl hp) hn
    | raised => exact absurd (.inr hp) hn
  cases h with
  | @initial s' clock phase run =>
    cases run with
    | initial lt run =>
      obtain ⟨h1, h2, h3⟩ := initial_step run
      have hplain := Finset.card_insert_le (kernelName j.state.initial) j.state.plain
      have htrees := Finset.card_insert_le (kernelName j.state.initial) j.state.trees
      unfold Job.left
      simp only [phase, h1, h2, h3]
      omega
  | @op s' o ret runs run =>
    rcases hj.op_cases runs run with ⟨hp, rfl, dir, hmem, h1, h2⟩ | ⟨hp, rfl, rfl, h1⟩ |
      ⟨x, hp, h1⟩ | ⟨hp, rfl, dir, hmem, h1⟩ | ⟨hp, rfl, rfl, h1⟩
    · have := Finset.card_erase_lt_of_mem hmem
      simp only [Job.left, hp, Phase.next, Nat.one_ne_zero, if_false, h1, h2]
      have heq : s'.initial = j.state.initial := by
        cases run with
        | op all run => exact (Op.run_done run).2.2
      rw [heq]
      omega
    · simp only [Job.left, hp, Phase.next, if_true]
      omega
    · have hx := hj.reads x hp
      by_cases hlt : x + 1 < 3
      · simp only [Job.left, hp, Phase.next, if_pos hlt, trees_congr h1]
        omega
      · simp only [Job.left, hp, Phase.next, if_neg hlt, trees_congr h1]
        omega
    · have := Finset.card_erase_lt_of_mem hmem
      simp only [Job.left, hp, Phase.next, Nat.one_ne_zero, if_false, h1]
      omega
    · simp only [Job.left, hp, Phase.next, if_true]
      omega
  | raiseInitial phase lt run => exact hpos
  | raiseOp runs eq drawn run => exact hpos

theorem Start.job {q : Quadruple} {s₀ : State} (hb : t.get env.base = some .dir)
    (hs : Start env q t s₀) : JobInv env N ⟨s₀, .compile, 0⟩ := by
  refine ⟨hs.books hb, ?_, fun h => absurd rfl h, fun x h => by cases h⟩
  show s₀.initial ≤ N
  rw [hs.initial]
  exact Nat.zero_le _

/-! ## how many calls the two loops make -/

/-- an operation that returned 1 -/
def JobAct.succeeds : JobAct → Bool
  | .act (.op _ ret) => ret = 1
  | _ => false

def successes (tr : List (Job × JobAct × Job)) : ℕ := tr.countP fun e => e.2.1.succeeds

theorem successes_concat (tr : List (Job × JobAct × Job)) (e : Job × JobAct × Job) :
    successes (tr ++ [e]) = successes tr + if e.2.1.succeeds then 1 else 0 := by
  unfold successes
  rw [List.countP_append, List.countP_singleton]

/-- The compile loop, and the state it leaves. -/
def CompileLoop (j j' : Job) (n : ℕ) : Prop :=
  (j'.phase = .compile → j'.state.initial = j.state.initial ∧
      n + j'.state.plain.card = j.state.plain.card ∧ j'.state.trees = j.state.trees) ∧
    (j'.phase = .read 0 →
      n = j.state.plain.card ∧ j'.state.plain = ∅ ∧ j'.state.trees = j.state.trees)

theorem CompileLoop.other {n : ℕ} (h : j'.phase ≠ .compile) (h' : j'.phase ≠ .read 0) :
    CompileLoop j j' n :=
  ⟨fun hp => absurd hp h, fun hp => absurd hp h'⟩

theorem CompileLoop.step {n : ℕ} {u v : Job} {a : JobAct} (hn : CompileLoop j u n)
    (hu : JobInv env N u) (hall : j.state.initial = N) (hst : JobStep env N u a v) :
    CompileLoop j v (n + if a.succeeds then 1 else 0) := by
  cases hst with
  | initial phase run =>
    have hlt : u.state.initial < N := by
      cases run with
      | initial lt run => exact lt
    have := (hn.1 phase).1
    omega
  | @op s' o ret runs run =>
    rcases hu.op_cases runs run with ⟨hp, rfl, dir, hmem, h1, h2⟩ | ⟨hp, rfl, rfl, h1⟩ |
      ⟨x, hp, h1⟩ | ⟨hp, rfl, dir, hmem, h1⟩ | ⟨hp, rfl, rfl, h1⟩
    · obtain ⟨hinit, hcount, htrees⟩ := hn.1 hp
      have hcard := Finset.card_erase_add_one hmem
      refine ⟨fun _ => ⟨?_, ?_, h2.trans htrees⟩, fun h => ?_⟩
      · cases run with
        | op all run => exact (Op.run_done run).2.2.trans hinit
      · show n + 1 + s'.plain.card = _
        rw [h1]
        omega
      · rw [show Phase.next u.phase 1 = .compile by rw [hp]; rfl] at h
        cases h
    · obtain ⟨hinit, hcount, htrees⟩ := hn.1 hp
      have hnext : Phase.next u.phase 0 = .read 0 := by
        rw [hp]
        rfl
      refine ⟨fun h => ?_, fun _ => ⟨?_, h1, htrees⟩⟩
      · rw [show Phase.next u.phase 0 = .compile from h] at hnext
        cases hnext
      · rw [h1, Finset.card_empty] at hcount
        exact hcount
    · have hnext : Phase.next u.phase ret ≠ .compile ∧ Phase.next u.phase ret ≠ .read 0 := by
        rw [hp, Phase.next]
        split
        · exact ⟨Phase.noConfusion, fun h => by cases h⟩
        · exact ⟨Phase.noConfusion, Phase.noConfusion⟩
      exact .other hnext.1 hnext.2
    · have hnext : Phase.next u.phase 1 = .delete := by
        rw [hp]
        rfl
      exact .other (fun h => by cases hnext.symm.trans h) fun h => by cases hnext.symm.trans h
    · have hnext : Phase.next u.phase 0 = .exited := by
        rw [hp]
        rfl
      exact .other (fun h => by cases hnext.symm.trans h) fun h => by cases hnext.symm.trans h
  | raiseInitial phase lt run => exact .other Phase.noConfusion Phase.noConfusion
  | raiseOp runs eq drawn run => exact .other Phase.noConfusion Phase.noConfusion

theorem compileLoop_run {tr : List (Job × JobAct × Job)} (hj : JobInv env N j)
    (hphase : j.phase = .compile) (hall : j.state.initial = N) (hr : Run (JobStep env N) j tr j') :
    CompileLoop j j' (successes tr) := by
  induction hr with
  | nil =>
    refine ⟨fun _ => ⟨rfl, Nat.zero_add _, rfl⟩, fun h => ?_⟩
    rw [hphase] at h
    cases h
  | snoc hr hst ih =>
    rw [successes_concat]
    exact ih.step (hr.inv (fun _ _ _ h hst => h.step hst) hj) hall hst

/-- The delete loop, and the state it leaves. -/
def DeleteLoop (j j' : Job) (n : ℕ) : Prop :=
  (j'.phase = .delete ∧ n + j'.state.trees.card = j.state.trees.card) ∨
    (j'.phase = .exited ∧ n = j.state.trees.card ∧ j'.state.trees = ∅) ∨ j'.phase = .raised

theorem DeleteLoop.step {n : ℕ} {u v : Job} {a : JobAct} (hn : DeleteLoop j u n)
    (hu : JobInv env N u) (hst : JobStep env N u a v) :
    DeleteLoop j v (n + if a.succeeds then 1 else 0) := by
  cases hst with
  | initial phase run =>
    rcases hn with ⟨hp, _⟩ | ⟨hp, _⟩ | hp <;> cases hp.symm.trans phase
  | @op s' o ret runs run =>
    rcases hu.op_cases runs run with ⟨hp, _⟩ | ⟨hp, _⟩ | ⟨x, hp, _⟩ |
      ⟨hp, rfl, dir, hmem, h1⟩ | ⟨hp, rfl, rfl, h1⟩
    · rcases hn with ⟨hq, _⟩ | ⟨hq, _⟩ | hq <;> cases hp.symm.trans hq
    · rcases hn with ⟨hq, _⟩ | ⟨hq, _⟩ | hq <;> cases hp.symm.trans hq
    · rcases hn with ⟨hq, _⟩ | ⟨hq, _⟩ | hq <;> cases hp.symm.trans hq
    · obtain ⟨_, hcount⟩ | ⟨hq, _⟩ | hq := hn
      · have hcard := Finset.card_erase_add_one hmem
        refine .inl ⟨?_, ?_⟩
        · show Phase.next u.phase 1 = _
          rw [hp]
          rfl
        · show n + 1 + s'.trees.card = _
          rw [h1]
          omega
      · cases hp.symm.trans hq
      · cases hp.symm.trans hq
    · obtain ⟨_, hcount⟩ | ⟨hq, _⟩ | hq := hn
      · refine .inr (.inl ⟨?_, ?_, h1⟩)
        · show Phase.next u.phase 0 = _
          rw [hp]
          rfl
        · rw [h1, Finset.card_empty] at hcount
          exact hcount
      · cases hp.symm.trans hq
      · cases hp.symm.trans hq
  | raiseInitial phase lt run => exact .inr (.inr rfl)
  | raiseOp runs eq drawn run => exact .inr (.inr rfl)

theorem deleteLoop_run {tr : List (Job × JobAct × Job)} (hj : JobInv env N j)
    (hphase : j.phase = .delete) (hr : Run (JobStep env N) j tr j') :
    DeleteLoop j j' (successes tr) := by
  induction hr with
  | nil => exact .inl ⟨hphase, Nat.zero_add _⟩
  | snoc hr hst ih =>
    rw [successes_concat]
    exact ih.step (hr.inv (fun _ _ _ h hst => h.step hst) hj) hst

/-- Every job comes to its end, or to an exception. -/
theorem makej_over {q : Quadruple} {s₀ : State} (hb : t.get env.base = some .dir)
    (hs : Start env q t s₀) : Inev (JobStep env N) Job.Over ⟨s₀, .compile, 0⟩ := by
  apply Inev.of_measure (I := JobInv env N) (Job.left N) _ _ (hs.job hb)
  intro j hj hn
  exact ⟨hj.exists_step hn, fun a j' hst => ⟨hj.step hst, hj.left_lt hn hst⟩⟩

end Compilebench
